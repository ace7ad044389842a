import BlobStorage.Store
import Mathlib.Algebra.Group.Int.Defs

/-!
# The S3 backend

`s3.rs` and the modules below it. The client is a function that sends a request and
returns the service's response, so the backend can be run against any service.
-/

namespace BlobStorage

open Fallible

/-- A request that the client reports as failed, with the service's code if it sent one. -/
structure SdkError where
  code : Option String
  deriving DecidableEq, Repr

structure CompletedPart where
  eTag : String
  partNumber : Nat
  deriving DecidableEq, Repr

structure GetObjectOutput where
  body : Reader
  contentLength : Option Int
  eTag : Option String
  lastModified : Option DateTime

/-- A deletion that the service reports as failed. -/
structure DeleteFault where
  key : Option Key
  code : Option String
  message : Option String
  deriving DecidableEq, Repr

structure DeleteObjectsOutput where
  deleted : List (Option Key)
  errors : List DeleteFault
  deriving DecidableEq, Repr

structure S3Object where
  key : Option Key
  size : Option Int
  eTag : Option String
  lastModified : Option DateTime
  deriving DecidableEq, Repr

structure ListObjectsOutput where
  contents : List S3Object
  nextContinuationToken : Option String
  deriving DecidableEq, Repr

inductive S3Request where
  | putObject (key : Key) (body : Bytes)
  | getObject (key : Key)
  | headObject (key : Key)
  | deleteObjects (keys : List Key)
  | listObjectsV2 (start : Option Key) (continuationToken : Option String)
  | createMultipartUpload (key : Key)
  | uploadPart (key : Key) (uploadId : String) (partNumber : Nat) (body : Bytes)
  | completeMultipartUpload (key : Key) (uploadId : String) (parts : List CompletedPart)
  | abortMultipartUpload (key : Key) (uploadId : String)

abbrev S3Request.Output : S3Request → Type
  | .putObject _ _ => Option String
  | .getObject _ => GetObjectOutput
  | .headObject _ => Unit
  | .deleteObjects _ => DeleteObjectsOutput
  | .listObjectsV2 _ _ => ListObjectsOutput
  | .createMultipartUpload _ => Option String
  | .uploadPart _ _ _ _ => Option String
  | .completeMultipartUpload _ _ _ => Option String
  | .abortMultipartUpload _ _ => Unit

abbrev S3Request.Response (q : S3Request) : Type := Except SdkError q.Output

/-- `DEFAULT_MULTIPART_PART_SIZE`. -/
def defaultMultipartPartSize : Nat := 50 * 1024 * 1024

/-- `MIN_MULTIPART_PART_SIZE`. -/
def minMultipartPartSize : Nat := 5 * 1024 * 1024

/-- The parts are not smaller than the service allows. A listing is followed for at most
`maxPages` pages; the source follows it without a bound. -/
structure S3BlobStore (m : Type → Type) where
  send : (q : S3Request) → m q.Response
  bucket : String
  partSize : Nat
  maxPages : Nat
  minPartSize : minMultipartPartSize ≤ partSize

/-- `keys.chunks(size + 1)`. -/
def chunks {α : Type} (size : Nat) : List α → List (List α)
  | [] => []
  | x :: rest => (x :: rest).take (size + 1) :: chunks size ((x :: rest).drop (size + 1))
termination_by xs => xs.length
decreasing_by
  rw [List.length_drop, List.length_cons]
  omega

theorem chunks_of_ne_nil {α : Type} (size : Nat) {xs : List α} (h : xs ≠ []) :
    chunks size xs = xs.take (size + 1) :: chunks size (xs.drop (size + 1)) := by
  cases xs with
  | nil => exact absurd rfl h
  | cons x rest => rw [chunks]

theorem S3BlobStore.partSize_pos {m : Type → Type} (self : S3BlobStore m) : 0 < self.partSize :=
  Nat.lt_of_lt_of_le (by decide) self.minPartSize

/-- `as u64`. -/
def toUnsigned (n : Int) : Nat := (n % 2 ^ 64).toNat

namespace SdkError

/-- `is_not_found`. -/
def isNotFound (e : SdkError) : Bool := e.code = some "NoSuchKey" ∨ e.code = some "NotFound"

/-- `is_misconfigured`. -/
def isMisconfigured (e : SdkError) : Bool := e.code = some "NoSuchBucket"

end SdkError

namespace S3BlobStore

variable {m : Type → Type} [Monad m]

def new (send : (q : S3Request) → m q.Response) (bucket : String) (maxPages : Nat) :
    S3BlobStore m where
  send := send
  bucket := bucket
  partSize := defaultMultipartPartSize
  maxPages := maxPages
  minPartSize := by decide

def withMultipartPartSize (self : S3BlobStore m) (size : Nat) : S3BlobStore m where
  send := self.send
  bucket := self.bucket
  partSize := max size minMultipartPartSize
  maxPages := self.maxPages
  minPartSize := le_max_right size minMultipartPartSize

/-- The `map_err` of a request. -/
def requestError (self : S3BlobStore m) (message : String) (e : SdkError) : BlobStorageError :=
  if e.isMisconfigured then
    .backendMisconfigured s!"S3 bucket '{self.bucket}' does not exist or is not accessible"
  else .storage message (some (.sdk e.code))

/-- `send().await.map_err(..)?`. -/
def request (self : S3BlobStore m) (q : S3Request) (message : String) : Fallible m q.Output :=
  ExceptT.mk (self.send q >>= fun response => pure (response.mapError (self.requestError message)))

section Put

/-- The loop that reads the first `MIN_MULTIPART_PART_SIZE` bytes, or all there are. -/
def fillLookahead (filled : Bytes) (reader : Reader) : Except IoError (Bytes × Reader) :=
  if filled.length < minMultipartPartSize then
    match reader.readBuf (minMultipartPartSize - filled.length) with
    | .error e => .error e
    | .ok ([], rest) => .ok (filled, rest)
    | .ok (byte :: chunk, rest) => fillLookahead (filled ++ byte :: chunk) rest
  else .ok (filled, reader)
termination_by minMultipartPartSize - filled.length
decreasing_by
  rw [List.length_append, List.length_cons]
  omega

variable (self : S3BlobStore m)

/-- `put_object`. -/
def putObject [Clock m] (key : Key) (data : Bytes) : Fallible m BlobMeta := do
  let eTag ← self.request (.putObject key data) s!"S3 PutObject failed for key '{String.ofList key}'"
  let now ← perform Clock.utcNow
  pure { key, storedSize := data.length, modifiedAt := now, etag := eTag }

/-- `start_multipart`. -/
def startMultipart (key : Key) : Fallible m String := do
  let uploadId ← self.request (.createMultipartUpload key)
    s!"S3 CreateMultipartUpload failed for key '{String.ofList key}'"
  match uploadId with
  | some id => pure id
  | none => throw (.storage
      s!"Missing upload_id in CreateMultipartUpload response for key '{String.ofList key}'" none)

/-- `abort_upload`, whose own result is dropped. -/
def abortUpload (key : Key) (uploadId : String) : Fallible m Unit := do
  let _ ← perform (self.send (.abortMultipartUpload key uploadId))
  pure ()

theorem readPart_shorter {limit : Nat} (hlimit : 0 < limit) {reader rest : Reader} {buffer : Bytes}
    (h : reader.readPart limit = .ok (buffer, rest)) (hbuffer : buffer ≠ []) :
    rest.bytes.length < reader.bytes.length := by
  unfold Reader.readPart at h
  split at h
  · cases h
    rw [List.length_drop]
    omega
  · split at h
    · cases h
      exact List.length_pos_of_ne_nil hbuffer
    · cases h

/-- `upload_parts`, from the part `number` on. -/
def uploadParts (key : Key) (uploadId : String) (number : Nat) (reader : Reader) :
    Fallible m (List CompletedPart × Nat) :=
  match _hread : reader.readPart self.partSize with
  | .error e => do
      self.abortUpload key uploadId
      throw (.storage s!"failed to read blob data for key '{String.ofList key}'" (some (.io e)))
  | .ok (buffer, rest) =>
      if _hbuffer : buffer = [] then pure ([], 0)
      else do
        let response ← perform (self.send (.uploadPart key uploadId number buffer))
        match response with
        | .ok eTag => do
            let (parts, total) ← uploadParts key uploadId (number + 1) rest
            pure ({ eTag := eTag.getD "", partNumber := number } :: parts, buffer.length + total)
        | .error e => do
            self.abortUpload key uploadId
            throw (self.requestError
              s!"S3 UploadPart failed for key '{String.ofList key}' (part {number}, upload_id {uploadId})"
              e)
termination_by reader.bytes.length
decreasing_by
  exact readPart_shorter self.partSize_pos _hread _hbuffer

/-- `complete_multipart`. -/
def completeMultipart [Clock m] (key : Key) (uploadId : String) (parts : List CompletedPart)
    (totalSize : Nat) : Fallible m BlobMeta := do
  let eTag ← self.request (.completeMultipartUpload key uploadId parts)
    s!"S3 CompleteMultipartUpload failed for key '{String.ofList key}'"
  let now ← perform Clock.utcNow
  pure { key, storedSize := totalSize, modifiedAt := now, etag := eTag }

/-- `upload_multipart`. -/
def uploadMultipart [Clock m] (key : Key) (reader : Reader) : Fallible m BlobMeta := do
  let uploadId ← self.startMultipart key
  let (parts, totalSize) ← self.uploadParts key uploadId 1 reader
  self.completeMultipart key uploadId parts totalSize

/-- The loop of `put`. -/
def putBlobs [Clock m] : List BlobInput → Fallible m (List BlobMeta)
  | [] => pure []
  | blob :: rest =>
      match fillLookahead [] blob.data with
      | .error e => throw (.storage
          s!"failed to read initial chunk for key '{String.ofList blob.key}'" (some (.io e)))
      | .ok (lookahead, reader) => do
          let info ←
            if lookahead.length < minMultipartPartSize then self.putObject blob.key lookahead
            else self.uploadMultipart blob.key (Reader.chain lookahead reader)
          let others ← putBlobs rest
          pure (info :: others)

def put [Clock m] (blobs : List BlobInput) : Fallible m PutResult := do
  checkKeys (blobs.map BlobInput.key)
  let infos ← self.putBlobs blobs
  pure { blobs := infos }

end Put

variable (self : S3BlobStore m)

section Get

/-- `get_object_output`. -/
def getObjectOutput (key : Key) : Fallible m GetObjectOutput := do
  let response ← perform (self.send (.getObject key))
  match response with
  | .ok output => pure output
  | .error e =>
      if e.isMisconfigured then throw (self.requestError "" e)
      else if e.isNotFound then throw (.notFound key)
      else throw (self.requestError s!"S3 get failed for key '{String.ofList key}'" e)

def get (key : Key) : Fallible m Reader := do
  checkKey key
  let output ← self.getObjectOutput key
  pure output.body

def getWithMetadata (key : Key) : Fallible m (BlobMeta × Reader) := do
  checkKey key
  let output ← self.getObjectOutput key
  pure ({ key, storedSize := toUnsigned (output.contentLength.getD 0),
          modifiedAt := output.lastModified.getD 0, etag := output.eTag }, output.body)

def existsBlob (key : Key) : Fallible m Bool := do
  checkKey key
  let response ← perform (self.send (.headObject key))
  match response with
  | .ok _ => pure true
  | .error e =>
      if e.isMisconfigured then throw (self.requestError "" e)
      else if e.isNotFound then pure false
      else throw (self.requestError s!"S3 head failed for key '{String.ofList key}'" e)

end Get

section Delete

/-- What `delete` makes of a fault, if the key is not just gone already. -/
def faultError (fault : DeleteFault) : Option PerKeyError :=
  let code := fault.code.getD "Unknown"
  let message := fault.message.getD ""
  let text := if message = "" then code else s!"{code}: {message}"
  if code = "AccessDenied" then some (.permissionDenied text)
  else if code = "NoSuchKey" ∨ code = "NotFound" then none
  else some (.unknown text)

def faultKey (fault : DeleteFault) : Key := fault.key.getD "unknown".toList

/-- The keys of a response that count as deleted. -/
def succeededIn (output : DeleteObjectsOutput) : List Key :=
  output.deleted.filterMap id ++
    (output.errors.filter fun fault => faultError fault = none).map faultKey

def errorsIn (output : DeleteObjectsOutput) : List KeyError :=
  output.errors.filterMap fun fault =>
    (faultError fault).map fun error => { key := faultKey fault, error }

/-- The loop of `delete` over the chunks. -/
def deleteChunks : List (List Key) → Fallible m (List Key × List KeyError)
  | [] => pure ([], [])
  | chunk :: rest => do
      let output ← self.request (.deleteObjects chunk) "S3 batch delete failed"
      let (succeeded, errors) ← deleteChunks rest
      pure (succeededIn output ++ succeeded, errorsIn output ++ errors)

def delete (keys : List Key) : Fallible m Unit := do
  checkKeys keys
  let (succeeded, errors) ← self.deleteChunks (chunks 999 keys)
  if errors = [] then pure () else throw (.batch { succeeded, errors })

end Delete

section List

variable {S : Type}

/-- What a listing does with an object that has a key. With `false` it ends the listing. -/
abbrev OnObject (m : Type → Type) (S : Type) := Key → S3Object → Fallible (StateT S m) Bool

/-- The loop over the objects of a page. It returns whether to go on. -/
def eachObject (onObject : OnObject m S) : List S3Object → Fallible (StateT S m) Bool
  | [] => pure true
  | object :: rest =>
      match object.key with
      | some key => do
          let more ← onObject key object
          if more then eachObject onObject rest else pure false
      | none => eachObject onObject rest

/-- The loop that `list`, `visit` and `list_with_metadata` share, for at most `fuel` pages. -/
def eachPage (start : Option Key) (onObject : OnObject m S) :
    Nat → Option String → Fallible (StateT S m) Unit
  | 0, _ => throw (.storage "listing did not end" none)
  | fuel + 1, token => do
      let output ← withLocal (self.request (.listObjectsV2 start token) "S3 list failed")
      let more ← eachObject onObject output.contents
      if more then
        match output.nextContinuationToken with
        | some next => eachPage start onObject fuel (some next)
        | none => pure ()
      else pure ()

/-- The prefix that a request is restricted to. -/
def requestPrefix (filter : ListFilter) : Option Key :=
  match filter.prefixHint with
  | some [] => none
  | hint => hint

def walk (filter : ListFilter) (onObject : OnObject m S) : Fallible (StateT S m) Unit :=
  self.eachPage (requestPrefix filter) onObject self.maxPages none

/-- The record of a listed object. -/
def objectMeta (key : Key) (object : S3Object) : BlobMeta :=
  { key, storedSize := toUnsigned (object.size.getD 0),
    modifiedAt := object.lastModified.getD 0, etag := object.eTag }

def list (filter : ListFilter) : Fallible m (List Key) := do
  let (_, keys) ← scopeLocal [] (self.walk filter fun key _ => do
    if filter.matchesBlob key none then do
      let keys ← getLocal
      setLocal (keys ++ [key])
      pure true
    else pure true)
  pure (sortKeys keys)

def visit (filter : ListFilter) (visitor : BlobVisitor m S) : Fallible (StateT S m) Unit :=
  self.walk filter fun key object => do
    if filter.matchesBlob key none then visitor.visit key (some (objectMeta key object))
    else pure true

def listWithMetadata (filter : ListFilter) : Fallible m (List BlobMeta) := do
  let (_, infos) ← scopeLocal [] (self.walk filter fun key object => do
    if filter.matchesBlob key none then do
      let infos ← getLocal
      setLocal (infos ++ [objectMeta key object])
      pure true
    else pure true)
  pure (sortByKey infos)

end List

/-- `impl BlobStore for S3BlobStore`. -/
def toBlobStore [Clock m] : BlobStore m where
  put := self.put
  get := self.get
  delete := self.delete
  list := self.list
  existsBlob := self.existsBlob
  getWithMetadata := self.getWithMetadata
  visit := self.visit
  listWithMetadata := self.listWithMetadata

end S3BlobStore

end BlobStorage
