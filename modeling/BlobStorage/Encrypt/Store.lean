import BlobStorage.Encrypt.Provider

/-!
# The encrypted layer

`encrypt/store.rs`, `encrypt/visitors.rs` and `encrypt/rekey.rs`. A blob is two
objects of the inner store, the ciphertext under its key and the header under the
key followed by the header suffix, written one after the other. Every request to
the inner store is issued where the source issues it.
-/

namespace BlobStorage

open Fallible

/-- `DEFAULT_HEADER_SUFFIX`. -/
def defaultHeaderSuffix : Key := ".enc-header".toList

structure EncryptedBlobStore (m : Type → Type) where
  inner : BlobStore m
  encryption : EncryptionProvider m
  headerSuffix : Key

namespace EncryptedBlobStore

variable {m : Type → Type} [Monad m]

def headerKey (self : EncryptedBlobStore m) (key : Key) : Key := key ++ self.headerSuffix

/-- `validate_key_no_header_collision`. -/
def checkNoHeaderCollision (self : EncryptedBlobStore m) (key : Key) : Fallible m Unit :=
  if self.headerSuffix <:+ key then
    throw (.invalidInput (s!"blob key must not end with reserved header suffix " ++
      s!"'{String.ofList self.headerSuffix}': '{String.ofList key}'"))
  else
    pure ()

/-- The three checks that `put` makes of every key before it writes anything. -/
def checkPutKeys (self : EncryptedBlobStore m) : List Key → Fallible m Unit
  | [] => pure ()
  | key :: rest => do
      checkKey key
      self.checkNoHeaderCollision key
      checkKey (self.headerKey key)
      self.checkPutKeys rest

/-- One iteration of the loop of `put`: the data object, then the header, with a
best-effort rollback of the data object on each failure in between. -/
def putBlob (self : EncryptedBlobStore m) (blob : BlobInput) : Fallible m (List BlobMeta) := do
  let run ← perform (self.encryption.encryptStream blob.data)
  -- A failed inner put aborts the encryption task; nothing is rolled back.
  let result ← self.inner.put
    [BlobInput.withSize blob.key run.reader (blob.sizeHint.getD 0)]
  match run.result blob.key with
  | .error e =>
      let _ ← attempt (self.inner.delete [blob.key])
      throw e
  | .ok headerBytes =>
      match ← attempt (self.inner.put [BlobInput.withSize (self.headerKey blob.key)
          (Reader.ofBytes headerBytes) headerBytes.length]) with
      | .error e =>
          let _ ← attempt (self.inner.delete [blob.key])
          throw e
      | .ok _ =>
          pure (result.blobs.filter fun info => decide ¬self.headerSuffix <:+ info.key)

/-- The loop of `put` over the batch. -/
def putBlobs (self : EncryptedBlobStore m) : List BlobInput → Fallible m (List BlobMeta)
  | [] => pure []
  | blob :: rest => do
      let infos ← self.putBlob blob
      let others ← self.putBlobs rest
      pure (infos ++ others)

def put (self : EncryptedBlobStore m) (blobs : List BlobInput) : Fallible m PutResult := do
  self.checkPutKeys (blobs.map BlobInput.key)
  let infos ← self.putBlobs blobs
  pure { blobs := infos }

/-- Replace the key of a `NotFound` by the caller's, keep every other error. -/
def hideNotFound {α : Type} (key : Key) (x : Fallible m α) : Fallible m α := do
  match ← attempt x with
  | .ok a => pure a
  | .error (.notFound _) => throw (.notFound key)
  | .error e => throw e

/-- `decrypt_stream`: fetch the header, read it into memory, start the task. -/
def decryptStream (self : EncryptedBlobStore m) (key : Key) (encData : Reader) :
    Fallible m Reader := do
  let headerData ← hideNotFound key (self.inner.get (self.headerKey key))
  match headerData.readToEnd with
  | .error e => throw (.ofIo e)
  | .ok header =>
      let run ← perform (self.encryption.decryptStream encData header)
      pure (run.reader key)

def get (self : EncryptedBlobStore m) (key : Key) : Fallible m Reader := do
  self.checkNoHeaderCollision key
  let encData ← hideNotFound key (self.inner.get key)
  self.decryptStream key encData

def checkDeleteKeys (self : EncryptedBlobStore m) : List Key → Fallible m Unit
  | [] => pure ()
  | key :: rest => do
      self.checkNoHeaderCollision key
      self.checkDeleteKeys rest

/-- `delete`, as one inner batch of data and header keys. Of a batch error only the
caller's own keys are reported, and it is no error when only headers failed. -/
def delete (self : EncryptedBlobStore m) (keys : List Key) : Fallible m Unit := do
  self.checkDeleteKeys keys
  match ← attempt (self.inner.delete (keys.flatMap fun key => [key, self.headerKey key])) with
  | .ok _ => pure ()
  | .error (.batch error) =>
      let errors := error.errors.filter fun failed => decide (failed.key ∈ keys)
      let succeeded := error.succeeded.filter fun key => decide (key ∈ keys)
      if errors = [] then pure () else throw (.batch { succeeded, errors })
  | .error other => throw other

/-- The keys whose header object exists, in order. -/
def withHeader (self : EncryptedBlobStore m) : List Key → Fallible m (List Key)
  | [] => pure []
  | key :: rest => do
      let headerExists ← self.inner.existsBlob (self.headerKey key)
      let others ← self.withHeader rest
      pure (if headerExists then key :: others else others)

def list (self : EncryptedBlobStore m) (filter : ListFilter) : Fallible m (List Key) := do
  let allKeys ← self.inner.list (suffixFilter [])
  self.withHeader ((allKeys.filter fun key => decide ¬self.headerSuffix <:+ key).filter
    fun key => filter.matchesBlob key none)

/-- `EncryptVisitor`: skip headers and data objects without a header, then apply the
caller's filter. -/
def visitor {S : Type} (self : EncryptedBlobStore m) (filter : ListFilter)
    (outer : BlobVisitor m S) : BlobVisitor m S where
  visit key info :=
    if self.headerSuffix <:+ key then pure true
    else do
      let headerExists ← withLocal (self.inner.existsBlob (self.headerKey key))
      if !headerExists then pure true
      else if !filter.matchesBlob key info then pure true
      else outer.visit key info

def visit {S : Type} (self : EncryptedBlobStore m) (filter : ListFilter)
    (outer : BlobVisitor m S) : Fallible (StateT S m) Unit :=
  self.inner.visit (suffixFilter []) (self.visitor filter outer)

def existsBlob (self : EncryptedBlobStore m) (key : Key) : Fallible m Bool := do
  self.checkNoHeaderCollision key
  let dataExists ← self.inner.existsBlob key
  if !dataExists then pure false else self.inner.existsBlob (self.headerKey key)

def getWithMetadata (self : EncryptedBlobStore m) (key : Key) :
    Fallible m (BlobMeta × Reader) := do
  self.checkNoHeaderCollision key
  let (info, reader) ← hideNotFound key (self.inner.getWithMetadata key)
  let decrypted ← self.decryptStream key reader
  pure ({ info with key := key }, decrypted)

/-- The loop of `list_with_metadata`. A header whose existence cannot be checked is
logged and its blob skipped; so is a blob that disappeared since it was listed. -/
def collectMetadata (self : EncryptedBlobStore m) (filter : ListFilter) :
    List Key → Fallible m (List BlobMeta)
  | [] => pure []
  | key :: rest =>
      if self.headerSuffix <:+ key then self.collectMetadata filter rest
      else if !filter.matchesBlob key none then self.collectMetadata filter rest
      else do
        match ← attempt (self.inner.existsBlob (self.headerKey key)) with
        | .error _ => self.collectMetadata filter rest
        | .ok false => self.collectMetadata filter rest
        | .ok true =>
            match ← attempt (self.inner.getWithMetadata key) with
            | .ok (info, _) =>
                let others ← self.collectMetadata filter rest
                pure ({ info with key := key } :: others)
            | .error (.notFound _) => self.collectMetadata filter rest
            | .error e => throw e

def listWithMetadata (self : EncryptedBlobStore m) (filter : ListFilter) :
    Fallible m (List BlobMeta) := do
  let allKeys ← self.inner.list (suffixFilter [])
  let infos ← self.collectMetadata filter allKeys
  pure (sortByKey infos)

/-- `impl BlobStore for EncryptedBlobStore`. -/
def toBlobStore (self : EncryptedBlobStore m) : BlobStore m where
  put := self.put
  get := self.get
  delete := self.delete
  list := self.list
  existsBlob := self.existsBlob
  getWithMetadata := self.getWithMetadata
  visit := self.visit
  listWithMetadata := self.listWithMetadata

/-- `RekeyVisitor`, whose state is the number of headers replaced. A header that
cannot be fetched, re-wrapped or written back is logged and passed over; one whose
stream breaks off ends the run. -/
def rekeyVisitor (self : EncryptedBlobStore m) : BlobVisitor m Nat where
  visit key _ := do
    match ← withLocal (attempt (self.inner.get key)) with
    | .error _ => pure true
    | .ok reader =>
        match reader.readToEnd with
        | .error e => throw (.storage s!"failed to read header '{String.ofList key}'"
            (some (.io e)))
        | .ok headerData =>
            match ← performLocal (self.encryption.rekeyHeader headerData) with
            | .ok (some newHeader) =>
                match ← withLocal (attempt (self.inner.put [BlobInput.withSize key
                    (Reader.ofBytes newHeader) headerData.length])) with
                | .ok _ => do
                    let rekeyed ← getLocal
                    setLocal (rekeyed + 1)
                    pure true
                | .error _ => pure true
            | .ok none => pure true
            | .error _ => pure true

def rekey (self : EncryptedBlobStore m) : Fallible m RekeyResult := do
  let (_, count) ← scopeLocal 0
    (self.inner.visit (suffixFilter self.headerSuffix) self.rekeyVisitor)
  pure { rekeyedCount := count }

end EncryptedBlobStore

end BlobStorage
