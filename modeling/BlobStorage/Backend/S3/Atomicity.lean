import BlobStorage.Backend.S3.Service
import BlobStorage.Backend.S3.Uploads
import BlobStorage.Library.Interference

/-!
# Objects on S3 are never torn

Any number of clients share a bucket, and each makes any calls one after another. Their requests
interleave, the service refuses what it likes, and answers get lost. A client relies on the others
leaving its uploads alone and guarantees the same to them: so the parts of an upload stay those of
one blob until the request that completes it, and no object is ever anything but a whole blob.
-/

namespace BlobStorage

open Fallible Program S3BlobStore

/-- A call of a client. -/
inductive S3Call where
  | put (blobs : List BlobInput)
  | get (key : Key)
  | getWithMetadata (key : Key)
  | existsBlob (key : Key)
  | delete (keys : List Key)
  | list (filter : ListFilter)
  | listWithMetadata (filter : ListFilter)

/-- A call that has returned, and its result. -/
inductive S3Outcome where
  | put (blobs : List BlobInput) (result : Except BlobStorageError PutResult)
  | get (key : Key) (result : Except BlobStorageError Reader)
  | getWithMetadata (key : Key) (result : Except BlobStorageError (BlobMeta × Reader))
  | existsBlob (key : Key) (result : Except BlobStorageError Bool)
  | delete (keys : List Key) (result : Except BlobStorageError Unit)
  | list (filter : ListFilter) (result : Except BlobStorageError (List Key))
  | listWithMetadata (filter : ListFilter) (result : Except BlobStorageError (List BlobMeta))

/-- A client of the bucket: its settings, what its clock shows, and its calls. -/
structure S3Client where
  partSize : Nat
  maxPages : Nat
  now : DateTime
  calls : List S3Call

namespace S3Client

variable (bucket : String) (client : S3Client)

def store : S3BlobStore (Program S3Request.Response) :=
  (remote bucket client.maxPages).withMultipartPartSize client.partSize

@[reducible] def clock : Clock (Program S3Request.Response) := ⟨pure client.now⟩

def performCall : S3Call → Program S3Request.Response S3Outcome
  | .put blobs => do
      let result ← (@S3BlobStore.put _ _ (client.store bucket) client.clock blobs).run
      pure (.put blobs result)
  | .get key => do
      let result ← ((client.store bucket).get key).run
      pure (.get key result)
  | .getWithMetadata key => do
      let result ← ((client.store bucket).getWithMetadata key).run
      pure (.getWithMetadata key result)
  | .existsBlob key => do
      let result ← ((client.store bucket).existsBlob key).run
      pure (.existsBlob key result)
  | .delete keys => do
      let result ← ((client.store bucket).delete keys).run
      pure (.delete keys result)
  | .list filter => do
      let result ← ((client.store bucket).list filter).run
      pure (.list filter result)
  | .listWithMetadata filter => do
      let result ← ((client.store bucket).listWithMetadata filter).run
      pure (.listWithMetadata filter result)

def performEach : List S3Call → Program S3Request.Response (List S3Outcome)
  | [] => pure []
  | call :: rest => do
      let outcome ← client.performCall bucket call
      let others ← performEach rest
      pure (outcome :: others)

/-- All its calls, one after another. -/
def run : Program S3Request.Response (List S3Outcome) := client.performEach bucket client.calls

end S3Client

variable {ι : Type}

/-- A bucket with these objects and uploads in the beginning. -/
def Vault.holding (objects : PlainMap) (uploads : String → Option (Upload ι)) : Vault ι :=
  { objects, uploads, stored := [] }

/-- Some client has a call that puts a blob with this key and content, and its stream does not
break off. -/
def Offered (clients : ι → S3Client) (key : Key) (content : Bytes) : Prop :=
  ∃ i blobs blob, .put blobs ∈ (clients i).calls ∧ blob ∈ blobs ∧ blob.key = key ∧
    blob.data.failure = none ∧ blob.data.bytes = content

/-- A whole blob: one that was there from the beginning, or one that a client puts. -/
def WholeBlob (initial : PlainMap) (clients : ι → S3Client) (key : Key) (content : Bytes) : Prop :=
  initial key = some content ∨ Offered clients key content

/-- A blob of a batch has been stored, and its stream did not break off. -/
def Vault.HasStored (v : Vault ι) (blob : BlobInput) : Prop :=
  blob.data.failure = none ∧ (blob.key, blob.data.bytes) ∈ v.stored

theorem Vault.HasStored.mono {v w : Vault ι} {blob : BlobInput} (h : v.HasStored blob)
    (hstored : ∀ entry ∈ v.stored, entry ∈ w.stored) : w.HasStored blob :=
  ⟨h.1, hstored _ h.2⟩

/-- What a returned call says is true: a batch that was put has been stored, blob by blob, and a
blob that was read to its end is a whole one. -/
def S3Outcome.Truthful (whole : Key → Bytes → Prop) (v : Vault ι) : S3Outcome → Prop
  | .put blobs (.ok _) => ∀ blob ∈ blobs, v.HasStored blob
  | .get key (.ok reader) => reader.failure = none → whole key reader.bytes
  | .getWithMetadata key (.ok (_, reader)) => reader.failure = none → whole key reader.bytes
  | _ => True

section Discipline

/-- What holds of the bucket at every moment. -/
structure Vault.Sound (initial : PlainMap) (offered : Key → Bytes → Prop) (v : Vault ι) :
    Prop where
  objects : ∀ key content, v.objects key = some content →
    initial key = some content ∨ (key, content) ∈ v.stored
  stored : ∀ key content, (key, content) ∈ v.stored → offered key content

/-- The uploads that are the client's, or are not, and all that has been stored, stay. -/
def Vault.Keeps (whose : ι → Prop) (v w : Vault ι) : Prop :=
  (∀ uploadId upload, v.uploads uploadId = some upload → whose upload.client →
    w.uploads uploadId = some upload) ∧ ∀ entry ∈ v.stored, entry ∈ w.stored

theorem Vault.Keeps.refl (whose : ι → Prop) (v : Vault ι) : v.Keeps whose v :=
  ⟨fun _ _ h _ => h, fun _ h => h⟩

theorem Vault.Keeps.trans {whose : ι → Prop} {u v w : Vault ι} (h : u.Keeps whose v)
    (h' : v.Keeps whose w) : u.Keeps whose w :=
  ⟨fun id upload hid hwhose => h'.1 id upload (h.1 id upload hid hwhose) hwhose,
    fun entry hentry => h'.2 entry (h.2 entry hentry)⟩

theorem Vault.Keeps.of_eq {whose : ι → Prop} {v w : Vault ι} (huploads : w.uploads = v.uploads)
    (hstored : w.stored = v.stored) : v.Keeps whose w := by
  refine ⟨fun uploadId upload hupload _ => ?_, fun entry hentry => ?_⟩
  · rw [huploads]
    exact hupload
  · rw [hstored]
    exact hentry

/-- How a client of the bucket lives with the others. -/
def sharing (initial : PlainMap) (offered : Key → Bytes → Prop) (i : ι) :
    Discipline S3Request S3Request.Response (Vault ι) where
  answers v q r w := v.Answers i q r w
  good := Vault.Sound initial offered
  others := Vault.Keeps (· = i)
  allowed := Vault.Keeps (· ≠ i)
  refl := Vault.Keeps.refl _
  trans := Vault.Keeps.trans

variable {initial : PlainMap} {offered : Key → Bytes → Prop} {i : ι} {v w : Vault ι}

theorem Vault.Sound.of_stored (h : v.Sound initial offered) (hstored : w.stored = v.stored)
    (hobjects : ∀ key content, w.objects key = some content → v.objects key = some content) :
    w.Sound initial offered where
  objects key content hobject := by
    rw [hstored]
    exact h.objects key content (hobjects key content hobject)
  stored key content hmem := by
    rw [hstored] at hmem
    exact h.stored key content hmem

theorem Vault.Sound.store (h : v.Sound initial offered) {key : Key} {content : Bytes}
    (hoffered : offered key content) : (v.store key content).Sound initial offered where
  objects other content' hobject := by
    obtain hold | hnew := Vault.objects_of_store hobject
    · exact (h.objects other content' hold).imp_right fun hmem => List.mem_cons_of_mem _ hmem
    · exact .inr hnew
  stored other content' hmem := by
    obtain hsame | hold := List.mem_cons.mp hmem
    · cases hsame
      exact hoffered
    · exact h.stored other content' hold

/-- The requests that touch no upload and store nothing. -/
def S3Request.Harmless : S3Request → Prop
  | .getObject _ | .headObject _ | .deleteObjects _ | .listObjectsV2 _ _ => True
  | _ => False

/-- What a response to a harmless request says about the bucket. -/
def S3Request.Tells (whole : Key → Bytes → Prop) : (q : S3Request) → q.Response → Prop
  | .getObject key, .ok output => output.body.failure = none → whole key output.body.bytes
  | _, _ => True

theorem Vault.Answers.harmless {q : S3Request} {r : q.Response} (h : v.Answers i q r w)
    (hq : q.Harmless) (hv : v.Sound initial offered) :
    w.Sound initial offered ∧ v.Keeps (· ≠ i) w ∧
      q.Tells (fun key content => initial key = some content ∨ offered key content) r := by
  have hcarried : ∀ output, v.Carries i q output w →
      w.uploads = v.uploads ∧ w.stored = v.stored ∧
        (∀ key content, w.objects key = some content → v.objects key = some content) ∧
        q.Tells (fun key content => initial key = some content ∨ offered key content)
          (.ok output) := by
    intro output hcarries
    cases hcarries with
    | getObject output there delivers =>
        refine ⟨rfl, rfl, fun _ _ h => h, fun hunbroken => ?_⟩
        obtain ⟨_, hbytes⟩ | ⟨hbroken, _⟩ := delivers
        · rw [hbytes]
          exact (hv.objects _ _ there).imp_right (hv.stored _ _)
        · exact absurd hunbroken hbroken
    | headObject | listObjectsV2 => exact ⟨rfl, rfl, fun _ _ h => h, trivial⟩
    | deleteObjects => exact ⟨rfl, rfl, fun _ _ h => Vault.objects_of_remove h, trivial⟩
    | putObject | createMultipartUpload | uploadPart | completeMultipartUpload
    | abortMultipartUpload => exact absurd hq not_false
  have hsilent : ∀ e, q.Tells (fun key content => initial key = some content ∨
      offered key content) (.error e) := by
    intro e
    cases q <;> trivial
  cases h with
  | refused e => exact ⟨hv, .refl _ v, hsilent e⟩
  | @carried output _ carries =>
      obtain ⟨huploads, hstored, hobjects, htells⟩ := hcarried output carries
      exact ⟨hv.of_stored hstored hobjects, .of_eq huploads hstored, htells⟩
  | @lost e output _ carries =>
      obtain ⟨huploads, hstored, hobjects, _⟩ := hcarried output carries
      exact ⟨hv.of_stored hstored hobjects, .of_eq huploads hstored, hsilent e⟩

end Discipline

section Harmless

variable {whole : Key → Bytes → Prop} {self : S3BlobStore (Program S3Request.Response)}

/-- A program that only makes harmless requests. -/
abbrev HarmlessCall (whole : Key → Bytes → Prop) {α : Type} (post : α → Prop)
    (x : Fallible (Program S3Request.Response) α) : Prop :=
  TryWithin S3Request.Harmless (S3Request.Tells whole) post x

theorem harmless_checkKey (key : Key) :
    HarmlessCall whole (fun _ => True) (checkKey key) := by
  rw [checkKey]
  cases validateBlobKey key with
  | ok _ => exact .pure trivial
  | error e => exact .throw e

theorem harmless_checkKeys (keys : List Key) :
    HarmlessCall whole (fun _ => True) (checkKeys keys) := by
  induction keys with
  | nil => exact .pure trivial
  | cons key rest ih => exact (harmless_checkKey key).bind fun _ _ => ih

theorem harmless_ask {q : S3Request} (hq : q.Harmless) :
    HarmlessCall whole (q.Tells whole) (perform (ask q)) := .ask hq fun _ h => h

variable (hsend : self.send = ask)

include hsend

theorem harmless_request {q : S3Request} (hq : q.Harmless) (message : String) :
    HarmlessCall whole (fun output => q.Tells whole (.ok output)) (self.request q message) := by
  rw [S3BlobStore.request, hsend]
  refine ⟨hq, fun r hr output houtput => ?_⟩
  cases r with
  | ok output' =>
      cases houtput
      exact hr
  | error e => cases houtput

theorem harmless_getObjectOutput (key : Key) :
    HarmlessCall whole (fun output => output.body.failure = none → whole key output.body.bytes)
      (self.getObjectOutput key) := by
  rw [getObjectOutput, hsend]
  refine TryWithin.bind (@harmless_ask whole (.getObject key) trivial) fun response h => ?_
  cases response with
  | ok output => exact .pure h
  | error e =>
      dsimp only
      split
      · exact .throw _
      split
      · exact .throw _
      · exact .throw _

theorem harmless_get (key : Key) :
    HarmlessCall whole (fun reader => reader.failure = none → whole key reader.bytes)
      (self.get key) :=
  (harmless_checkKey key).bind fun _ _ =>
    (harmless_getObjectOutput hsend key).bind fun _ h => .pure h

theorem harmless_getWithMetadata (key : Key) :
    HarmlessCall whole (fun result => result.2.failure = none → whole key result.2.bytes)
      (self.getWithMetadata key) :=
  (harmless_checkKey key).bind fun _ _ =>
    (harmless_getObjectOutput hsend key).bind fun _ h => .pure h

theorem harmless_existsBlob (key : Key) :
    HarmlessCall whole (fun _ => True) (self.existsBlob key) := by
  refine (harmless_checkKey key).bind fun _ _ => ?_
  rw [hsend]
  refine TryWithin.bind (@harmless_ask whole (.headObject key) trivial) fun response _ => ?_
  cases response with
  | ok output => exact .pure trivial
  | error e =>
      dsimp only
      split
      · exact .throw _
      split
      · exact .pure trivial
      · exact .throw _

theorem harmless_deleteChunks (batches : List (List Key)) :
    HarmlessCall whole (fun _ => True) (self.deleteChunks batches) := by
  induction batches with
  | nil => exact .pure trivial
  | cons batch rest ih =>
      exact (harmless_request hsend (q := .deleteObjects batch) trivial _).bind fun _ _ =>
        ih.bind fun _ _ => .pure trivial

theorem harmless_delete (keys : List Key) :
    HarmlessCall whole (fun _ => True) (self.delete keys) := by
  refine (harmless_checkKeys keys).bind fun _ _ => ?_
  refine (harmless_deleteChunks hsend _).bind fun outcome _ => ?_
  obtain ⟨succeeded, errors⟩ := outcome
  dsimp only
  split
  · exact .pure trivial
  · exact .throw _

section Listing

variable {S : Type} {onObject : OnObject (Program S3Request.Response) S}

/-- A walk step that only makes harmless requests. -/
abbrev HarmlessWalk (whole : Key → Bytes → Prop) {α : Type}
    (x : Fallible (StateT S (Program S3Request.Response)) α) : Prop :=
  LocalWithin S3Request.Harmless (S3Request.Tells whole) (fun _ => True) x

omit hsend in
theorem harmless_eachObject
    (hobject : ∀ key object, HarmlessWalk whole (onObject key object)) (objects : List S3Object) :
    HarmlessWalk whole (eachObject onObject objects) := by
  induction objects with
  | nil => exact .pure trivial
  | cons object rest ih =>
      rw [eachObject]
      cases object.key with
      | none => exact ih
      | some key =>
          refine (hobject key object).bind fun more _ => ?_
          cases more with
          | true => exact ih
          | false => exact .pure trivial

theorem harmless_eachPage (hobject : ∀ key object, HarmlessWalk whole (onObject key object))
    (start : Option Key) (fuel : Nat) (token : Option String) :
    HarmlessWalk whole (self.eachPage start onObject fuel token) := by
  induction fuel generalizing token with
  | zero => exact .throw _
  | succ fuel ih =>
      have hrequest := @harmless_request whole self hsend (.listObjectsV2 start token) trivial
        "S3 list failed"
      refine (LocalWithin.withLocal hrequest).bind fun output _ => ?_
      refine (harmless_eachObject hobject output.contents).bind fun more _ => ?_
      cases more with
      | false => exact .pure trivial
      | true =>
          cases output.nextContinuationToken with
          | none => exact .pure trivial
          | some next => exact ih (some next)

omit hsend in
/-- The walk that records what it comes by. -/
theorem harmless_record {α : Type} (keep : Key → Bool) (record : Key → S3Object → α) (key : Key)
    (object : S3Object) :
    HarmlessWalk (S := List α) whole (do
      if keep key then do
        let found ← getLocal
        setLocal (found ++ [record key object])
        pure true
      else pure true) := by
  cases keep key with
  | true =>
      exact LocalWithin.getLocal.bind fun found _ =>
        (LocalWithin.setLocal _).bind fun _ _ => .pure trivial
  | false => exact .pure trivial

theorem harmless_list (filter : ListFilter) :
    HarmlessCall whole (fun _ => True) (self.list filter) := by
  refine (TryWithin.scopeLocal (harmless_eachPage hsend (fun key object => ?_) _ _ _) []).bind
    fun _ _ => .pure trivial
  exact harmless_record (fun key => filter.matchesBlob key none) (fun key _ => key) key object

theorem harmless_listWithMetadata (filter : ListFilter) :
    HarmlessCall whole (fun _ => True) (self.listWithMetadata filter) := by
  refine (TryWithin.scopeLocal (harmless_eachPage hsend (fun key object => ?_) _ _ _) []).bind
    fun _ _ => .pure trivial
  exact harmless_record (fun key => filter.matchesBlob key none) objectMeta key object

end Listing

end Harmless

section Steps

variable {initial : PlainMap} {offered : Key → Bytes → Prop} {i : ι} {v w : Vault ι} {key : Key}
  {uploadId : String} {upload : Upload ι}

theorem Vault.Keeps.store {whose : ι → Prop} (v : Vault ι) (key : Key) (content : Bytes) :
    v.Keeps whose (v.store key content) :=
  ⟨fun _ _ hupload _ => hupload, fun _ hentry => List.mem_cons_of_mem _ hentry⟩

/-- The client changes an upload of its own. -/
theorem Vault.Keeps.update (hmine : v.uploads uploadId = some upload)
    (hclient : upload.client = i) (replaced : Option (Upload ι)) :
    v.Keeps (· ≠ i) { v with uploads := Function.update v.uploads uploadId replaced } := by
  refine ⟨fun other upload' hupload hother => ?_, fun _ hentry => hentry⟩
  have hne : other ≠ uploadId := by
    rintro rfl
    rw [hmine] at hupload
    cases hupload
    exact hother hclient
  exact (Function.update_of_ne hne ..).trans hupload

theorem Vault.Sound.start (h : v.Sound initial offered) (key : Key) (uploadId : String) :
    (v.start uploadId i key).Sound initial offered := h.of_stored rfl fun _ _ h => h

theorem Vault.Keeps.start {whose : ι → Prop} (hfresh : v.uploads uploadId = none) (key : Key) :
    v.Keeps whose (v.start uploadId i key) := by
  refine ⟨fun other upload hupload _ => ?_, fun _ hentry => hentry⟩
  have hne : other ≠ uploadId := by
    rintro rfl
    rw [hupload] at hfresh
    cases hfresh
  exact (Function.update_of_ne hne ..).trans hupload

/-- A request is safe if it is safe to carry it out. -/
theorem Vault.Answers.safe {q : S3Request} {r : q.Response} (h : v.Answers i q r w)
    (hv : v.Sound initial offered)
    (hcarries : ∀ output w, v.Carries i q output w → w.Sound initial offered ∧
      v.Keeps (· ≠ i) w) : w.Sound initial offered ∧ v.Keeps (· ≠ i) w := by
  cases h with
  | refused e => exact ⟨hv, .refl _ v⟩
  | carried carries => exact hcarries _ w carries
  | lost e carries => exact hcarries _ w carries

theorem Vault.Answers.carries {q : S3Request} {output : q.Output}
    (h : v.Answers i q (.ok output) w) : v.Carries i q output w := by
  cases h with
  | carried carries => exact carries

end Steps

section Put

variable {initial : PlainMap} {offered : Key → Bytes → Prop} {i : ι} {v : Vault ι} {key : Key}
  {uploadId : String} {self : S3BlobStore (Program S3Request.Response)}

/-- The call keeps to the discipline of the bucket. -/
abbrev SecureCall (initial : PlainMap) (offered : Key → Bytes → Prop) (i : ι) {α : Type}
    (post : α → Vault ι → Prop) (x : Fallible (Program S3Request.Response) α) (v : Vault ι) :
    Prop :=
  TrySecure (sharing initial offered i) post x v

/-- A check that makes no request. -/
theorem secure_checkKeys {keys : List Key} {α : Type} {post : α → Vault ι → Prop}
    {x : Fallible (Program S3Request.Response) α}
    (h : SecureCall initial offered i post x v) :
    SecureCall initial offered i post (checkKeys keys >>= fun _ => x) v := by
  induction keys with
  | nil => exact h
  | cons key rest ih =>
      rw [checkKeys]
      rw [checkKey]
      cases validateBlobKey key with
      | ok _ => exact ih
      | error e => exact .throw e

theorem requestError_ok {α : Type} {message : String} {r : Except SdkError α} {output : α}
    (h : r.mapError (self.requestError message) = .ok output) : r = .ok output := by
  cases r with
  | ok output' =>
      cases h
      rfl
  | error e => cases h

variable (hsend : self.send = ask)

include hsend

theorem secure_abortUpload {upload : Upload ι} (hmine : v.uploads uploadId = some upload)
    (hclient : upload.client = i) :
    SecureCall initial offered i (fun _ _ => True) (self.abortUpload key uploadId) v := by
  rw [abortUpload, hsend]
  refine TrySecure.request fun w hw hgood r w' hanswer => ?_
  have hstill := hw.1 uploadId upload hmine hclient
  obtain ⟨hgood', hkeeps⟩ := Vault.Answers.safe hanswer hgood fun output u hcarries => by
    rw [hcarries.abortMultipartUpload_inv]
    exact ⟨hgood.of_stored rfl fun _ _ h => h, .update hstill hclient none⟩
  exact ⟨hgood', hkeeps, .pure fun _ _ _ => trivial⟩

/-- The parts of a stream, from the part `number` on. In the end the upload has them all, after
the ones that it had, and the stream did not break off. -/
theorem secure_uploadParts (number : Nat) (reader : Reader) {upload : Upload ι}
    (hv : v.Sound initial offered) (hmine : v.uploads uploadId = some upload)
    (hclient : upload.client = i) (hkey : upload.key = key) :
    SecureCall initial offered i
      (fun result w => reader.failure = none ∧ ∃ upload', w.uploads uploadId = some upload' ∧
        upload'.client = i ∧ upload'.key = key ∧
        (∀ n < number, upload'.parts n = upload.parts n) ∧
        upload'.contents result.1 = some (partsOf self.partSize reader.bytes))
      (self.uploadParts key uploadId number reader) v := by
  have hpositive : 0 < self.partSize := Nat.lt_of_lt_of_le (by decide) self.minPartSize
  induction hlength : reader.bytes.length using Nat.strong_induction_on
    generalizing number reader upload v with
  | _ length ih =>
  subst hlength
  rw [uploadParts]
  split
  · exact (secure_abortUpload hsend hmine hclient).bind (fun _ _ _ _ => .throw _) hv
  · next buffer rest hread =>
      obtain ⟨rest', hok, hbytes, hfailure, hends⟩ | ⟨e', herror, _⟩ :=
        @readPart_cases reader self.partSize
      swap
      · rw [herror] at hread
        cases hread
      rw [hok] at hread
      cases hread
      split
      · next hbuffer =>
          -- The stream has ended, with nothing more to send.
          have hempty : reader.bytes = [] := by
            obtain hzero | hnil := List.take_eq_nil_iff.mp hbuffer
            · omega
            · exact hnil
          have hunbroken : reader.failure = none := hends (by rw [hempty]; exact hpositive)
          refine .pure fun w hw _ => ⟨hunbroken, upload, hw.1 uploadId upload hmine hclient,
            hclient, hkey, fun _ _ => rfl, ?_⟩
          rw [hempty, partsOf_nil]
          rfl
      · next hbuffer =>
          have hshorter : rest.bytes.length < reader.bytes.length :=
            readPart_shorter hpositive hok hbuffer
          rw [hsend]
          refine TrySecure.request fun w hw hgood r w' hanswer => ?_
          have hstill := hw.1 uploadId upload hmine hclient
          obtain ⟨hgood', hkeeps⟩ := Vault.Answers.safe hanswer hgood fun output u hcarries => by
            obtain ⟨tag, _, rfl⟩ := hcarries.uploadPart_inv hstill
            exact ⟨hgood.of_stored rfl fun _ _ h => h, .update hstill hclient _⟩
          refine ⟨hgood', hkeeps, ?_⟩
          cases r with
          | error e =>
              have hmine' : ∃ upload', w'.uploads uploadId = some upload' ∧
                  upload'.client = i := by
                cases hanswer with
                | refused => exact ⟨upload, hstill, hclient⟩
                | lost _ carries =>
                    obtain ⟨tag, _, rfl⟩ := carries.uploadPart_inv hstill
                    exact ⟨_, w.receive_uploads_self _ _ _ _ _, hclient⟩
              obtain ⟨upload', hmine', hclient'⟩ := hmine'
              exact (secure_abortUpload hsend hmine' hclient').bind (fun _ _ _ _ => .throw _) hgood'
          | ok eTag =>
              obtain ⟨tag, rfl, rfl⟩ := (Vault.Answers.carries hanswer).uploadPart_inv hstill
              have hparts := ih _ hshorter (number + 1) rest hgood'
                (w.receive_uploads_self (reader.bytes.take self.partSize) uploadId tag upload
                  number) hclient hkey rfl
              refine hparts.bind (fun result u _ hresult => .pure fun u' hu' _ => ?_) hgood'
              obtain ⟨hunbroken, upload', hthere, hclient', hkey', hbefore, hwhole⟩ := hresult
              rw [hfailure] at hunbroken
              refine ⟨hunbroken, upload', hu'.1 uploadId upload' hthere hclient', hclient', hkey',
                fun n hn => ?_, ?_⟩
              · rw [hbefore n (Nat.lt_succ_of_lt hn),
                  Upload.receive_parts_of_ne _ _ _ (Nat.ne_of_lt hn)]
              · have hlast := hbefore number (Nat.lt_succ_self number)
                rw [Upload.receive_parts_self] at hlast
                have hmore : reader.bytes ≠ [] := by
                  rintro hnil
                  rw [hnil, List.take_nil] at hbuffer
                  exact hbuffer rfl
                rw [Upload.contents]
                dsimp only
                rw [hlast]
                dsimp only
                rw [Option.getD_some, if_pos rfl, hwhole, hbytes, Option.map_some,
                  partsOf_of_ne_nil hpositive hmore]

variable [Clock (Program S3Request.Response)] {now : DateTime}
  (hclock : Clock.utcNow = (.done now : Program S3Request.Response DateTime))

include hclock

omit hsend in
/-- Reading the clock takes no request. -/
theorem secure_stamped {α : Type} {post : α → Vault ι → Prop}
    {f : DateTime → Fallible (Program S3Request.Response) α}
    (h : SecureCall initial offered i post (f now) v) :
    SecureCall initial offered i post (perform Clock.utcNow >>= f) v := by
  rw [hclock]
  exact h

theorem secure_putObject {content : Bytes} (hoffered : offered key content) :
    SecureCall initial offered i (fun _ w => (key, content) ∈ w.stored)
      (self.putObject key content) v := by
  rw [putObject, S3BlobStore.request, hsend]
  refine TrySecure.request_map fun w _ hgood r w' hanswer => ?_
  obtain ⟨hgood', hkeeps⟩ := Vault.Answers.safe hanswer hgood fun output u hcarries => by
    cases hcarries
    exact ⟨hgood.store hoffered, .store w key content⟩
  refine ⟨hgood', hkeeps, fun eTag hr => secure_stamped hclock (.pure fun u hu _ => ?_)⟩
  rw [requestError_ok hr] at hanswer
  have hcarries := Vault.Answers.carries hanswer
  cases hcarries
  exact hu.2 _ List.mem_cons_self

theorem secure_completeMultipart {upload : Upload ι} {parts : List CompletedPart}
    {contents : List Bytes} {content : Bytes} (totalSize : Nat)
    (hmine : v.uploads uploadId = some upload) (hclient : upload.client = i)
    (hcontents : upload.contents parts = some contents) (hwhole : contents.flatten = content)
    (hoffered : offered key content) :
    SecureCall initial offered i (fun _ w => (key, content) ∈ w.stored)
      (self.completeMultipart key uploadId parts totalSize) v := by
  rw [completeMultipart, S3BlobStore.request, hsend]
  refine TrySecure.request_map fun w hw hgood r w' hanswer => ?_
  have hstill := hw.1 uploadId upload hmine hclient
  have hcarried : ∀ output u, w.Carries i (.completeMultipartUpload key uploadId parts) output u →
      u = (w.discard uploadId).store key content := by
    intro output u hcarries
    obtain ⟨contents', hcontents', rfl⟩ := hcarries.completeMultipartUpload_inv hstill
    rw [hcontents] at hcontents'
    cases hcontents'
    rw [hwhole]
  obtain ⟨hgood', hkeeps⟩ := Vault.Answers.safe hanswer hgood fun output u hcarries => by
    rw [hcarried output u hcarries]
    have hdiscard : (w.discard uploadId).Sound initial offered :=
      hgood.of_stored rfl fun _ _ h => h
    exact ⟨hdiscard.store hoffered, .trans (.update hstill hclient none) (.store _ key _)⟩
  refine ⟨hgood', hkeeps, fun eTag hr => secure_stamped hclock (.pure fun u hu _ => ?_)⟩
  rw [requestError_ok hr] at hanswer
  have hstored := hcarried eTag w' (Vault.Answers.carries hanswer)
  subst hstored
  exact hu.2 _ List.mem_cons_self

omit [Clock (Program S3Request.Response)] hclock in
theorem secure_startMultipart :
    SecureCall initial offered i
      (fun uploadId w => w.uploads uploadId = some { client := i, key, parts := fun _ => none })
      (self.startMultipart key) v := by
  rw [startMultipart, S3BlobStore.request, hsend]
  refine TrySecure.request_map fun w _ hgood r w' hanswer => ?_
  obtain ⟨hgood', hkeeps⟩ := Vault.Answers.safe hanswer hgood fun output u hcarries => by
    obtain ⟨uploadId, _, hfresh, rfl⟩ := hcarries.createMultipartUpload_inv
    exact ⟨hgood.start key uploadId, .start hfresh key⟩
  refine ⟨hgood', hkeeps, fun output hr => ?_⟩
  rw [requestError_ok hr] at hanswer
  obtain ⟨uploadId, rfl, _, rfl⟩ := (Vault.Answers.carries hanswer).createMultipartUpload_inv
  exact .pure fun u hu _ => hu.1 uploadId _ (w.start_uploads_self key uploadId i) rfl

theorem secure_uploadMultipart {reader : Reader} (hv : v.Sound initial offered)
    (hoffered : reader.failure = none → offered key reader.bytes) :
    SecureCall initial offered i
      (fun _ w => reader.failure = none ∧ (key, reader.bytes) ∈ w.stored)
      (self.uploadMultipart key reader) v := by
  refine (secure_startMultipart hsend).bind (fun uploadId w hgood hmine => ?_) hv
  have hparts := secure_uploadParts hsend 1 reader hgood hmine rfl rfl
  refine hparts.bind (fun result u _ hresult => ?_) hgood
  obtain ⟨hunbroken, upload, hthere, hclient, _, _, hcontents⟩ := hresult
  exact (secure_completeMultipart hsend hclock result.2 hthere hclient hcontents
    (flatten_chunks _ reader.bytes) (hoffered hunbroken)).mono
      fun _ _ _ hstored => ⟨hunbroken, hstored⟩

theorem secure_putBlobs {blobs : List BlobInput} (hv : v.Sound initial offered)
    (hoffered : ∀ blob ∈ blobs, blob.data.failure = none →
      offered blob.key blob.data.bytes) :
    SecureCall initial offered i (fun _ w => ∀ blob ∈ blobs, w.HasStored blob)
      (self.putBlobs blobs) v := by
  induction blobs generalizing v with
  | nil => exact .pure fun _ _ _ => List.forall_mem_nil _
  | cons blob rest ih =>
      rw [List.forall_mem_cons] at hoffered
      rw [putBlobs]
      cases hfill : fillLookahead [] blob.data with
      | error e => exact .throw _
      | ok filled =>
          obtain ⟨lookahead, reader⟩ := filled
          obtain ⟨hfailure, hbytes, hend⟩ := fillLookahead_ok hfill
          rw [List.nil_append] at hbytes
          have hrest : ∀ info w, w.Sound initial offered → w.HasStored blob →
              SecureCall initial offered i (fun _ u => ∀ other ∈ blob :: rest, u.HasStored other)
                (do
                  let others ← self.putBlobs rest
                  pure (info :: others)) w := by
            intro info w hgood hstored
            have hothers := (ih hgood hoffered.2).frame (J := fun u => u.HasStored blob)
              (fun _ _ hu h => h.mono hu.2) (fun _ _ hu h => h.mono hu.2) hstored
            refine hothers.bind (fun infos u _ hboth => .pure fun u' hu' _ => ?_) hgood
            rw [List.forall_mem_cons]
            exact ⟨hboth.2.mono hu'.2, fun other hother => (hboth.1 other hother).mono hu'.2⟩
          dsimp only
          split
          · next hshort =>
              obtain ⟨hnothing, hunbroken⟩ := hend hshort
              rw [hnothing, List.append_nil] at hbytes
              rw [hbytes]
              exact (secure_putObject hsend hclock (hoffered.1 hunbroken)).bind
                (fun info w hgood hstored => hrest info w hgood ⟨hunbroken, hstored⟩) hv
          · have hchain : (Reader.chain lookahead reader).failure = blob.data.failure := hfailure
            have hwhole : (Reader.chain lookahead reader).bytes = blob.data.bytes := hbytes
            refine TrySecure.bind (secure_uploadMultipart hsend hclock hv ?_)
              (fun info w hgood hstored => hrest info w hgood ?_) hv
            · rw [hchain, hwhole]
              exact hoffered.1
            · rw [hchain, hwhole] at hstored
              exact hstored

theorem secure_put {blobs : List BlobInput} (hv : v.Sound initial offered)
    (hoffered : ∀ blob ∈ blobs, blob.data.failure = none →
      offered blob.key blob.data.bytes) :
    SecureCall initial offered i (fun _ w => ∀ blob ∈ blobs, w.HasStored blob)
      (self.put blobs) v :=
  secure_checkKeys ((secure_putBlobs hsend hclock hv hoffered).bind
    (fun _ _ _ hstored => .pure fun _ hu _ => fun blob hblob => (hstored blob hblob).mono hu.2) hv)

end Put

section Clients

variable {initial : PlainMap} {offered : Key → Bytes → Prop} {i : ι} {v : Vault ι}

theorem S3Outcome.Truthful.mono {whole : Key → Bytes → Prop} {w : Vault ι} {outcome : S3Outcome}
    (h : outcome.Truthful whole v) (hstored : ∀ entry ∈ v.stored, entry ∈ w.stored) :
    outcome.Truthful whole w := by
  cases outcome with
  | put blobs result =>
      cases result with
      | error e => trivial
      | ok _ => exact fun blob hblob => (h blob hblob).mono hstored
  | get key result | getWithMetadata key result =>
      cases result with
      | error e => trivial
      | ok _ => exact h
  | existsBlob | delete | list | listWithMetadata => trivial

/-- A harmless call is secure, and what it returns is as the responses tell. -/
theorem secure_of_harmless {whole : Key → Bytes → Prop} {α : Type} {post : α → Prop}
    {x : Fallible (Program S3Request.Response) α}
    (hwhole : ∀ key content, whole key content ↔ initial key = some content ∨ offered key content)
    (h : HarmlessCall whole post x) :
    SecureCall initial offered i (fun a _ => post a) x v := by
  refine TrySecure.of_within h fun q hq w hw r w' hanswer => ?_
  obtain ⟨hgood, hkeeps, htells⟩ := Vault.Answers.harmless hanswer hq hw
  refine ⟨hgood, hkeeps, ?_⟩
  cases q with
  | getObject key =>
      cases r with
      | ok output => exact fun hunbroken => (hwhole _ _).mpr (htells hunbroken)
      | error e => trivial
  | _ => trivial

variable (bucket : String) (client : S3Client)

theorem secure_performCall {whole : Key → Bytes → Prop} (call : S3Call)
    (hv : v.Sound initial offered)
    (hwhole : ∀ key content, whole key content ↔ initial key = some content ∨ offered key content)
    (hoffered : ∀ blobs, call = .put blobs → ∀ blob ∈ blobs, blob.data.failure = none →
      offered blob.key blob.data.bytes) :
    Secure (sharing initial offered i) (fun outcome w => outcome.Truthful whole w)
      (client.performCall bucket call) v := by
  have hsend : (client.store bucket).send = ask := rfl
  cases call with
  | put blobs =>
      refine Secure.bind (@secure_put ι initial offered i v (client.store bucket) hsend client.clock
        client.now rfl blobs hv (hoffered blobs rfl)) (fun result w _ hresult => ?_) hv
      refine fun u hu _ => ?_
      cases result with
      | error e => trivial
      | ok infos => exact fun blob hblob => (hresult infos rfl blob hblob).mono hu.2
  | get key =>
      refine Secure.bind (secure_of_harmless hwhole (harmless_get hsend key))
        (fun result w _ hresult => fun _ _ _ => ?_) hv
      cases result with
      | error e => trivial
      | ok reader => exact hresult reader rfl
  | getWithMetadata key =>
      refine Secure.bind (secure_of_harmless hwhole (harmless_getWithMetadata hsend key))
        (fun result w _ hresult => fun _ _ _ => ?_) hv
      cases result with
      | error e => trivial
      | ok pair => exact hresult pair rfl
  | existsBlob key =>
      exact Secure.bind (secure_of_harmless hwhole (harmless_existsBlob hsend key))
        (fun _ _ _ _ _ _ _ => trivial) hv
  | delete keys =>
      exact Secure.bind (secure_of_harmless hwhole (harmless_delete hsend keys))
        (fun _ _ _ _ _ _ _ => trivial) hv
  | list filter =>
      exact Secure.bind (secure_of_harmless hwhole (harmless_list hsend filter))
        (fun _ _ _ _ _ _ _ => trivial) hv
  | listWithMetadata filter =>
      exact Secure.bind (secure_of_harmless hwhole (harmless_listWithMetadata hsend filter))
        (fun _ _ _ _ _ _ _ => trivial) hv

theorem secure_performEach {whole : Key → Bytes → Prop} (calls : List S3Call)
    (hv : v.Sound initial offered)
    (hwhole : ∀ key content, whole key content ↔ initial key = some content ∨ offered key content)
    (hoffered : ∀ blobs, .put blobs ∈ calls → ∀ blob ∈ blobs, blob.data.failure = none →
      offered blob.key blob.data.bytes) :
    Secure (sharing initial offered i)
      (fun outcomes w => ∀ outcome ∈ outcomes, outcome.Truthful whole w)
      (client.performEach bucket calls) v := by
  induction calls generalizing v with
  | nil => exact fun _ _ _ => List.forall_mem_nil _
  | cons call rest ih =>
      refine Secure.bind (secure_performCall bucket client call hv hwhole fun blobs hcall =>
        hoffered blobs (hcall ▸ List.mem_cons_self)) (fun outcome w hw houtcome => ?_) hv
      have hothers := (ih hw fun blobs hmem => hoffered blobs (List.mem_cons_of_mem _ hmem)).frame
        (J := fun u => outcome.Truthful whole u)
        (fun _ _ hu h => h.mono hu.2) (fun _ _ hu h => h.mono hu.2) houtcome
      refine hothers.bind (fun outcomes u _ hboth => fun u' hu' _ => ?_) hw
      rw [List.forall_mem_cons]
      exact ⟨hboth.2.mono hu'.2, fun other hother => (hboth.1 other hother).mono hu'.2⟩

variable [DecidableEq ι]

/-- Whatever any number of clients call, however their requests interleave, whatever the service
refuses and whichever answers are lost, and wherever it all stops: every object of the bucket is a
whole blob under its own key. Every batch whose put has returned `Ok` has been stored blob by
blob, and every stream that a call has returned yields a whole blob if it does not break off. -/
theorem objects_never_torn (bucket : String) (clients : ι → S3Client) (objects : PlainMap)
    (uploads : String → Option (Upload ι)) {history : List (Event ι S3Request.Response)}
    {pool : ι → Program S3Request.Response (List S3Outcome)} {v : Vault ι}
    (h : Served (fun i v q r w => v.Answers i q r w) (fun i => (clients i).run bucket)
      (.holding objects uploads) history pool v) :
    (∀ key content, v.objects key = some content → WholeBlob objects clients key content) ∧
      ∀ i outcomes, pool i = .done outcomes →
        ∀ outcome ∈ outcomes, outcome.Truthful (WholeBlob objects clients) v := by
  have hstart : (Vault.holding objects uploads).Sound objects (Offered clients) :=
    ⟨fun _ _ hobject => .inl hobject, fun _ _ hmem => absurd hmem List.not_mem_nil⟩
  have hrun : ∀ i, Secure (sharing objects (Offered clients) i)
      (fun outcomes w => ∀ outcome ∈ outcomes,
        outcome.Truthful (WholeBlob objects clients) w)
      ((clients i).run bucket) (.holding objects uploads) := by
    intro i
    exact secure_performEach bucket (clients i) _ hstart (fun _ _ => Iff.rfl)
      fun blobs hcall blob hblob hunbroken => ⟨i, blobs, blob, hcall, hblob, rfl, hunbroken, rfl⟩
  obtain ⟨hsound, hsecure⟩ := Served.rule (D := sharing objects (Offered clients)) h
    (fun _ _ _ _ _ hanswer => hanswer) (fun _ _ => Iff.rfl) (fun i j v w hne hallowed =>
      ⟨fun id upload hupload hclient =>
        hallowed.1 id upload hupload (hclient ▸ Ne.symm hne), hallowed.2⟩) hstart hrun
  refine ⟨fun key content hobject => ?_, fun i outcomes hdone => ?_⟩
  · exact (hsound.objects key content hobject).imp_right (hsound.stored key content)
  · have hi := hsecure i
    rw [hdone] at hi
    exact hi v ((sharing objects (Offered clients) i).refl v) hsound

/-- One client puts a blob, the other one reads it. -/
def sampleClients : Bool → S3Client
  | true => ⟨0, 1, 0, [.put [.new ['k'] (.ofBytes [1, 2, 3])]]⟩
  | false => ⟨0, 1, 0, [.get ['k']]⟩

/-- The put of a short blob begins with the request that stores it. -/
theorem putBlobs_short [Clock (Program S3Request.Response)]
    (self : S3BlobStore (Program S3Request.Response)) {blob : BlobInput}
    (hunbroken : blob.data.failure = none)
    (hshort : blob.data.bytes.length < minMultipartPartSize) (rest : List BlobInput) :
    self.putBlobs (blob :: rest) = (do
      let info ← self.putObject blob.key blob.data.bytes
      let others ← self.putBlobs rest
      pure (info :: others)) := by
  obtain ⟨lookahead, reader, hfill, _, hwhole, hend⟩ :=
    @fillLookahead_of_unbroken [] blob.data hunbroken
  rw [List.nil_append] at hwhole
  have hless : lookahead.length < minMultipartPartSize := by
    rw [← hwhole, List.length_append] at hshort
    omega
  rw [hend hless, List.append_nil] at hwhole
  rw [putBlobs, hfill]
  dsimp only
  rw [if_pos hless, hwhole]

theorem sampleClients_put : ∃ next, (sampleClients true).run "b" =
    .request (.putObject ['k'] [1, 2, 3]) next := by
  have hblobs := @putBlobs_short (sampleClients true).clock ((sampleClients true).store "b")
    (.new ['k'] (.ofBytes [1, 2, 3])) rfl (by decide) []
  change ∃ next, (sampleClients true).performEach "b" [.put [.new ['k'] (.ofBytes [1, 2, 3])]] = _
  rw [S3Client.performEach, S3Client.performCall, S3BlobStore.put, hblobs]
  exact ⟨_, rfl⟩

/-- The put is carried out but its client does not hear of it; the other one then reads what was
put. -/
theorem objects_never_torn_lost : ∃ history pool v,
    Served (fun i v q r w => Vault.Answers v i q r w) (fun i => (sampleClients i).run "b")
      (.holding (fun _ => none) fun _ => none) history pool v ∧
    v.objects ['k'] = some [1, 2, 3] ∧
    (∀ key content, v.objects key = some content →
      WholeBlob (fun _ => none) sampleClients key content) ∧
    ∀ i outcomes, pool i = .done outcomes →
      ∀ outcome ∈ outcomes, outcome.Truthful (WholeBlob (fun _ => none) sampleClients) v := by
  obtain ⟨next, hnext⟩ := sampleClients_put
  have hstart : Served (fun i v q r w => Vault.Answers v i q r w)
      (fun i => (sampleClients i).run "b") (.holding (fun _ => none) fun _ => none) []
      (fun i => (sampleClients i).run "b") (.holding (fun _ => none) fun _ => none) := .start
  have hput := hstart.step (i := true) (.error ⟨none⟩) hnext (.lost _ (.putObject _ _ none))
  have hget := Served.step (i := false) (.ok
    { body := .ofBytes [1, 2, 3], contentLength := none, eTag := none, lastModified := none })
    hput rfl (.carried (.getObject _ rfl (.inl ⟨rfl, rfl⟩)))
  exact ⟨_, _, _, hget, rfl, objects_never_torn "b" sampleClients _ _ hget⟩

end Clients

end BlobStorage
