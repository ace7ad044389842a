import BlobStorage.Backend.S3
import BlobStorage.Refinement.Contract

/-!
# What an object service does

The objects of a bucket, the uploads that have begun, and what each request does to them when the
service carries it out. An object appears in one step: with the request that puts it, or with the
one that completes its upload. What the service answers says little about what it did: it may
refuse a request, and the answer to a request that it carried out may be lost.
-/

namespace BlobStorage

open Fallible

/-- An upload that has begun, and the parts it has got with their tags. That it belongs to a
client is not known to the service. -/
structure Upload (ι : Type) where
  client : ι
  key : Key
  parts : Nat → Option (Bytes × String)

/-- The objects and uploads of a bucket, and all the objects that it has stored, latest first. -/
structure Vault (ι : Type) where
  objects : PlainMap
  uploads : String → Option (Upload ι)
  stored : List (Key × Bytes)

namespace Upload

variable {ι : Type}

def receive (upload : Upload ι) (number : Nat) (content : Bytes) (tag : String) : Upload ι :=
  { upload with parts := Function.update upload.parts number (some (content, tag)) }

/-- The contents of the listed parts, if the upload has them all under these tags. -/
def contents (upload : Upload ι) : List CompletedPart → Option (List Bytes)
  | [] => some []
  | part :: rest =>
      match upload.parts part.partNumber with
      | none => none
      | some (content, tag) =>
          if tag = part.eTag then (contents upload rest).map (content :: ·) else none

@[simp] theorem receive_client (upload : Upload ι) (number : Nat) (content : Bytes)
    (tag : String) : (upload.receive number content tag).client = upload.client := rfl

@[simp] theorem receive_key (upload : Upload ι) (number : Nat) (content : Bytes)
    (tag : String) : (upload.receive number content tag).key = upload.key := rfl

@[simp] theorem receive_parts_self (upload : Upload ι) (number : Nat) (content : Bytes)
    (tag : String) :
    (upload.receive number content tag).parts number = some (content, tag) :=
  Function.update_self ..

theorem receive_parts_of_ne (upload : Upload ι) {number other : Nat} (content : Bytes)
    (tag : String) (h : other ≠ number) :
    (upload.receive number content tag).parts other = upload.parts other :=
  Function.update_of_ne h ..

end Upload

namespace Vault

variable {ι : Type}

def store (v : Vault ι) (key : Key) (content : Bytes) : Vault ι :=
  { v with
    objects := Function.update v.objects key (some content)
    stored := (key, content) :: v.stored }

def remove (v : Vault ι) (keys : List Key) : Vault ι :=
  { v with objects := KeyMap.removeAll v.objects keys }

def replace (v : Vault ι) (uploadId : String) (upload : Upload ι) : Vault ι :=
  { v with uploads := Function.update v.uploads uploadId (some upload) }

def start (v : Vault ι) (uploadId : String) (client : ι) (key : Key) : Vault ι :=
  v.replace uploadId { client, key, parts := fun _ => none }

def receive (v : Vault ι) (uploadId : String) (upload : Upload ι) (number : Nat)
    (content : Bytes) (tag : String) : Vault ι :=
  v.replace uploadId (upload.receive number content tag)

def discard (v : Vault ι) (uploadId : String) : Vault ι :=
  { v with uploads := Function.update v.uploads uploadId none }

/-- The objects are stored one after another. -/
def storeAll (v : Vault ι) (entries : List (Key × Bytes)) : Vault ι :=
  entries.foldl (fun v entry => v.store entry.1 entry.2) v

section Frames

variable (v : Vault ι) (key : Key) (content : Bytes) (keys : List Key) (uploadId tag : String)
  (client : ι) (upload : Upload ι) (number : Nat)

@[simp] theorem store_uploads : (v.store key content).uploads = v.uploads := rfl
@[simp] theorem store_stored : (v.store key content).stored = (key, content) :: v.stored := rfl
@[simp] theorem remove_uploads : (v.remove keys).uploads = v.uploads := rfl
@[simp] theorem remove_stored : (v.remove keys).stored = v.stored := rfl
@[simp] theorem start_objects : (v.start uploadId client key).objects = v.objects := rfl
@[simp] theorem start_stored : (v.start uploadId client key).stored = v.stored := rfl
@[simp] theorem receive_objects :
    (v.receive uploadId upload number content tag).objects = v.objects := rfl
@[simp] theorem receive_stored :
    (v.receive uploadId upload number content tag).stored = v.stored := rfl
@[simp] theorem discard_objects : (v.discard uploadId).objects = v.objects := rfl
@[simp] theorem discard_stored : (v.discard uploadId).stored = v.stored := rfl

theorem start_uploads_self :
    (v.start uploadId client key).uploads uploadId =
      some { client, key, parts := fun _ => none } := Function.update_self ..

theorem receive_uploads_self :
    (v.receive uploadId upload number content tag).uploads uploadId =
      some (upload.receive number content tag) := Function.update_self ..

theorem storeAll_cons (entry : Key × Bytes) (entries : List (Key × Bytes)) :
    v.storeAll (entry :: entries) = (v.store entry.1 entry.2).storeAll entries := rfl

theorem storeAll_objects (entries : List (Key × Bytes)) :
    (v.storeAll entries).objects = KeyMap.insertAll v.objects entries := by
  induction entries generalizing v with
  | nil => rfl
  | cons entry rest ih => exact ih (v.store entry.1 entry.2)

theorem storeAll_uploads (entries : List (Key × Bytes)) :
    (v.storeAll entries).uploads = v.uploads := by
  induction entries generalizing v with
  | nil => rfl
  | cons entry rest ih => exact ih (v.store entry.1 entry.2)

theorem replace_self (h : v.uploads uploadId = some upload) : v.replace uploadId upload = v := by
  rw [replace, ← h, Function.update_eq_self]

theorem replace_replace (other : Upload ι) :
    (v.replace uploadId upload).replace uploadId other = v.replace uploadId other := by
  rw [replace, replace, replace, Function.update_idem]

theorem discard_replace : (v.replace uploadId upload).discard uploadId = v.discard uploadId := by
  rw [discard, replace, discard, Function.update_idem]

/-- An upload that is gone again was never there. -/
theorem discard_of_fresh (h : v.uploads uploadId = none) : v.discard uploadId = v := by
  rw [discard, ← h, Function.update_eq_self]

variable {v key content}

theorem objects_of_store {stored : Key} {body : Bytes}
    (h : (v.store stored body).objects key = some content) :
    v.objects key = some content ∨ (key, content) ∈ (v.store stored body).stored := by
  change Function.update v.objects stored (some body) key = some content at h
  by_cases hsame : key = stored
  · subst hsame
    rw [Function.update_self] at h
    cases h
    exact .inr List.mem_cons_self
  · rw [Function.update_of_ne hsame] at h
    exact .inl h

theorem objects_of_remove {gone : List Key}
    (h : (v.remove gone).objects key = some content) : v.objects key = some content := by
  change KeyMap.removeAll v.objects gone key = some content at h
  by_cases hgone : key ∈ gone
  · rw [KeyMap.removeAll_of_mem hgone] at h
    cases h
  · rw [KeyMap.removeAll_of_not_mem hgone] at h
    exact h

end Frames

end Vault

/-- What the body of an object yields. The connection may break before its end. -/
def Delivers (content : Bytes) (reader : Reader) : Prop :=
  reader.failure = none ∧ reader.bytes = content ∨
    reader.failure ≠ none ∧ reader.bytes <+: content

/-- What the service does with the request of a client when it carries it out, and what it
answers. A deletion may leave some of its keys where they are. -/
inductive Vault.Carries {ι : Type} (v : Vault ι) (i : ι) :
    (q : S3Request) → q.Output → Vault ι → Prop where
  | putObject (key : Key) (body : Bytes) (eTag : Option String) :
      v.Carries i (.putObject key body) eTag (v.store key body)
  | getObject {key : Key} {content : Bytes} (output : GetObjectOutput)
      (there : v.objects key = some content) (delivers : Delivers content output.body) :
      v.Carries i (.getObject key) output v
  | headObject {key : Key} (there : v.objects key ≠ none) :
      v.Carries i (.headObject key) () v
  | deleteObjects {keys gone : List Key} (output : DeleteObjectsOutput)
      (asked : ∀ key ∈ gone, key ∈ keys) (told : ∀ key, some key ∈ output.deleted → key ∈ gone) :
      v.Carries i (.deleteObjects keys) output (v.remove gone)
  | listObjectsV2 {start : Option Key} {token : Option String} (output : ListObjectsOutput)
      (there : ∀ object ∈ output.contents, ∀ key, object.key = some key → v.objects key ≠ none) :
      v.Carries i (.listObjectsV2 start token) output v
  | createMultipartUpload (key : Key) {uploadId : String} (fresh : v.uploads uploadId = none) :
      v.Carries i (.createMultipartUpload key) (some uploadId) (v.start uploadId i key)
  | uploadPart {uploadId : String} {upload : Upload ι} (number : Nat) (body : Bytes)
      (tag : String) (begun : v.uploads uploadId = some upload) :
      v.Carries i (.uploadPart upload.key uploadId number body) (some tag)
        (v.receive uploadId upload number body tag)
  | completeMultipartUpload {uploadId : String} {upload : Upload ι} {parts : List CompletedPart}
      {contents : List Bytes} (eTag : Option String) (begun : v.uploads uploadId = some upload)
      (whole : upload.contents parts = some contents) :
      v.Carries i (.completeMultipartUpload upload.key uploadId parts) eTag
        ((v.discard uploadId).store upload.key contents.flatten)
  | abortMultipartUpload {uploadId : String} {upload : Upload ι}
      (begun : v.uploads uploadId = some upload) :
      v.Carries i (.abortMultipartUpload upload.key uploadId) () (v.discard uploadId)

/-- What can come of a request: it is carried out, it is refused, or it is carried out and the
answer is lost. -/
inductive Vault.Answers {ι : Type} (v : Vault ι) (i : ι) (q : S3Request) :
    q.Response → Vault ι → Prop where
  | carried {output : q.Output} {v' : Vault ι} (carries : v.Carries i q output v') :
      v.Answers i q (.ok output) v'
  | refused (e : SdkError) : v.Answers i q (.error e) v
  | lost (e : SdkError) {output : q.Output} {v' : Vault ι} (carries : v.Carries i q output v') :
      v.Answers i q (.error e) v'

namespace Vault.Carries

variable {ι : Type} {v w : Vault ι} {i : ι} {key : Key} {uploadId : String} {upload : Upload ι}

theorem putObject_inv {body : Bytes} {eTag : Option String}
    (h : v.Carries i (.putObject key body) eTag w) : w = v.store key body := by
  cases h with
  | putObject => rfl

theorem deleteObjects_inv {keys : List Key} {output : DeleteObjectsOutput}
    (h : v.Carries i (.deleteObjects keys) output w) :
    ∃ gone, (∀ key ∈ gone, key ∈ keys) ∧ w = v.remove gone := by
  cases h with
  | deleteObjects output asked told => exact ⟨_, asked, rfl⟩

theorem createMultipartUpload_inv {output : Option String}
    (h : v.Carries i (.createMultipartUpload key) output w) :
    ∃ uploadId, output = some uploadId ∧ v.uploads uploadId = none ∧
      w = v.start uploadId i key := by
  cases h with
  | createMultipartUpload _ fresh => exact ⟨_, rfl, fresh, rfl⟩

theorem abortMultipartUpload_inv {output : Unit}
    (h : v.Carries i (.abortMultipartUpload key uploadId) output w) :
    w = v.discard uploadId := by
  cases h with
  | abortMultipartUpload begun' => rfl

section Begun

variable (begun : v.uploads uploadId = some upload)

include begun

theorem uploadPart_inv {number : Nat} {body : Bytes} {output : Option String}
    (h : v.Carries i (.uploadPart key uploadId number body) output w) :
    ∃ tag, output = some tag ∧ w = v.receive uploadId upload number body tag := by
  cases h with
  | uploadPart _ _ tag begun' =>
      rw [begun] at begun'
      cases begun'
      exact ⟨tag, rfl, rfl⟩

theorem completeMultipartUpload_inv {parts : List CompletedPart}
    {output : Option String}
    (h : v.Carries i (.completeMultipartUpload key uploadId parts) output w) :
    ∃ contents, upload.contents parts = some contents ∧
      w = (v.discard uploadId).store key contents.flatten := by
  cases h with
  | completeMultipartUpload _ begun' whole =>
      rw [begun] at begun'
      cases begun'
      exact ⟨_, whole, rfl⟩

end Begun

end Vault.Carries

end BlobStorage
