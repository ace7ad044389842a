import BlobStorage.Stack
import BlobStorage.Library.KeyMap

/-!
# The contract of a store that implements a map

What a store is for: `Holds s M` says that in state `s` the store implements the
map `M` from keys to bytes, and each method must act on states as the operation of
`KeyMap` acts on maps. A method may change the state in ways that do not show; what
is promised is that the map is the one it should be.

`Keeps s t` is the assumption shared by a whole stack: a step of an encryption
provider from `s` to `t` leaves alone what the stores look at.
-/

namespace BlobStorage

open Fallible

abbrev PlainMap := Key → Option Bytes

/-- The entries a batch writes. -/
def entriesOf (blobs : List BlobInput) : List (Key × Bytes) :=
  blobs.map fun blob => (blob.key, blob.data.bytes)

/-- `Admits key` is the promise of callers: every layer below accepts the key and
the keys it derives from it. -/
structure MapContract {σ : Type} (Keeps : σ → σ → Prop) (store : BlobStore (StateM σ))
    (Admits : Key → Prop) (Holds : σ → PlainMap → Prop) : Prop where
  keeps : ∀ {s t M}, Keeps s t → Holds s M → Holds t M
  admitted : ∀ {s M key}, Holds s M → M key ≠ none → Admits key
  put : ∀ {s t M blobs result}, Holds s M →
    (∀ blob ∈ blobs, Admits blob.key) →
    exec (store.put blobs) s = (.ok result, t) →
    Holds t (KeyMap.insertAll M (entriesOf blobs)) ∧
      result.blobs.map BlobMeta.key = blobs.map BlobInput.key
  get_some : ∀ {s M key content}, Holds s M → Admits key → M key = some content →
    ∃ reader t, exec (store.get key) s = (.ok reader, t) ∧ Holds t M ∧
      reader.bytes = content ∧ reader.failure = none
  get_none : ∀ {s M key}, Holds s M → Admits key → M key = none →
    ∃ t, exec (store.get key) s = (.error (.notFound key), t) ∧ Holds t M
  delete : ∀ {s M keys}, Holds s M → (∀ key ∈ keys, Admits key) →
    ∃ t, exec (store.delete keys) s = (.ok (), t) ∧ Holds t (KeyMap.removeAll M keys)
  existsBlob : ∀ {s M key}, Holds s M → Admits key →
    ∃ t, exec (store.existsBlob key) s = (.ok (M key).isSome, t) ∧ Holds t M
  list : ∀ {s M filter}, Holds s M → filter.SoundHint → filter.MetadataIndependent →
    ∃ keys t, exec (store.list filter) s = (.ok keys, t) ∧ Holds t M ∧
      KeyMap.IsListing M (fun key => filter.matchesBlob key none = true) keys

/-- A provider whose `decrypt_stream` undoes its `encrypt_stream`. -/
structure LawfulProvider {σ : Type} (Keeps : σ → σ → Prop)
    (provider : EncryptionProvider (StateM σ)) : Prop where
  encrypt_keeps : ∀ s reader, Keeps s (provider.encryptStream reader s).2
  decrypt_keeps : ∀ s reader header, Keeps s (provider.decryptStream reader header s).2
  inverse : ∀ {s : σ} {reader : Reader} {header : Bytes},
    (provider.encryptStream reader s).1.outcome = .header header →
    ∀ (t : σ) (encData : Reader), encData.failure = none →
      encData.bytes = (provider.encryptStream reader s).1.written →
      (provider.decryptStream encData header t).1.Yields reader.bytes

@[simp] theorem entriesOf_nil : entriesOf [] = [] := rfl

@[simp] theorem entriesOf_cons (blob : BlobInput) (rest : List BlobInput) :
    entriesOf (blob :: rest) = (blob.key, blob.data.bytes) :: entriesOf rest := rfl

theorem entriesOf_keys (blobs : List BlobInput) :
    (entriesOf blobs).map Prod.fst = blobs.map BlobInput.key := by
  simp [entriesOf, Function.comp_def]

section Checks

variable {σ : Type} {s t : σ}

/-- A check that went through left the state alone. -/
theorem exec_checkKey_eq_ok {key : Key}
    (h : exec (checkKey key : Fallible (StateM σ) Unit) s = (.ok (), t)) :
    ValidKey key ∧ t = s := by
  by_cases hv : ValidKey key
  · rw [exec_checkKey_of_valid s hv] at h
    exact ⟨hv, (Prod.mk.inj h).2.symm⟩
  · obtain ⟨e, _, he⟩ := exec_checkKey_of_not_valid s hv
    rw [he] at h
    cases h

end Checks

end BlobStorage
