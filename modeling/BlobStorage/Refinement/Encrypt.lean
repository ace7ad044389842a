import BlobStorage.Encrypt.Store
import BlobStorage.Refinement.Contract

/-!
# The encrypted layer keeps the contract

Over a store that implements `M`, the encrypted layer implements the keys that have
both objects, each standing for what the pair decrypts to. The reserved suffix keeps
the data objects of one key apart from the header objects of another.
-/

namespace BlobStorage

open Fallible

variable {σ : Type}

/-- At whatever state it is tried, decrypting the pair yields the plaintext. -/
def EncryptionProvider.Decrypts (provider : EncryptionProvider (StateM σ))
    (ciphertext header plaintext : Bytes) : Prop :=
  ∀ (t : σ) (encData : Reader), encData.failure = none → encData.bytes = ciphertext →
    (provider.decryptStream encData header t).1.Yields plaintext

namespace EncryptedBlobStore

section ExecEncrypted

variable {self : EncryptedBlobStore (StateM σ)}

theorem exec_checkNoHeaderCollision {key : Key} (h : ¬self.headerSuffix <:+ key) (s : σ) :
    exec (self.checkNoHeaderCollision key) s = (.ok (), s) := by
  rw [checkNoHeaderCollision, if_neg h]
  rfl

theorem exec_checkNoHeaderCollision_of_suffix {key : Key} (h : self.headerSuffix <:+ key) (s : σ) :
    ∃ e : BlobStorageError, e.IsInvalidInput ∧
      exec (self.checkNoHeaderCollision key) s = (.error e, s) := by
  rw [checkNoHeaderCollision, if_pos h]
  exact ⟨.invalidInput _, trivial, rfl⟩

theorem exec_checkPutKeys {keys : List Key}
    (h : ∀ key ∈ keys, ValidKey key ∧ ¬self.headerSuffix <:+ key ∧ ValidKey (self.headerKey key))
    (s : σ) : exec (self.checkPutKeys keys) s = (.ok (), s) := by
  induction keys with
  | nil => rfl
  | cons key rest ih =>
      rw [List.forall_mem_cons] at h
      obtain ⟨⟨hvalid, hsuffix, hheader⟩, hrest⟩ := h
      rw [checkPutKeys, exec_bind_ok (exec_checkKey_of_valid s hvalid),
        exec_bind_ok (exec_checkNoHeaderCollision hsuffix s),
        exec_bind_ok (exec_checkKey_of_valid s hheader)]
      exact ih hrest

theorem exec_checkDeleteKeys {keys : List Key}
    (h : ∀ key ∈ keys, ¬self.headerSuffix <:+ key) (s : σ) :
    exec (self.checkDeleteKeys keys) s = (.ok (), s) := by
  induction keys with
  | nil => rfl
  | cons key rest ih =>
      rw [List.forall_mem_cons] at h
      rw [checkDeleteKeys, exec_bind_ok (exec_checkNoHeaderCollision h.1 s)]
      exact ih h.2

theorem exec_hideNotFound_ok {α : Type} {key : Key} {x : Fallible (StateM σ) α} {s t : σ} {a : α}
    (h : exec x s = (.ok a, t)) : exec (hideNotFound key x) s = (.ok a, t) := by
  rw [hideNotFound, exec_bind_ok (exec_attempt s x), h]
  rfl

theorem exec_hideNotFound_notFound {α : Type} {key other : Key} {x : Fallible (StateM σ) α}
    {s t : σ} (h : exec x s = (.error (.notFound other), t)) :
    exec (hideNotFound key x) s = (.error (.notFound key), t) := by
  rw [hideNotFound, exec_bind_ok (exec_attempt s x), h]
  rfl

/-- A blob that was stored went through every step: both writes, with the header the
encryption produced in between. -/
theorem exec_putBlob_eq_ok {blob : BlobInput} {s t : σ} {infos : List BlobMeta}
    (h : exec (self.putBlob blob) s = (.ok infos, t)) :
    ∃ result u header headerResult,
      exec (self.inner.put [BlobInput.withSize blob.key
          (self.encryption.encryptStream blob.data s).1.reader (blob.sizeHint.getD 0)])
        (self.encryption.encryptStream blob.data s).2 = (.ok result, u) ∧
      (self.encryption.encryptStream blob.data s).1.outcome = .header header ∧
      exec (self.inner.put [BlobInput.withSize (self.headerKey blob.key)
          (Reader.ofBytes header) header.length]) u = (.ok headerResult, t) ∧
      infos = result.blobs.filter fun info => decide ¬self.headerSuffix <:+ info.key := by
  rw [putBlob, exec_bind_ok (exec_perform s _), exec_bind_eq_ok] at h
  obtain ⟨result, u, hput, h⟩ := h
  cases hresult : (self.encryption.encryptStream blob.data s).1.result blob.key with
  | error e =>
      rw [hresult, exec_bind_ok (exec_attempt u _)] at h
      cases h
  | ok header =>
      rw [hresult, exec_bind_ok (exec_attempt u _)] at h
      refine ⟨result, u, header, ?_⟩
      generalize exec (self.inner.put [BlobInput.withSize (self.headerKey blob.key)
        (Reader.ofBytes header) header.length]) u = written at h ⊢
      obtain ⟨headerResult, v⟩ := written
      cases headerResult with
      | error e =>
          rw [exec_bind_ok (exec_attempt v _)] at h
          cases h
      | ok headerResult =>
          cases h
          exact ⟨headerResult, hput, EncryptRun.result_eq_ok_iff.mp hresult, rfl, rfl⟩

end ExecEncrypted

/-- The keys the layer passes on, with their header keys, to a store that admits
`Admits`. -/
def AdmitsKey (headerSuffix : Key) (Admits : Key → Prop) (key : Key) : Prop :=
  ValidKey key ∧ ¬headerSuffix <:+ key ∧ ValidKey (key ++ headerSuffix) ∧
    Admits key ∧ Admits (key ++ headerSuffix)

/-- The pairs of objects in `M` are the blobs of `L`, and there is nothing else in `M`. -/
structure Paired (provider : EncryptionProvider (StateM σ)) (headerSuffix : Key)
    (Admits : Key → Prop) (M L : PlainMap) : Prop where
  pair : ∀ {key plaintext}, L key = some plaintext → ∃ ciphertext header,
    M key = some ciphertext ∧ M (key ++ headerSuffix) = some header ∧
      provider.Decrypts ciphertext header plaintext
  owned : ∀ {key}, M key ≠ none →
    L key ≠ none ∨ ∃ logical, L logical ≠ none ∧ key = logical ++ headerSuffix
  admitted : ∀ {key}, L key ≠ none → AdmitsKey headerSuffix Admits key

/-- The map the layer implements over a store that `Holds` a map. -/
def HoldsMap (provider : EncryptionProvider (StateM σ)) (headerSuffix : Key)
    (Admits : Key → Prop) (Holds : σ → PlainMap → Prop) (s : σ) (L : PlainMap) : Prop :=
  ∃ M, Holds s M ∧ Paired provider headerSuffix Admits M L

namespace Paired

variable {provider : EncryptionProvider (StateM σ)} {headerSuffix : Key} {Admits : Key → Prop}
  {M L : PlainMap}

/-- A key that is not reserved has a data object exactly when it is a blob. -/
theorem isSome_eq (P : Paired provider headerSuffix Admits M L) {key : Key}
    (hkey : ¬headerSuffix <:+ key) : (M key).isSome = (L key).isSome := by
  cases hL : L key with
  | some plaintext =>
      obtain ⟨ciphertext, header, hdata, _⟩ := P.pair hL
      rw [hdata]
      rfl
  | none =>
      cases hM : M key with
      | none => rfl
      | some content =>
          have hthere : M key ≠ none := by simp [hM]
          rcases P.owned hthere with h | ⟨logical, _, rfl⟩
          · exact absurd hL h
          · exact absurd (List.suffix_append logical headerSuffix) hkey

theorem data_none (P : Paired provider headerSuffix Admits M L) {key : Key}
    (hkey : ¬headerSuffix <:+ key) (hL : L key = none) : M key = none := by
  have h := P.isSome_eq hkey
  rw [hL] at h
  exact Option.isSome_eq_false_iff.mp h |> Option.isNone_iff_eq_none.mp

/-- Writing both objects of a pair writes the blob. -/
theorem update (P : Paired provider headerSuffix Admits M L) {key : Key}
    (hkey : AdmitsKey headerSuffix Admits key) {ciphertext header plaintext : Bytes}
    (hpair : provider.Decrypts ciphertext header plaintext) :
    Paired provider headerSuffix Admits
      (Function.update (Function.update M key (some ciphertext)) (key ++ headerSuffix)
        (some header))
      (Function.update L key (some plaintext)) := by
  have hreserved : ∀ logical, key ≠ logical ++ headerSuffix := by
    rintro logical rfl
    exact hkey.2.1 (List.suffix_append logical headerSuffix)
  constructor
  · intro other content hother
    by_cases hsame : other = key
    · subst hsame
      rw [Function.update_self, Option.some.injEq] at hother
      refine ⟨ciphertext, header, ?_, Function.update_self .., hother ▸ hpair⟩
      rw [Function.update_of_ne (hreserved other), Function.update_self]
    · rw [Function.update_of_ne hsame] at hother
      obtain ⟨c, h, hdata, hheader, hdecrypts⟩ := P.pair hother
      have hthere : L other ≠ none := by simp [hother]
      have hadmitted := P.admitted hthere
      refine ⟨c, h, ?_, ?_, hdecrypts⟩
      · have hne : other ≠ key ++ headerSuffix := by
          rintro rfl
          exact hadmitted.2.1 (List.suffix_append key headerSuffix)
        rw [Function.update_of_ne hne, Function.update_of_ne hsame, hdata]
      · have hne : other ++ headerSuffix ≠ key ++ headerSuffix := by
          intro h
          exact hsame (List.append_cancel_right h)
        rw [Function.update_of_ne hne, Function.update_of_ne (hreserved other).symm, hheader]
  · intro other hother
    by_cases hheader : other = key ++ headerSuffix
    · exact .inr ⟨key, by simp, hheader⟩
    rw [Function.update_of_ne hheader] at hother
    by_cases hdata : other = key
    · exact .inl (by simp [hdata])
    rw [Function.update_of_ne hdata] at hother
    rcases P.owned hother with h | ⟨logical, hlogical, rfl⟩
    · exact .inl (by rwa [Function.update_of_ne hdata])
    · refine .inr ⟨logical, ?_, rfl⟩
      by_cases hsame : logical = key
      · simp [hsame]
      · rwa [Function.update_of_ne hsame]
  · intro other hother
    by_cases hsame : other = key
    · exact hsame ▸ hkey
    · rw [Function.update_of_ne hsame] at hother
      exact P.admitted hother

/-- Removing both objects of every pair of a batch removes its blobs. -/
theorem removeAll (P : Paired provider headerSuffix Admits M L) {keys : List Key}
    (hkeys : ∀ key ∈ keys, AdmitsKey headerSuffix Admits key) :
    Paired provider headerSuffix Admits
      (KeyMap.removeAll M (keys.flatMap fun key => [key, key ++ headerSuffix]))
      (KeyMap.removeAll L keys) := by
  have hmem : ∀ other, other ∈ (keys.flatMap fun key => [key, key ++ headerSuffix]) ↔
      other ∈ keys ∨ ∃ key ∈ keys, other = key ++ headerSuffix := by
    intro other
    simp only [List.mem_flatMap, List.mem_cons, List.not_mem_nil, or_false]
    constructor
    · rintro ⟨key, hkey, rfl | rfl⟩
      · exact .inl hkey
      · exact .inr ⟨key, hkey, rfl⟩
    · rintro (h | ⟨key, hkey, rfl⟩)
      · exact ⟨other, h, .inl rfl⟩
      · exact ⟨key, hkey, .inr rfl⟩
  constructor
  · intro key plaintext hL
    have hnot : key ∉ keys := by
      intro hkey
      rw [KeyMap.removeAll_of_mem hkey] at hL
      cases hL
    rw [KeyMap.removeAll_of_not_mem hnot] at hL
    obtain ⟨ciphertext, header, hdata, hheader, hdecrypts⟩ := P.pair hL
    have hthere : L key ≠ none := by simp [hL]
    have hadmitted := P.admitted hthere
    refine ⟨ciphertext, header, ?_, ?_, hdecrypts⟩
    · rw [KeyMap.removeAll_of_not_mem, hdata]
      rw [hmem]
      rintro (h | ⟨other, _, rfl⟩)
      · exact hnot h
      · exact hadmitted.2.1 (List.suffix_append other headerSuffix)
    · rw [KeyMap.removeAll_of_not_mem, hheader]
      rw [hmem]
      rintro (h | ⟨other, hother, h⟩)
      · exact (hkeys _ h).2.1 (List.suffix_append key headerSuffix)
      · exact hnot (List.append_cancel_right h ▸ hother)
  · intro other hother
    have hnot : other ∉ (keys.flatMap fun key => [key, key ++ headerSuffix]) := by
      intro h
      exact hother (KeyMap.removeAll_of_mem h)
    rw [KeyMap.removeAll_of_not_mem hnot] at hother
    rw [hmem, not_or] at hnot
    rcases P.owned hother with h | ⟨logical, hlogical, rfl⟩
    · exact .inl (by rwa [KeyMap.removeAll_of_not_mem hnot.1])
    · refine .inr ⟨logical, ?_, rfl⟩
      rwa [KeyMap.removeAll_of_not_mem]
      exact fun h => hnot.2 ⟨logical, h, rfl⟩
  · intro key hkey
    exact P.admitted (KeyMap.ne_none_of_removeAll hkey)

end Paired

section Contract

variable {Keeps : σ → σ → Prop} {Admits : Key → Prop} {Holds : σ → PlainMap → Prop}
  {self : EncryptedBlobStore (StateM σ)}

/-- A blob that was stored has written both of its objects. -/
theorem putBlob_holdsMap (C : MapContract Keeps self.inner Admits Holds)
    (P : LawfulProvider Keeps self.encryption) {s t : σ} {L : PlainMap} {blob : BlobInput}
    {infos : List BlobMeta} (hL : HoldsMap self.encryption self.headerSuffix Admits Holds s L)
    (hkey : AdmitsKey self.headerSuffix Admits blob.key)
    (hexec : exec (self.putBlob blob) s = (.ok infos, t)) :
    HoldsMap self.encryption self.headerSuffix Admits Holds t
        (Function.update L blob.key (some blob.data.bytes)) ∧
      infos.map BlobMeta.key = [blob.key] := by
  obtain ⟨M, hHolds, hpaired⟩ := hL
  obtain ⟨result, u, header, _, hput, houtcome, hheader, rfl⟩ := exec_putBlob_eq_ok hexec
  have hEncrypted := C.keeps (P.encrypt_keeps s blob.data) hHolds
  obtain ⟨hHolds₁, hkeys⟩ := C.put hEncrypted (by
    intro written hwritten
    rw [List.mem_singleton] at hwritten
    exact hwritten ▸ hkey.2.2.2.1) hput
  obtain ⟨hHolds₂, _⟩ := C.put hHolds₁ (by
    intro written hwritten
    rw [List.mem_singleton] at hwritten
    exact hwritten ▸ hkey.2.2.2.2) hheader
  have hdecrypts : self.encryption.Decrypts (self.encryption.encryptStream blob.data s).1.written
      header blob.data.bytes := P.inverse houtcome
  refine ⟨⟨_, hHolds₂, hpaired.update hkey hdecrypts⟩, ?_⟩
  obtain ⟨info, hinfo, hinfoKey⟩ := List.map_eq_singleton_iff.mp hkeys
  have hshown : ¬self.headerSuffix <:+ info.key := by
    rw [hinfoKey]
    exact hkey.2.1
  rw [hinfo, List.filter_cons_of_pos (by simpa using hshown)]
  exact congrArg (· :: []) hinfoKey

theorem putBlobs_holdsMap (C : MapContract Keeps self.inner Admits Holds)
    (P : LawfulProvider Keeps self.encryption) {s t : σ} {L : PlainMap} {blobs : List BlobInput}
    {infos : List BlobMeta} (hL : HoldsMap self.encryption self.headerSuffix Admits Holds s L)
    (hblobs : ∀ blob ∈ blobs, AdmitsKey self.headerSuffix Admits blob.key)
    (hexec : exec (self.putBlobs blobs) s = (.ok infos, t)) :
    HoldsMap self.encryption self.headerSuffix Admits Holds t
        (KeyMap.insertAll L (entriesOf blobs)) ∧
      infos.map BlobMeta.key = blobs.map BlobInput.key := by
  induction blobs generalizing s L infos with
  | nil =>
      cases hexec
      exact ⟨hL, rfl⟩
  | cons blob rest ih =>
      rw [List.forall_mem_cons] at hblobs
      rw [putBlobs, exec_bind_eq_ok] at hexec
      obtain ⟨first, u, hfirst, hexec⟩ := hexec
      obtain ⟨others, v, hothers, hpure⟩ := exec_bind_eq_ok.mp hexec
      cases hpure
      obtain ⟨hL₁, hfirstKeys⟩ := putBlob_holdsMap C P hL hblobs.1 hfirst
      obtain ⟨hL₂, hotherKeys⟩ := ih hL₁ hblobs.2 hothers
      refine ⟨hL₂, ?_⟩
      rw [List.map_append, hfirstKeys, hotherKeys]
      rfl

/-- Where a header object is there, decrypting is a run of the provider on its bytes. -/
theorem decryptStream_runs (C : MapContract Keeps self.inner Admits Holds)
    (P : LawfulProvider Keeps self.encryption) {s : σ} {M : PlainMap} {key : Key}
    {header : Bytes} (encData : Reader) (hHolds : Holds s M)
    (hkey : Admits (self.headerKey key)) (hheader : M (self.headerKey key) = some header) :
    ∃ u t, exec (self.decryptStream key encData) s =
        (.ok ((self.encryption.decryptStream encData header u).1.reader key), t) ∧ Holds t M := by
  obtain ⟨headerData, u, hget, hHolds', hbytes, hheaderFailure⟩ :=
    C.get_some hHolds hkey hheader
  have hread : headerData.readToEnd = .ok header :=
    Reader.readToEnd_eq_ok_iff.mpr ⟨hheaderFailure, hbytes⟩
  refine ⟨u, _, ?_, C.keeps (P.decrypt_keeps u encData header) hHolds'⟩
  rw [decryptStream, exec_bind_ok (exec_hideNotFound_ok hget), hread]
  rfl

/-- The header check keeps the keys that have a header object. -/
theorem withHeader_holds (C : MapContract Keeps self.inner Admits Holds) {M : PlainMap}
    {keys : List Key} (hkeys : ∀ key ∈ keys, Admits (self.headerKey key)) {s : σ}
    (hHolds : Holds s M) :
    ∃ t, exec (self.withHeader keys) s =
        (.ok (keys.filter fun key => (M (self.headerKey key)).isSome), t) ∧ Holds t M := by
  induction keys generalizing s with
  | nil => exact ⟨s, rfl, hHolds⟩
  | cons key rest ih =>
      rw [List.forall_mem_cons] at hkeys
      obtain ⟨u, hexists, hHolds₁⟩ := C.existsBlob hHolds hkeys.1
      obtain ⟨t, hrest, hHolds₂⟩ := ih hkeys.2 hHolds₁
      refine ⟨t, ?_, hHolds₂⟩
      rw [withHeader, exec_bind_ok hexists, exec_bind_ok hrest, List.filter_cons]
      rfl

section Reads

variable {s : σ} {M : PlainMap} {key : Key}

/-- A key exists when both of its objects do, whatever else the store holds. -/
theorem existsBlob_holds (C : MapContract Keeps self.inner Admits Holds) (hHolds : Holds s M)
    (hsuffix : ¬self.headerSuffix <:+ key) (hkey : Admits key)
    (hheaderKey : Admits (self.headerKey key)) :
    ∃ t, exec (self.existsBlob key) s =
        (.ok ((M key).isSome && (M (self.headerKey key)).isSome), t) ∧ Holds t M := by
  obtain ⟨u, hdata, hHolds₁⟩ := C.existsBlob hHolds hkey
  obtain ⟨t, hheader, hHolds₂⟩ := C.existsBlob hHolds₁ hheaderKey
  have hchecked : exec (self.existsBlob key) s =
      exec (if !(M key).isSome then pure false else self.inner.existsBlob (self.headerKey key))
        u := by
    rw [EncryptedBlobStore.existsBlob, exec_bind_ok (exec_checkNoHeaderCollision hsuffix s),
      exec_bind_ok hdata]
  cases hM : (M key).isSome with
  | false =>
      rw [hM] at hchecked
      exact ⟨u, hchecked, hHolds₁⟩
  | true =>
      rw [hM] at hchecked
      exact ⟨t, hchecked.trans hheader, hHolds₂⟩

/-- Where both objects are there, `get` is a run of the provider on what is in them. -/
theorem get_runs (C : MapContract Keeps self.inner Admits Holds)
    (P : LawfulProvider Keeps self.encryption) (hHolds : Holds s M)
    (hsuffix : ¬self.headerSuffix <:+ key) (hkey : Admits key)
    (hheaderKey : Admits (self.headerKey key)) {ciphertext header : Bytes}
    (hdata : M key = some ciphertext) (hheader : M (self.headerKey key) = some header) :
    ∃ encData u t, exec (self.get key) s =
        (.ok ((self.encryption.decryptStream encData header u).1.reader key), t) ∧ Holds t M ∧
      encData.bytes = ciphertext ∧ encData.failure = none := by
  obtain ⟨encData, v, hget, hHolds₁, hencData⟩ := C.get_some hHolds hkey hdata
  obtain ⟨u, t, hexec, hHolds₂⟩ := decryptStream_runs C P encData hHolds₁ hheaderKey hheader
  refine ⟨encData, u, t, ?_, hHolds₂, hencData⟩
  rw [EncryptedBlobStore.get, exec_bind_ok (exec_checkNoHeaderCollision hsuffix s),
    exec_bind_ok (exec_hideNotFound_ok hget)]
  exact hexec

/-- A pair that decrypts is read as its plaintext. -/
theorem get_holds_pair (C : MapContract Keeps self.inner Admits Holds)
    (P : LawfulProvider Keeps self.encryption) (hHolds : Holds s M)
    (hsuffix : ¬self.headerSuffix <:+ key) (hkey : Admits key)
    (hheaderKey : Admits (self.headerKey key)) {ciphertext header plaintext : Bytes}
    (hdata : M key = some ciphertext) (hheader : M (self.headerKey key) = some header)
    (hdecrypts : self.encryption.Decrypts ciphertext header plaintext) :
    ∃ reader t, exec (self.get key) s = (.ok reader, t) ∧ Holds t M ∧
      reader.bytes = plaintext ∧ reader.failure = none := by
  obtain ⟨encData, u, t, hexec, hHolds', rfl, hfailure⟩ :=
    get_runs C P hHolds hsuffix hkey hheaderKey hdata hheader
  obtain ⟨hdone, hwritten⟩ := hdecrypts u encData hfailure rfl
  refine ⟨_, t, hexec, hHolds', hwritten, ?_⟩
  rw [DecryptRun.reader, hdone]

/-- Where one of the two objects is missing there is no blob. -/
theorem get_holds_missing (C : MapContract Keeps self.inner Admits Holds) (hHolds : Holds s M)
    (hsuffix : ¬self.headerSuffix <:+ key) (hkey : Admits key)
    (hheaderKey : Admits (self.headerKey key))
    (hmissing : M key = none ∨ M (self.headerKey key) = none) :
    ∃ t, exec (self.get key) s = (.error (.notFound key), t) ∧ Holds t M := by
  rw [EncryptedBlobStore.get, exec_bind_ok (exec_checkNoHeaderCollision hsuffix s)]
  cases hdata : M key with
  | none =>
      obtain ⟨t, hget, hHolds₁⟩ := C.get_none hHolds hkey hdata
      exact ⟨t, exec_bind_error (exec_hideNotFound_notFound hget), hHolds₁⟩
  | some ciphertext =>
      have hheader : M (self.headerKey key) = none :=
        hmissing.resolve_left (by simp [hdata])
      obtain ⟨encData, u, hget, hHolds₁, _⟩ := C.get_some hHolds hkey hdata
      obtain ⟨t, hgetHeader, hHolds₂⟩ := C.get_none hHolds₁ hheaderKey hheader
      refine ⟨t, ?_, hHolds₂⟩
      rw [exec_bind_ok (exec_hideNotFound_ok hget), decryptStream]
      exact exec_bind_error (exec_hideNotFound_notFound hgetHeader)

/-- The listing is that of the inner store without the reserved keys and without the
keys that have no header. -/
theorem list_holds (C : MapContract Keeps self.inner Admits Holds) (hHolds : Holds s M)
    (filter : ListFilter)
    (hheaderKeys : ∀ key, ¬self.headerSuffix <:+ key → M key ≠ none →
      Admits (self.headerKey key)) :
    ∃ keys t, exec (self.list filter) s =
        (.ok (((keys.filter fun key => decide ¬self.headerSuffix <:+ key).filter
          fun key => filter.matchesBlob key none).filter
          fun key => (M (self.headerKey key)).isSome), t) ∧ Holds t M ∧
      KeyMap.IsListing M (fun key => (suffixFilter []).matchesBlob key none = true) keys := by
  obtain ⟨keys, u, hlist, hHolds₁, hkeys⟩ :=
    C.list hHolds (suffixFilter_sound []) (suffixFilter_metadataIndependent [])
  have hadmits : ∀ key ∈ (keys.filter fun key => decide ¬self.headerSuffix <:+ key).filter
      fun key => filter.matchesBlob key none, Admits (self.headerKey key) := by
    intro key hkey
    simp only [List.mem_filter, decide_eq_true_eq] at hkey
    have hsome := ((hkeys.2 key).mp hkey.1.1).1
    exact hheaderKeys key hkey.1.2 (Option.isSome_iff_ne_none.mp hsome)
  obtain ⟨t, hwith, hHolds₂⟩ := withHeader_holds C hadmits hHolds₁
  refine ⟨keys, t, ?_, hHolds₂, hkeys⟩
  rw [EncryptedBlobStore.list, exec_bind_ok hlist]
  exact hwith

end Reads

/-- The keys that have both objects, in the order of the inner listing. -/
theorem isListing_withHeader {provider : EncryptionProvider (StateM σ)} {headerSuffix : Key}
    {M L : PlainMap} {filter : ListFilter} {keys : List Key}
    (hpaired : Paired provider headerSuffix Admits M L)
    (hkeys : KeyMap.IsListing M (fun key =>
      (suffixFilter []).matchesBlob key none = true) keys) :
    KeyMap.IsListing L (fun key => filter.matchesBlob key none = true)
      (((keys.filter fun key => decide ¬headerSuffix <:+ key).filter
        fun key => filter.matchesBlob key none).filter
        fun key => (M (key ++ headerSuffix)).isSome) := by
  obtain ⟨hsorted, hmem⟩ := hkeys
  refine ⟨((hsorted.filter _).filter _).filter _, ?_⟩
  intro key
  simp only [List.mem_filter, hmem, suffixFilter_matches, List.nil_suffix, decide_true, and_true,
    decide_eq_true_eq]
  constructor
  · rintro ⟨⟨⟨hdata, hsuffix⟩, hmatch⟩, _⟩
    exact ⟨hpaired.isSome_eq hsuffix ▸ hdata, hmatch⟩
  · rintro ⟨hsome, hmatch⟩
    obtain ⟨plaintext, hL⟩ := Option.isSome_iff_exists.mp hsome
    obtain ⟨ciphertext, header, hdata, hheader, _⟩ := hpaired.pair hL
    have hadmitted := hpaired.admitted (Option.isSome_iff_ne_none.mp hsome)
    exact ⟨⟨⟨by simp [hdata], hadmitted.2.1⟩, hmatch⟩, by simp [hheader]⟩

end Contract

/-- An encrypted layer over a store that implements a map implements one too. -/
theorem mapContract {Keeps : σ → σ → Prop} {Admits : Key → Prop} {Holds : σ → PlainMap → Prop}
    (self : EncryptedBlobStore (StateM σ)) (C : MapContract Keeps self.inner Admits Holds)
    (P : LawfulProvider Keeps self.encryption) :
    MapContract Keeps self.toBlobStore (AdmitsKey self.headerSuffix Admits)
      (HoldsMap self.encryption self.headerSuffix Admits Holds) where
  keeps := by
    rintro s t L hst ⟨M, hHolds, hpaired⟩
    exact ⟨M, C.keeps hst hHolds, hpaired⟩
  admitted := by
    rintro s L key ⟨M, _, hpaired⟩ hkey
    exact hpaired.admitted hkey
  put := by
    intro s t L blobs result hL hblobs hexec
    have hkeys : ∀ key ∈ blobs.map BlobInput.key,
        ValidKey key ∧ ¬self.headerSuffix <:+ key ∧ ValidKey (self.headerKey key) := by
      intro key hkey
      obtain ⟨blob, hblob, rfl⟩ := List.mem_map.mp hkey
      obtain ⟨hvalid, hsuffix, hheader, _⟩ := hblobs blob hblob
      exact ⟨hvalid, hsuffix, hheader⟩
    have hcheck := exec_checkPutKeys hkeys s
    change exec (self.put blobs) s = _ at hexec
    rw [EncryptedBlobStore.put, exec_bind_ok hcheck, exec_bind_eq_ok] at hexec
    obtain ⟨infos, u, hput, hpure⟩ := hexec
    cases hpure
    exact putBlobs_holdsMap C P hL hblobs hput
  get_some := by
    rintro s L key plaintext ⟨M, hHolds, hpaired⟩ hkey hL
    obtain ⟨ciphertext, header, hdata, hheader, hdecrypts⟩ := hpaired.pair hL
    obtain ⟨reader, t, hexec, hHolds', hbytes⟩ := get_holds_pair C P hHolds hkey.2.1
      hkey.2.2.2.1 hkey.2.2.2.2 hdata hheader hdecrypts
    exact ⟨reader, t, hexec, ⟨M, hHolds', hpaired⟩, hbytes⟩
  get_none := by
    rintro s L key ⟨M, hHolds, hpaired⟩ hkey hL
    obtain ⟨t, hexec, hHolds'⟩ := get_holds_missing C hHolds hkey.2.1 hkey.2.2.2.1
      hkey.2.2.2.2 (.inl (hpaired.data_none hkey.2.1 hL))
    exact ⟨t, hexec, M, hHolds', hpaired⟩
  delete := by
    rintro s L keys ⟨M, hHolds, hpaired⟩ hkeys
    have hadmits : ∀ physical ∈ keys.flatMap fun key => [key, self.headerKey key],
        Admits physical := by
      intro physical hphysical
      obtain ⟨key, hkey, hmem⟩ := List.mem_flatMap.mp hphysical
      obtain ⟨_, _, _, hdataKey, hheaderKey⟩ := hkeys key hkey
      rcases List.mem_pair.mp hmem with rfl | rfl
      · exact hdataKey
      · exact hheaderKey
    obtain ⟨t, hdelete, hHolds₁⟩ := C.delete hHolds hadmits
    refine ⟨t, ?_, ⟨_, hHolds₁, hpaired.removeAll hkeys⟩⟩
    change exec (self.delete keys) s = _
    rw [EncryptedBlobStore.delete, exec_bind_ok (exec_checkDeleteKeys
      (fun key hkey => (hkeys key hkey).2.1) s), exec_bind_ok (exec_attempt s _), hdelete]
    rfl
  existsBlob := by
    rintro s L key ⟨M, hHolds, hpaired⟩ hkey
    obtain ⟨t, hexec, hHolds'⟩ := existsBlob_holds C hHolds hkey.2.1 hkey.2.2.2.1 hkey.2.2.2.2
    refine ⟨t, ?_, M, hHolds', hpaired⟩
    have hboth : ((M key).isSome && (M (self.headerKey key)).isSome) = (L key).isSome := by
      rw [hpaired.isSome_eq hkey.2.1]
      cases hL : L key with
      | none => rfl
      | some plaintext =>
          obtain ⟨ciphertext, header, _, hheader, _⟩ := hpaired.pair hL
          rw [headerKey, hheader]
          rfl
    rw [← hboth]
    exact hexec
  list := by
    rintro s L filter ⟨M, hHolds, hpaired⟩ _ _
    have hheaderKeys : ∀ key, ¬self.headerSuffix <:+ key → M key ≠ none →
        Admits (self.headerKey key) := by
      intro key hsuffix hkey
      have hsome := hpaired.isSome_eq hsuffix
      rw [Option.isSome_iff_ne_none.mpr hkey] at hsome
      exact (hpaired.admitted (Option.isSome_iff_ne_none.mp hsome.symm)).2.2.2.2
    obtain ⟨keys, t, hexec, hHolds', hkeys⟩ := list_holds C hHolds filter hheaderKeys
    exact ⟨_, t, hexec, ⟨M, hHolds', hpaired⟩, isListing_withHeader hpaired hkeys⟩

end EncryptedBlobStore

end BlobStorage
