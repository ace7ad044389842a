import BlobStorage.Refinement.Backend
import BlobStorage.Refinement.Encrypt

/-!
# What a failed batch leaves behind

`put` of the encrypted layer stores its batch one blob after another, each in two requests,
and stops at the first that fails. Over an inner store whose requests take place as a whole
or not at all, what is left is determined: whole pairs before the blob that failed, that blob
as it was or without a data object, and everything else untouched.
-/

namespace BlobStorage

open Fallible

variable {σ : Type}

/-- A store whose single puts take place as a whole, or fail and leave the objects as they
were, and whose single deletes, where they succeed, remove the object. -/
structure AllOrNothing (store : BlobStore (StateM σ)) (Admits : Key → Prop)
    (Holds : σ → PlainMap → Prop) : Prop where
  put_ok : ∀ {s t M blob result}, Holds s M →
    exec (store.put [blob]) s = (.ok result, t) → Admits blob.key →
    Holds t (Function.update M blob.key (some blob.data.bytes))
  put_error : ∀ {s t M blob e}, Holds s M →
    exec (store.put [blob]) s = (.error e, t) → Admits blob.key → Holds t M
  delete_ok : ∀ {s t M key}, Holds s M →
    exec (store.delete [key]) s = (.ok (), t) → Admits key → Holds t (Function.update M key none)

namespace EncryptedBlobStore

/-- The objects of `N` are those of `M`, but for the pairs of the blobs of `batch`. -/
structure PairsWritten (provider : EncryptionProvider (StateM σ)) (headerSuffix : Key)
    (batch : List BlobInput) (M N : PlainMap) : Prop where
  pair : ∀ blob ∈ batch, ∃ ciphertext header, N blob.key = some ciphertext ∧
    N (blob.key ++ headerSuffix) = some header ∧
    provider.Decrypts ciphertext header blob.data.bytes
  others : ∀ key, (∀ blob ∈ batch, key ≠ blob.key ∧ key ≠ blob.key ++ headerSuffix) →
    N key = M key

theorem PairsWritten.nil (provider : EncryptionProvider (StateM σ)) (headerSuffix : Key)
    (M : PlainMap) : PairsWritten provider headerSuffix [] M M where
  pair := by simp
  others := fun _ _ => rfl

/-- The pair of a blob is there after the blobs that follow it have been written. -/
theorem PairsWritten.cons {provider : EncryptionProvider (StateM σ)} {headerSuffix : Key}
    {blob : BlobInput} {rest : List BlobInput} {M N : PlainMap} {ciphertext header : Bytes}
    (hreserved : ∀ b ∈ blob :: rest, ¬headerSuffix <:+ b.key)
    (hfresh : ∀ b ∈ rest, blob.key ≠ b.key)
    (hdecrypts : provider.Decrypts ciphertext header blob.data.bytes)
    (h : PairsWritten provider headerSuffix rest
      (Function.update (Function.update M blob.key (some ciphertext)) (blob.key ++ headerSuffix)
        (some header)) N) :
    PairsWritten provider headerSuffix (blob :: rest) M N := by
  rw [List.forall_mem_cons] at hreserved
  have hkey : ∀ other, blob.key ≠ other ++ headerSuffix := by
    intro other heq
    exact hreserved.1 (heq ▸ List.suffix_append other headerSuffix)
  constructor
  · intro written hwritten
    obtain rfl | hrest := List.mem_cons.mp hwritten
    · refine ⟨ciphertext, header, ?_, ?_, hdecrypts⟩
      · rw [h.others _ fun b hb => ⟨hfresh b hb, hkey b.key⟩, Function.update_of_ne (hkey _),
          Function.update_self]
      · rw [h.others _ fun b hb => ⟨?_, ?_⟩, Function.update_self]
        · intro heq
          exact hreserved.2 b hb (heq ▸ List.suffix_append _ headerSuffix)
        · intro heq
          exact hfresh b hb (List.append_cancel_right heq)
    · exact h.pair written hrest
  · intro key hothers
    rw [List.forall_mem_cons] at hothers
    rw [h.others key hothers.2, Function.update_of_ne hothers.1.2,
      Function.update_of_ne hothers.1.1]

section Step

variable {Keeps : σ → σ → Prop} {Admits : Key → Prop} {Holds : σ → PlainMap → Prop}
  {store : EncryptedBlobStore (StateM σ)}

/-- A blob that went through has both of its objects. -/
theorem putBlob_ok_leaves (hkeeps : ∀ s t M, Keeps s t → Holds s M → Holds t M)
    (A : AllOrNothing store.inner Admits Holds) (P : LawfulProvider Keeps store.encryption)
    {s t : σ} {M : PlainMap} {blob : BlobInput} {infos : List BlobMeta} (hHolds : Holds s M)
    (hkey : AdmitsKey store.headerSuffix Admits blob.key)
    (hexec : exec (store.putBlob blob) s = (.ok infos, t)) :
    ∃ ciphertext header, store.encryption.Decrypts ciphertext header blob.data.bytes ∧
      Holds t (Function.update (Function.update M blob.key (some ciphertext))
        (blob.key ++ store.headerSuffix) (some header)) := by
  obtain ⟨result, u, header, headerResult, hdata, houtcome, hheader, _⟩ :=
    exec_putBlob_eq_ok hexec
  have hencrypted := hkeeps _ _ M (P.encrypt_keeps s blob.data) hHolds
  have hHolds₁ := A.put_ok hencrypted hdata hkey.2.2.2.1
  have hHolds₂ := A.put_ok hHolds₁ hheader hkey.2.2.2.2
  exact ⟨_, header, P.inverse houtcome, hHolds₂⟩

/-- A blob that failed is as it was, or its data object is gone: the one where the data put
failed, the other where a later step did and the data object was rolled back. -/
theorem putBlob_error_leaves (hkeeps : ∀ s t M, Keeps s t → Holds s M → Holds t M)
    (A : AllOrNothing store.inner Admits Holds) (P : LawfulProvider Keeps store.encryption)
    {s t : σ} {M : PlainMap} {blob : BlobInput} {e : BlobStorageError} (hHolds : Holds s M)
    (hkey : AdmitsKey store.headerSuffix Admits blob.key)
    (hrollback : ∀ u N, Holds u N →
      ∃ v, exec (store.inner.delete [blob.key]) u = (.ok (), v))
    (hexec : exec (store.putBlob blob) s = (.error e, t)) :
    Holds t M ∨ Holds t (Function.update M blob.key none) := by
  have hencrypted := hkeeps _ _ M (P.encrypt_keeps s blob.data) hHolds
  -- After the data put every failure runs the rollback, and returns what it returned.
  have hrolled : ∀ {u : σ} {ciphertext : Bytes},
      Holds u (Function.update M blob.key (some ciphertext)) → ∀ failure : BlobStorageError,
      exec (do
        let _ ← attempt (store.inner.delete [blob.key])
        throw failure : Fallible (StateM σ) (List BlobMeta)) u = (.error e, t) →
      Holds t (Function.update M blob.key none) := by
    intro u ciphertext hwritten failure hfailed
    obtain ⟨v, hdelete⟩ := hrollback _ _ hwritten
    rw [exec_bind_ok (exec_attempt u _), hdelete] at hfailed
    cases hfailed
    have herased := A.delete_ok hwritten hdelete hkey.2.2.2.1
    rwa [Function.update_idem] at herased
  rw [putBlob, exec_bind_ok (exec_perform s _), exec_bind_eq_error] at hexec
  obtain hfailed | ⟨result, u, hput, hexec⟩ := hexec
  · exact .inl (A.put_error hencrypted hfailed hkey.2.2.2.1)
  · right
    have hwritten := A.put_ok hencrypted hput hkey.2.2.2.1
    cases hresult : (store.encryption.encryptStream blob.data s).1.result blob.key with
    | error failure =>
        rw [hresult] at hexec
        exact hrolled hwritten failure hexec
    | ok header =>
        rw [hresult, exec_bind_ok (exec_attempt u _)] at hexec
        cases hheader : exec (store.inner.put [BlobInput.withSize (store.headerKey blob.key)
            (Reader.ofBytes header) header.length]) u with
        | mk answer v =>
            rw [hheader] at hexec
            cases answer with
            | ok _ => cases hexec
            | error failure =>
                exact hrolled (A.put_error hwritten hheader hkey.2.2.2.2) failure hexec

/-- The loop stops at a blob: what came before it is written, what comes after is not. -/
theorem putBlobs_error_leaves (hkeeps : ∀ s t M, Keeps s t → Holds s M → Holds t M)
    (A : AllOrNothing store.inner Admits Holds) (P : LawfulProvider Keeps store.encryption)
    {blobs : List BlobInput}
    (hkeys : ∀ blob ∈ blobs, AdmitsKey store.headerSuffix Admits blob.key)
    (hdistinct : (blobs.map BlobInput.key).Nodup)
    (hrollback : ∀ blob ∈ blobs, ∀ u N, Holds u N →
      ∃ v, exec (store.inner.delete [blob.key]) u = (.ok (), v))
    {s t : σ} {M : PlainMap} {e : BlobStorageError} (hHolds : Holds s M)
    (hexec : exec (store.putBlobs blobs) s = (.error e, t)) :
    ∃ before blob after infos u N, blobs = before ++ blob :: after ∧
      exec (store.putBlobs before) s = (.ok infos, u) ∧
      exec (store.putBlob blob) u = (.error e, t) ∧
      PairsWritten store.encryption store.headerSuffix before M N ∧
      (Holds t N ∨ Holds t (Function.update N blob.key none)) := by
  induction blobs generalizing s M with
  | nil => cases hexec
  | cons blob rest ih =>
      rw [List.map_cons, List.nodup_cons] at hdistinct
      have hall := hkeys
      rw [List.forall_mem_cons] at hkeys hrollback
      rw [putBlobs, exec_bind_eq_error] at hexec
      obtain hfailed | ⟨first, u, hfirst, hexec⟩ := hexec
      · exact ⟨[], blob, rest, [], s, M, rfl, rfl, hfailed, .nil _ _ M,
          putBlob_error_leaves hkeeps A P hHolds hkeys.1 hrollback.1 hfailed⟩
      · rw [exec_bind_eq_error] at hexec
        obtain hrest | ⟨others, v, _, hpure⟩ := hexec
        · obtain ⟨ciphertext, header, hdecrypts, hHolds₁⟩ :=
            putBlob_ok_leaves hkeeps A P hHolds hkeys.1 hfirst
          obtain ⟨before, failed, after, infos, w, N, rfl, hbefore, hfailed, hpairs, hleft⟩ :=
            ih hkeys.2 hdistinct.2 hrollback.2 hHolds₁ hrest
          refine ⟨blob :: before, failed, after, first ++ infos, w, N, rfl, ?_, hfailed, ?_,
            hleft⟩
          · rw [putBlobs, exec_bind_ok hfirst, exec_bind_ok hbefore]
            rfl
          · refine hpairs.cons ?_ ?_ hdecrypts
            · intro b hb
              apply (hall b ?_).2.1
              exact List.mem_append_left (failed :: after) hb
            · intro b hb heq
              apply hdistinct.1
              rw [heq]
              exact List.mem_map_of_mem (List.mem_append_left _ hb)
        · cases hpure

end Step

section Observed

/-- The blob is stored as a whole, and reads as `plaintext`. -/
structure StoredWhole (store : EncryptedBlobStore (StateM σ)) (t : σ) (N : PlainMap) (key : Key)
    (plaintext : Bytes) : Prop where
  objects : (N key).isSome ∧ (N (store.headerKey key)).isSome
  existsBlob : ∃ u, exec (store.existsBlob key) t = (.ok true, u)
  get : ∃ reader u, exec (store.get key) t = (.ok reader, u) ∧ reader.readToEnd = .ok plaintext

/-- No read shows the key. -/
structure Hidden (store : EncryptedBlobStore (StateM σ)) (t : σ) (key : Key) : Prop where
  existsBlob : ∃ u, exec (store.existsBlob key) t = (.ok false, u)
  get : ∃ u, exec (store.get key) t = (.error (.notFound key), u)
  list : ∀ filter keys u, exec (store.list filter) t = (.ok keys, u) → key ∉ keys

/-- What a batch that failed at `blob` has made of the objects `M`, as the layer over a store
without faults shows it. -/
structure LeftBehind (store : EncryptedBlobStore (StateM σ)) (before : List BlobInput)
    (blob : BlobInput) (after : List BlobInput) (M N : PlainMap) (t : σ) : Prop where
  written : ∀ b ∈ before, StoredWhole store t N b.key b.data.bytes
  failed : N blob.key = M blob.key ∨ N blob.key = none ∧ Hidden store t blob.key
  header : N (store.headerKey blob.key) = M (store.headerKey blob.key)
  untouched : ∀ b ∈ after, N b.key = M b.key ∧ N (store.headerKey b.key) = M (store.headerKey b.key)
  others : ∀ key, (∀ b ∈ before ++ [blob], key ≠ b.key ∧ key ≠ store.headerKey b.key) →
    N key = M key

/-- The header check of a listing only ever drops keys. -/
theorem withHeader_subset (store : EncryptedBlobStore (StateM σ)) {keys shown : List Key}
    {s t : σ} (h : exec (store.withHeader keys) s = (.ok shown, t)) : shown ⊆ keys := by
  induction keys generalizing s shown with
  | nil =>
      cases h
      exact List.Subset.refl []
  | cons key rest ih =>
      rw [withHeader, exec_bind_eq_ok] at h
      obtain ⟨there, u, _, h⟩ := h
      obtain ⟨others, v, hrest, hpure⟩ := exec_bind_eq_ok.mp h
      cases hpure
      have hothers := ih hrest
      cases there with
      | true => exact List.cons_subset_cons key hothers
      | false => exact List.Subset.trans hothers (List.subset_cons_self key rest)

variable {Keeps : σ → σ → Prop} {Admits : Key → Prop} {Holds : σ → PlainMap → Prop}
  {store : EncryptedBlobStore (StateM σ)}

/-- A key without a data object is hidden, whatever became of its header. -/
theorem hidden_of_no_data (C : MapContract Keeps store.inner Admits Holds) {t : σ}
    {N : PlainMap} {key : Key} (hHolds : Holds t N)
    (hkey : AdmitsKey store.headerSuffix Admits key) (hnone : N key = none) :
    Hidden store t key := by
  obtain ⟨_, hsuffix, _, hdata, hheader⟩ := hkey
  refine ⟨?_, ?_, fun filter keys u hlist hmem => ?_⟩
  · obtain ⟨u, hexists, _⟩ := existsBlob_holds C hHolds hsuffix hdata hheader
    rw [hnone] at hexists
    exact ⟨u, hexists⟩
  · obtain ⟨u, hget, _⟩ := get_holds_missing C hHolds hsuffix hdata hheader (.inl hnone)
    exact ⟨u, hget⟩
  · obtain ⟨listed, v, hinner, _, hlisted⟩ :=
      C.list hHolds (suffixFilter_sound []) (suffixFilter_metadataIndependent [])
    rw [EncryptedBlobStore.list, exec_bind_ok hinner] at hlist
    have hthere := (List.mem_filter.mp (List.mem_filter.mp
      (store.withHeader_subset hlist hmem)).1).1
    have hsome := ((hlisted.2 key).mp hthere).1
    rw [hnone] at hsome
    cases hsome

/-- What follows a written part of a batch of distinct keys is untouched. -/
theorem PairsWritten.later {before after : List BlobInput} {M N : PlainMap}
    {provider : EncryptionProvider (StateM σ)} {headerSuffix : Key}
    (h : PairsWritten provider headerSuffix before M N)
    (hreserved : ∀ b ∈ before ++ after, ¬headerSuffix <:+ b.key)
    (hdistinct : ((before ++ after).map BlobInput.key).Nodup) {blob : BlobInput}
    (hblob : blob ∈ after) :
    N blob.key = M blob.key ∧ N (blob.key ++ headerSuffix) = M (blob.key ++ headerSuffix) := by
  rw [List.map_append, List.nodup_append] at hdistinct
  have hne : ∀ b ∈ before, blob.key ≠ b.key := by
    intro b hb heq
    exact hdistinct.2.2 _ (List.mem_map_of_mem hb) _ (List.mem_map_of_mem hblob) heq.symm
  have hdata : ∀ b ∈ before ++ after, ∀ other, b.key ≠ other ++ headerSuffix := by
    intro b hb other heq
    exact hreserved b hb (heq ▸ List.suffix_append other headerSuffix)
  constructor
  · apply h.others
    exact fun b hb => ⟨hne b hb, hdata blob (List.mem_append_right before hblob) b.key⟩
  · apply h.others
    intro b hb
    refine ⟨fun heq => ?_, fun heq => ?_⟩
    · exact hdata b (List.mem_append_left after hb) blob.key heq.symm
    · exact hne b hb (List.append_cancel_right heq)

/-- Pairs before the failed blob, and at most its data object removed. -/
theorem PairsWritten.leftBehind (C : MapContract Keeps store.inner Admits Holds)
    (P : LawfulProvider Keeps store.encryption) {before after : List BlobInput} {blob : BlobInput}
    (hkeys : ∀ b ∈ before ++ blob :: after, AdmitsKey store.headerSuffix Admits b.key)
    (hdistinct : ((before ++ blob :: after).map BlobInput.key).Nodup) {M N N' : PlainMap} {t : σ}
    (h : PairsWritten store.encryption store.headerSuffix before M N) (hHolds : Holds t N')
    (hsame : ∀ key, key ≠ blob.key → N' key = N key)
    (hfailed : N' blob.key = N blob.key ∨ N' blob.key = none) :
    LeftBehind store before blob after M N' t := by
  have hreserved : ∀ b ∈ before ++ blob :: after, ¬store.headerSuffix <:+ b.key :=
    fun b hb => (hkeys b hb).2.1
  have hlater : ∀ b ∈ blob :: after, N b.key = M b.key ∧
      N (store.headerKey b.key) = M (store.headerKey b.key) :=
    fun b hb => h.later hreserved hdistinct hb
  have hthere : blob ∈ before ++ blob :: after :=
    List.mem_append_right before (List.mem_cons_self ..)
  have hheaderOf : ∀ key, store.headerKey key ≠ blob.key := by
    intro key heq
    exact hreserved blob hthere (heq ▸ List.suffix_append key store.headerSuffix)
  have hunique : ∀ b ∈ before ++ after, b.key ≠ blob.key := by
    rw [List.map_append, List.map_cons, List.nodup_middle, ← List.map_append,
      List.nodup_cons] at hdistinct
    intro b hb heq
    exact hdistinct.1 (heq ▸ List.mem_map_of_mem hb)
  refine ⟨fun b hb => ?_, ?_, ?_, fun b hb => ?_, fun key hkey => ?_⟩
  · obtain ⟨ciphertext, header, hcipher, hstored, hdecrypts⟩ := h.pair b hb
    rw [← hsame _ (hunique b (List.mem_append_left after hb))] at hcipher
    have hheader : N' (store.headerKey b.key) = some header :=
      (hsame _ (hheaderOf b.key)).trans hstored
    obtain ⟨_, hsuffix, _, hdataKey, hheaderKey⟩ :=
      hkeys b (List.mem_append_left (blob :: after) hb)
    obtain ⟨v, hexists, _⟩ := existsBlob_holds C hHolds hsuffix hdataKey hheaderKey
    obtain ⟨reader, w, hget, _, hbytes, hend⟩ := get_holds_pair C P hHolds hsuffix hdataKey
      hheaderKey hcipher hheader hdecrypts
    have hobjects : (N' b.key).isSome ∧ (N' (store.headerKey b.key)).isSome :=
      ⟨Option.isSome_of_eq_some hcipher, Option.isSome_of_eq_some hheader⟩
    rw [hobjects.1, hobjects.2] at hexists
    exact ⟨hobjects, ⟨v, hexists⟩, reader, w, hget, Reader.readToEnd_eq_ok_iff.mpr ⟨hend, hbytes⟩⟩
  · obtain hunchanged | hnone := hfailed
    · exact .inl (hunchanged.trans (hlater blob (List.mem_cons_self ..)).1)
    · exact .inr ⟨hnone, hidden_of_no_data C hHolds (hkeys blob hthere) hnone⟩
  · exact (hsame _ (hheaderOf blob.key)).trans (hlater blob (List.mem_cons_self ..)).2
  · obtain ⟨hdata, hheader⟩ := hlater b (List.mem_cons_of_mem blob hb)
    exact ⟨(hsame _ (hunique b (List.mem_append_right before hb))).trans hdata,
      (hsame _ (hheaderOf b.key)).trans hheader⟩
  · rw [hsame key (hkey blob (List.mem_append_right before (List.mem_singleton_self _))).1]
    exact h.others key fun b hb => hkey b (List.mem_append_left _ hb)

/-- A batch of distinct keys that fails has stored every blob before the one it failed at, has
left that one as it was or hidden it, and has touched nothing else. -/
theorem failed_put_leaves (C : MapContract Keeps store.inner Admits Holds)
    (P : LawfulProvider Keeps store.encryption) {faulty : BlobStore (StateM σ)}
    (A : AllOrNothing faulty Admits Holds) {blobs : List BlobInput}
    (hkeys : ∀ blob ∈ blobs, AdmitsKey store.headerSuffix Admits blob.key)
    (hdistinct : (blobs.map BlobInput.key).Nodup)
    (hrollback : ∀ blob ∈ blobs, ∀ u N, Holds u N →
      ∃ v, exec (faulty.delete [blob.key]) u = (.ok (), v))
    {s t : σ} {M : PlainMap} {e : BlobStorageError} (hHolds : Holds s M)
    (hput : exec ({ store with inner := faulty }.put blobs) s = (.error e, t)) :
    ∃ before blob after infos u N, blobs = before ++ blob :: after ∧
      exec ({ store with inner := faulty }.putBlobs before) s = (.ok infos, u) ∧
      exec ({ store with inner := faulty }.putBlob blob) u = (.error e, t) ∧
      Holds t N ∧ LeftBehind store before blob after M N t := by
  have haccepted : ∀ key ∈ blobs.map BlobInput.key, ValidKey key ∧
      ¬store.headerSuffix <:+ key ∧ ValidKey (store.headerKey key) := by
    intro key hkey
    obtain ⟨blob, hblob, rfl⟩ := List.mem_map.mp hkey
    obtain ⟨hvalid, hsuffix, hheader, _⟩ := hkeys blob hblob
    exact ⟨hvalid, hsuffix, hheader⟩
  have hcheck := @exec_checkPutKeys σ { store with inner := faulty } _ haccepted s
  rw [EncryptedBlobStore.put, exec_bind_ok hcheck, exec_bind_eq_error] at hput
  obtain hfailed | ⟨infos, u, _, hpure⟩ := hput
  · obtain ⟨before, blob, after, infos, u, N, rfl, hbefore, hblob, hpairs, hleft⟩ :=
      @putBlobs_error_leaves σ Keeps Admits Holds { store with inner := faulty }
        (fun _ _ _ => C.keeps) A P blobs hkeys hdistinct hrollback s t M e hHolds hfailed
    obtain hunchanged | hgone := hleft
    · exact ⟨before, blob, after, infos, u, N, rfl, hbefore, hblob, hunchanged,
        hpairs.leftBehind C P hkeys hdistinct hunchanged (fun _ _ => rfl) (.inl rfl)⟩
    · have hothers : ∀ key, key ≠ blob.key →
          Function.update N blob.key none key = N key :=
        fun key hkey => Function.update_of_ne hkey none N
      exact ⟨before, blob, after, infos, u, _, rfl, hbefore, hblob, hgone,
        hpairs.leftBehind C P hkeys hdistinct hgone hothers (.inr (Function.update_self ..))⟩
  · cases hpure

end Observed

end EncryptedBlobStore

namespace MapBlobStore

/-- The map backend where the puts of some keys fail. -/
def failingPuts (fails : Key → Bool) : BlobStore (StateM MapState) :=
  { toBlobStore ⟨true⟩ with
    put := fun blobs =>
      if blobs.any fun blob => fails blob.key then throw (.storage "no space left" none)
      else put blobs }

theorem failingPuts_allOrNothing (fails : Key → Bool) :
    AllOrNothing (failingPuts fails) ValidKey HoldsMap where
  put_ok := by
    intro s t M blob result hHolds hexec hvalid
    change exec (if [blob].any (fun blob => fails blob.key) then _ else put [blob]) s = _ at hexec
    split at hexec
    · cases hexec
    · exact ((mapContract ⟨true⟩).put hHolds (by simpa using hvalid) hexec).1
  put_error := by
    intro s t M blob e hHolds hexec hvalid
    change exec (if [blob].any (fun blob => fails blob.key) then _ else put [blob]) s = _ at hexec
    split at hexec
    · cases hexec
      exact hHolds
    · rw [put, exec_bind_ok (exec_checkKeys_of_valid s (by simpa using hvalid))] at hexec
      cases hread : blob.data.readToEnd with
      | error failure =>
          rw [putBlobs, hread] at hexec
          cases hexec
          exact hHolds
      | ok content =>
          rw [putBlobs, hread] at hexec
          cases hexec
  delete_ok := by
    intro s t M key hHolds hexec hvalid
    obtain ⟨u, hdelete, hHolds'⟩ :=
      (mapContract ⟨true⟩).delete hHolds (show ∀ k ∈ [key], ValidKey k by simpa using hvalid)
    rw [show exec (MapBlobStore.toBlobStore ⟨true⟩ |>.delete [key]) s = (.ok (), t) from hexec]
      at hdelete
    cases hdelete
    have hremoved : KeyMap.removeAll M [key] = Function.update M key none := by
      funext other
      by_cases hsame : other = key
      · rw [hsame, Function.update_self]
        exact KeyMap.removeAll_of_mem (List.mem_singleton_self key)
      · rw [Function.update_of_ne hsame]
        exact KeyMap.removeAll_of_not_mem (by simpa using hsame)
    rwa [← hremoved]

end MapBlobStore

section HeaderPutFails

/-- The layer over a map, without faults. -/
def shiftLayer : EncryptedBlobStore (StateM MapState) where
  inner := MapBlobStore.toBlobStore ⟨true⟩
  encryption := RekeyableShiftEncryption.toProvider ⟨20, 0⟩
  headerSuffix := defaultHeaderSuffix

/-- The header of `b` cannot be written. -/
def fullForHeader : BlobStore (StateM MapState) :=
  MapBlobStore.failingPuts fun key => key = shiftLayer.headerKey ['b']

def threeBlobs : List BlobInput :=
  [.new ['a'] (.ofBytes [1]), .new ['b'] (.ofBytes [2]), .new ['c'] (.ofBytes [3])]

/-- What the batch returns, and the state it leaves. -/
def threePut : Except BlobStorageError PutResult × MapState :=
  exec ({ shiftLayer with inner := fullForHeader }.put threeBlobs) MapState.empty

theorem failed_put_leaves_second :
    threePut.1 = .error (.storage "no space left" none) ∧
    ∃ before blob after infos u N, threeBlobs = before ++ blob :: after ∧
      exec ({ shiftLayer with inner := fullForHeader }.putBlobs before) MapState.empty =
        (.ok infos, u) ∧
      exec ({ shiftLayer with inner := fullForHeader }.putBlob blob) u =
        (.error (.storage "no space left" none), threePut.2) ∧
      MapBlobStore.HoldsMap threePut.2 N ∧
      shiftLayer.LeftBehind before blob after (fun _ => none) N threePut.2 := by
  have hresult : threePut.1 = .error (.storage "no space left" none) := by decide
  have hput : exec ({ shiftLayer with inner := fullForHeader }.put threeBlobs) MapState.empty =
      (.error (.storage "no space left" none), threePut.2) := Prod.ext hresult rfl
  have hcontract : MapContract Eq shiftLayer.inner ValidKey MapBlobStore.HoldsMap :=
    MapBlobStore.mapContract ⟨true⟩
  have hlawful : LawfulProvider Eq shiftLayer.encryption := RekeyableShiftEncryption.lawful _
  have hkeys : ∀ blob ∈ threeBlobs,
      EncryptedBlobStore.AdmitsKey shiftLayer.headerSuffix ValidKey blob.key := by
    intro blob hblob
    simp only [threeBlobs, List.mem_cons, List.not_mem_nil, or_false] at hblob
    obtain rfl | rfl | rfl := hblob
    · exact ⟨by decide, by decide, by decide, by decide, by decide⟩
    · exact ⟨by decide, by decide, by decide, by decide, by decide⟩
    · exact ⟨by decide, by decide, by decide, by decide, by decide⟩
  have hrollback : ∀ blob ∈ threeBlobs, ∀ u N, MapBlobStore.HoldsMap u N →
      ∃ v, exec (fullForHeader.delete [blob.key]) u = (.ok (), v) := by
    intro blob hblob u N hHolds
    have hvalid : ∀ key ∈ [blob.key], ValidKey key := by
      simpa using (hkeys blob hblob).1
    obtain ⟨v, hdelete, _⟩ := (MapBlobStore.mapContract ⟨true⟩).delete hHolds hvalid
    exact ⟨v, hdelete⟩
  exact ⟨hresult, EncryptedBlobStore.failed_put_leaves hcontract hlawful
    (MapBlobStore.failingPuts_allOrNothing _) hkeys (by decide) hrollback
    MapBlobStore.holdsMap_empty hput⟩

end HeaderPutFails

end BlobStorage
