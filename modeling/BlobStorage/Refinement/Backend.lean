import BlobStorage.Backend.Map
import BlobStorage.Encrypt.Shift
import BlobStorage.Refinement.Contract

/-!
# Instances of the contract

The map backend implements a map from valid keys to bytes, and the byte-shift
provider undoes what it does, so that the results about arbitrary stacks apply to
something that runs.
-/

namespace BlobStorage

open Fallible

namespace MapBlobStore

open MapState

/-- The contents of the stored blobs, all of them under valid keys. -/
def HoldsMap (s : MapState) (M : PlainMap) : Prop :=
  (∀ key, M key = (s.find key).map StoredBlob.content) ∧ ∀ key, M key ≠ none → ValidKey key

theorem holdsMap_empty : HoldsMap MapState.empty fun _ => none :=
  ⟨fun key => by rw [find_empty]; rfl, fun _ h => absurd rfl h⟩

theorem HoldsMap.isSome_eq {s : MapState} {M : PlainMap} (h : HoldsMap s M) (key : Key) :
    (M key).isSome = (s.find key).isSome := by
  rw [h.1, Option.isSome_map]

theorem HoldsMap.write {s : MapState} {M : PlainMap} (h : HoldsMap s M) {key : Key}
    (hkey : ValidKey key) (content : Bytes) :
    HoldsMap (s.write key content) (Function.update M key (some content)) := by
  constructor
  · intro other
    by_cases hsame : other = key
    · rw [hsame, Function.update_self, find_write_self]
      rfl
    · rw [Function.update_of_ne hsame, find_write_of_ne s content hsame, h.1]
  · intro other hother
    by_cases hsame : other = key
    · exact hsame ▸ hkey
    · rw [Function.update_of_ne hsame] at hother
      exact h.2 other hother

theorem HoldsMap.eraseAll {s : MapState} {M : PlainMap} (h : HoldsMap s M) (keys : List Key) :
    HoldsMap (keys.foldl MapState.erase s) (KeyMap.removeAll M keys) := by
  constructor
  · intro key
    rw [find_eraseAll, KeyMap.removeAll]
    split
    · rfl
    · exact h.1 key
  · intro key hkey
    exact h.2 key (KeyMap.ne_none_of_removeAll hkey)

/-- One blob after another is written. -/
theorem putBlobs_holdsMap {blobs : List BlobInput} {s t : MapState} {M : PlainMap}
    {infos : List BlobMeta} (h : HoldsMap s M) (hblobs : ∀ blob ∈ blobs, ValidKey blob.key)
    (hexec : exec (putBlobs blobs) s = (.ok infos, t)) :
    HoldsMap t (KeyMap.insertAll M (entriesOf blobs)) ∧
      infos.map BlobMeta.key = blobs.map BlobInput.key := by
  induction blobs generalizing s M infos with
  | nil =>
      cases hexec
      exact ⟨h, rfl⟩
  | cons blob rest ih =>
      rw [List.forall_mem_cons] at hblobs
      cases hread : blob.data.readToEnd with
      | error e =>
          rw [putBlobs, hread] at hexec
          cases hexec
      | ok content =>
          obtain ⟨_, rfl⟩ := Reader.readToEnd_eq_ok_iff.mp hread
          rw [putBlobs, hread, exec_bind_ok (exec_getState s),
            exec_bind_ok (exec_setState s _)] at hexec
          obtain ⟨others, u, hrest, hpure⟩ := exec_bind_eq_ok.mp hexec
          cases hpure
          obtain ⟨hHolds, hkeys⟩ := ih (h.write hblobs.1 blob.data.bytes) hblobs.2 hrest
          exact ⟨hHolds, by rw [List.map_cons, List.map_cons, hkeys]⟩

theorem isListing_sorted (self : MapBlobStore) {s : MapState} {V : Type} {M : Key → Option V}
    {filter : ListFilter} (h : ∀ key, (s.find key).isSome = (M key).isSome)
    (hsound : filter.SoundHint) :
    KeyMap.IsListing M (fun key => filter.matchesBlob key none = true)
      (sortKeys ((candidates self.useHint s filter).filter fun key =>
        filter.matchesBlob key none)) := by
  constructor
  · have hnodup : (sortKeys ((candidates self.useHint s filter).filter fun key =>
        filter.matchesBlob key none)).Nodup :=
      (sortKeys_perm _).nodup_iff.mpr ((nodup_candidates self.useHint s filter).filter _)
    refine (hnodup.and (sortKeys_sorted _)).imp ?_
    intro a b hab
    exact lt_of_le_of_ne hab.2 hab.1
  · intro key
    rw [mem_sortKeys, List.mem_filter, mem_candidates, h]
    constructor
    · rintro ⟨⟨hsome, _⟩, hmatch⟩
      exact ⟨hsome, hmatch⟩
    · rintro ⟨hsome, hmatch⟩
      refine ⟨⟨hsome, fun _ => ?_⟩, hmatch⟩
      cases hh : filter.prefixHint with
      | none => exact List.nil_prefix
      | some hint => exact hsound hint hh key none hmatch

/-- The map backend implements a map. -/
theorem mapContract (self : MapBlobStore) :
    MapContract Eq self.toBlobStore ValidKey HoldsMap where
  keeps := by
    rintro s t M rfl h
    exact h
  admitted := fun h hkey => h.2 _ hkey
  put := by
    intro s t M blobs result h hblobs hexec
    have hvalid : ∀ key ∈ blobs.map BlobInput.key, ValidKey key := by
      intro key hkey
      obtain ⟨blob, hblob, rfl⟩ := List.mem_map.mp hkey
      exact hblobs blob hblob
    change exec (put blobs) s = _ at hexec
    rw [put, exec_bind_ok (exec_checkKeys_of_valid s hvalid), exec_bind_eq_ok] at hexec
    obtain ⟨infos, u, hput, hpure⟩ := hexec
    cases hpure
    exact putBlobs_holdsMap h hblobs hput
  get_some := by
    intro s M key content h hkey hM
    rw [h.1, Option.map_eq_some_iff] at hM
    obtain ⟨blob, hfind, rfl⟩ := hM
    refine ⟨Reader.ofBytes blob.content, s, ?_, h, rfl, rfl⟩
    have hget : exec (getWithMetadata key) s =
        (.ok (blob.info key, Reader.ofBytes blob.content), s) := by
      rw [getWithMetadata, exec_bind_ok (exec_checkKey_of_valid s hkey),
        exec_bind_ok (exec_getState s), hfind]
      rfl
    exact exec_bind_ok hget
  get_none := by
    intro s M key h hkey hM
    rw [h.1, Option.map_eq_none_iff] at hM
    refine ⟨s, ?_, h⟩
    have hget : exec (getWithMetadata key) s = (.error (.notFound key), s) := by
      rw [getWithMetadata, exec_bind_ok (exec_checkKey_of_valid s hkey),
        exec_bind_ok (exec_getState s), hM]
      rfl
    exact exec_bind_error hget
  delete := by
    intro s M keys h hkeys
    refine ⟨_, ?_, h.eraseAll keys⟩
    change exec (delete keys) s = _
    rw [delete, exec_bind_ok (exec_checkKeys_of_valid s hkeys),
      exec_bind_ok (exec_getState s)]
    rfl
  existsBlob := by
    intro s M key h hkey
    refine ⟨s, ?_, h⟩
    change exec (existsBlob key) s = _
    rw [existsBlob, exec_bind_ok (exec_checkKey_of_valid s hkey),
      exec_bind_ok (exec_getState s), h.isSome_eq]
    rfl
  list := by
    intro s M filter h hsound _
    refine ⟨_, s, ?_, h, isListing_sorted self (fun key => (h.isSome_eq key).symm) hsound⟩
    change exec (self.list filter) s = _
    rw [list, exec_bind_ok (exec_getState s)]
    rfl

end MapBlobStore

theorem RekeyableShiftEncryption.lawful {σ : Type} (self : RekeyableShiftEncryption) :
    LawfulProvider Eq (self.toProvider : EncryptionProvider (StateM σ)) where
  encrypt_keeps := fun _ _ => rfl
  decrypt_keeps := fun _ _ _ => rfl
  inverse := fun hheader _ _ hfailure hbytes => decryptStream_yields hheader hfailure hbytes

end BlobStorage
