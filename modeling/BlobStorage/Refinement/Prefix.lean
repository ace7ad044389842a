import BlobStorage.Refinement.Contract

/-!
# The prefix layer keeps the contract

Over a store that implements `M` the layer implements the keys of `M` that carry the
prefix, with the prefix taken off. Nothing else can be in the store: the layer owns
it, so every key of `M` carries the prefix.
-/

namespace BlobStorage

open Fallible

section ExecPrefix

variable {σ : Type} {s : σ}

theorem exec_mapErr {α : Type} (f : BlobStorageError → BlobStorageError)
    (x : Fallible (StateM σ) α) (s : σ) :
    exec (PrefixBlobStore.mapErr f x) s = ((exec x s).1.mapError f, (exec x s).2) := by
  unfold PrefixBlobStore.mapErr
  rw [exec_bind_ok (exec_attempt s x)]
  cases (exec x s).1 <;> rfl

theorem exec_mapErr_ok {α : Type} {f : BlobStorageError → BlobStorageError}
    {x : Fallible (StateM σ) α} {t : σ} {a : α} (h : exec x s = (.ok a, t)) :
    exec (PrefixBlobStore.mapErr f x) s = (.ok a, t) := by
  rw [exec_mapErr, h]
  rfl

theorem exec_mapErr_error {α : Type} {f : BlobStorageError → BlobStorageError}
    {x : Fallible (StateM σ) α} {t : σ} {e : BlobStorageError} (h : exec x s = (.error e, t)) :
    exec (PrefixBlobStore.mapErr (α := α) f x) s = (.error (f e), t) := by
  rw [exec_mapErr, h]
  rfl

namespace PrefixBlobStore

theorem exec_prefixed {self : PrefixBlobStore (StateM σ)} {key : Key} (hkey : ValidKey key)
    (hphysical : ValidKey (self.keyPrefix ++ key)) (s : σ) :
    exec (self.prefixed key) s = (.ok (self.keyPrefix ++ key), s) := by
  rw [self.prefixed_of_valid hkey hphysical]
  rfl

theorem exec_prefixedAll (self : PrefixBlobStore (StateM σ)) {keys : List Key}
    (h : ∀ key ∈ keys, ValidKey key ∧ ValidKey (self.keyPrefix ++ key)) (s : σ) :
    exec (self.prefixedAll keys) s = (.ok (keys.map (self.keyPrefix ++ ·)), s) := by
  rw [self.prefixedAll_of_valid h]
  rfl

end PrefixBlobStore

end ExecPrefix

theorem append_lt_append_left_iff {front a b : Key} : front ++ a < front ++ b ↔ a < b := by
  constructor
  · intro h
    rcases lt_trichotomy a b with hab | rfl | hba
    · exact hab
    · exact absurd h (lt_irrefl _)
    · exact absurd (h.trans (List.append_left_lt hba)) (lt_irrefl _)
  · exact List.append_left_lt

/-- Records of prefixed keys, stripped, carry the keys themselves. -/
theorem map_key_stripped {keyPrefix : Key} {infos : List BlobMeta} {keys : List Key}
    (h : infos.map BlobMeta.key = keys.map (keyPrefix ++ ·)) :
    (infos.map (BlobMeta.stripped keyPrefix)).map BlobMeta.key = keys := by
  have hstrip : (infos.map (BlobMeta.stripped keyPrefix)).map BlobMeta.key =
      (infos.map BlobMeta.key).map fun key => (stripKeyPrefix keyPrefix key).getD key := by
    rw [List.map_map, List.map_map]
    rfl
  rw [hstrip, h, List.map_map]
  simp [Function.comp_def]

namespace PrefixBlobStore

variable {σ : Type}

/-- The keys the layer passes on to a store that admits `Admits`. -/
def AdmitsKey (keyPrefix : Key) (Admits : Key → Prop) (key : Key) : Prop :=
  ValidKey key ∧ ValidKey (keyPrefix ++ key) ∧ Admits (keyPrefix ++ key)

/-- The map the layer implements over a store that `Holds` a map. -/
def HoldsMap (keyPrefix : Key) (Admits : Key → Prop) (Holds : σ → PlainMap → Prop) (s : σ)
    (L : PlainMap) : Prop :=
  ∃ M, Holds s M ∧ (∀ key, M (keyPrefix ++ key) = L key) ∧
    (∀ key, M key ≠ none → keyPrefix <+: key) ∧
    ∀ key, L key ≠ none → AdmitsKey keyPrefix Admits key

/-- Prefixing every key of a batch prefixes every entry it writes. -/
theorem entriesOf_prefixed (keyPrefix : Key) (blobs : List BlobInput) :
    List.zipWith (fun key (blob : BlobInput) => { blob with key := key })
        ((blobs.map BlobInput.key).map (keyPrefix ++ ·)) blobs =
      blobs.map fun blob => { blob with key := keyPrefix ++ blob.key } := by
  rw [List.map_map, List.zipWith_map_left, List.zipWith_self]
  rfl

/-- Stripping the listing of the store gives the listing of the layer. -/
theorem isListing_stripped {keyPrefix : Key} {V : Type} {M L : Key → Option V}
    {filter : ListFilter} {keys : List Key} (hpull : ∀ key, M (keyPrefix ++ key) = L key)
    (hsound : filter.SoundHint)
    (hkeys : KeyMap.IsListing M (fun key =>
      (combinedPrefixFilter keyPrefix filter).matchesBlob key none = true) keys) :
    KeyMap.IsListing L (fun key => filter.matchesBlob key none = true)
      ((keys.filterMap (stripKeyPrefix keyPrefix)).filter
        fun key => filter.matchesBlob key none) := by
  obtain ⟨hsorted, hmem⟩ := hkeys
  constructor
  · refine List.Pairwise.filter _ (hsorted.filterMap _ ?_)
    intro a b hab x hx y hy
    rw [stripKeyPrefix_eq_some_iff] at hx hy
    rw [hx, hy] at hab
    exact append_lt_append_left_iff.mp hab
  · intro key
    rw [List.mem_filter, List.mem_filterMap]
    simp only [stripKeyPrefix_eq_some_iff]
    constructor
    · rintro ⟨⟨physical, hphysical, rfl⟩, hmatch⟩
      have hsome := ((hmem _).mp hphysical).1
      rw [hpull] at hsome
      exact ⟨hsome, hmatch⟩
    · rintro ⟨hsome, hmatch⟩
      refine ⟨⟨_, (hmem _).mpr ⟨?_, ?_⟩, rfl⟩, hmatch⟩
      · rw [hpull]
        exact hsome
      · have hhint : filter.prefixHint.getD [] <+: key := by
          cases hh : filter.prefixHint with
          | none => exact List.nil_prefix
          | some hint => exact hsound hint hh key none hmatch
        simpa [combinedPrefixFilter] using hhint

section Contract

variable {Keeps : σ → σ → Prop} {inner : BlobStore (StateM σ)} {Admits : Key → Prop}
  {Holds : σ → PlainMap → Prop} {keyPrefix : Key}

/-- The pulled-back map after a batch. -/
theorem holdsMap_insertAll {s : σ} {M L : PlainMap} {entries : List (Key × Bytes)}
    (hHolds : Holds s (KeyMap.insertAll M
      (entries.map fun entry => (keyPrefix ++ entry.1, entry.2))))
    (hpull : ∀ key, M (keyPrefix ++ key) = L key)
    (howned : ∀ key, M key ≠ none → keyPrefix <+: key)
    (hadmitted : ∀ key, L key ≠ none → AdmitsKey keyPrefix Admits key)
    (hentries : ∀ key ∈ entries.map Prod.fst, AdmitsKey keyPrefix Admits key) :
    HoldsMap keyPrefix Admits Holds s (KeyMap.insertAll L entries) := by
  refine ⟨_, hHolds, ?_, ?_, ?_⟩
  · intro key
    rw [KeyMap.insertAll_rename (List.append_right_injective keyPrefix), funext hpull]
  · intro key hkey
    by_cases hmem : key ∈ (entries.map fun entry => (keyPrefix ++ entry.1, entry.2)).map Prod.fst
    · simp only [List.map_map, List.mem_map, Function.comp_apply] at hmem
      obtain ⟨entry, _, rfl⟩ := hmem
      exact List.prefix_append _ _
    · rw [KeyMap.insertAll_of_not_mem hmem] at hkey
      exact howned key hkey
  · intro key hkey
    by_cases hmem : key ∈ entries.map Prod.fst
    · exact hentries key hmem
    · rw [KeyMap.insertAll_of_not_mem hmem] at hkey
      exact hadmitted key hkey

theorem holdsMap_removeAll {s : σ} {M L : PlainMap} {keys : List Key}
    (hHolds : Holds s (KeyMap.removeAll M (keys.map (keyPrefix ++ ·))))
    (hpull : ∀ key, M (keyPrefix ++ key) = L key)
    (howned : ∀ key, M key ≠ none → keyPrefix <+: key)
    (hadmitted : ∀ key, L key ≠ none → AdmitsKey keyPrefix Admits key) :
    HoldsMap keyPrefix Admits Holds s (KeyMap.removeAll L keys) := by
  refine ⟨_, hHolds, ?_, ?_, ?_⟩
  · intro key
    rw [KeyMap.removeAll_rename (List.append_right_injective keyPrefix), funext hpull]
  · intro key hkey
    exact howned key (KeyMap.ne_none_of_removeAll hkey)
  · intro key hkey
    exact hadmitted key (KeyMap.ne_none_of_removeAll hkey)

/-- A prefix layer over a store that implements a map implements one too. -/
theorem mapContract (C : MapContract Keeps inner Admits Holds) (keyPrefix : Key) :
    MapContract Keeps ({ inner, keyPrefix : PrefixBlobStore (StateM σ) }).toBlobStore
      (AdmitsKey keyPrefix Admits) (HoldsMap keyPrefix Admits Holds) where
  keeps := by
    rintro s t L hst ⟨M, hHolds, hpull, howned, hadmitted⟩
    exact ⟨M, C.keeps hst hHolds, hpull, howned, hadmitted⟩
  admitted := by
    rintro s L key ⟨M, _, _, _, hadmitted⟩ hkey
    exact hadmitted key hkey
  put := by
    rintro s t L blobs result ⟨M, hHolds, hpull, howned, hadmitted⟩ hblobs hexec
    have hvalid : ∀ key ∈ blobs.map BlobInput.key, ValidKey key ∧ ValidKey (keyPrefix ++ key) := by
      intro key hkey
      obtain ⟨blob, hblob, rfl⟩ := List.mem_map.mp hkey
      exact ⟨(hblobs blob hblob).1, (hblobs blob hblob).2.1⟩
    have hprefixed := exec_prefixedAll { inner, keyPrefix } hvalid s
    change exec (put _ blobs) s = _ at hexec
    rw [put, exec_bind_ok hprefixed, entriesOf_prefixed, exec_bind_eq_ok] at hexec
    obtain ⟨innerResult, u, hinner, hpure⟩ := hexec
    cases hpure
    obtain ⟨hHolds', hkeys⟩ := C.put hHolds (by
      intro physical hphysical
      obtain ⟨blob, hblob, rfl⟩ := List.mem_map.mp hphysical
      exact (hblobs blob hblob).2.2) hinner
    constructor
    · refine holdsMap_insertAll ?_ hpull howned hadmitted ?_
      · simpa [entriesOf, Function.comp_def] using hHolds'
      · intro key hkey
        rw [entriesOf_keys] at hkey
        obtain ⟨blob, hblob, rfl⟩ := List.mem_map.mp hkey
        exact hblobs blob hblob
    · refine map_key_stripped ?_
      rw [hkeys, List.map_map, List.map_map]
      rfl
  get_some := by
    rintro s L key content ⟨M, hHolds, hpull, howned, hadmitted⟩ hkey hL
    have hM : M (keyPrefix ++ key) = some content := by rw [hpull, hL]
    obtain ⟨reader, t, hexec, hHolds', hbytes⟩ := C.get_some hHolds hkey.2.2 hM
    refine ⟨reader, t, ?_, ⟨M, hHolds', hpull, howned, hadmitted⟩, hbytes⟩
    change exec (get _ key) s = _
    rw [get, exec_bind_ok (exec_prefixed hkey.1 hkey.2.1 s)]
    exact exec_mapErr_ok hexec
  get_none := by
    rintro s L key ⟨M, hHolds, hpull, howned, hadmitted⟩ hkey hL
    obtain ⟨t, hexec, hHolds'⟩ := C.get_none hHolds hkey.2.2 (by rw [hpull, hL])
    refine ⟨t, ?_, ⟨M, hHolds', hpull, howned, hadmitted⟩⟩
    change exec (get _ key) s = _
    rw [get, exec_bind_ok (exec_prefixed hkey.1 hkey.2.1 s)]
    exact exec_mapErr_error hexec
  delete := by
    rintro s L keys ⟨M, hHolds, hpull, howned, hadmitted⟩ hkeys
    have hadmits : ∀ physical ∈ keys.map (keyPrefix ++ ·), Admits physical := by
      intro physical hphysical
      obtain ⟨key, hkey, rfl⟩ := List.mem_map.mp hphysical
      exact (hkeys key hkey).2.2
    obtain ⟨t, hexec, hHolds'⟩ := C.delete hHolds hadmits
    refine ⟨t, ?_, holdsMap_removeAll hHolds' hpull howned hadmitted⟩
    change exec (delete _ keys) s = _
    rw [delete, exec_bind_ok (exec_prefixedAll _ (fun key hkey =>
      ⟨(hkeys key hkey).1, (hkeys key hkey).2.1⟩) s)]
    exact exec_mapErr_ok hexec
  existsBlob := by
    rintro s L key ⟨M, hHolds, hpull, howned, hadmitted⟩ hkey
    obtain ⟨t, hexec, hHolds'⟩ := C.existsBlob hHolds hkey.2.2
    refine ⟨t, ?_, ⟨M, hHolds', hpull, howned, hadmitted⟩⟩
    change exec (existsBlob _ key) s = _
    rw [existsBlob, exec_bind_ok (exec_prefixed hkey.1 hkey.2.1 s), ← hpull key]
    exact exec_mapErr_ok hexec
  list := by
    rintro s L filter ⟨M, hHolds, hpull, howned, hadmitted⟩ hsound _
    obtain ⟨keys, t, hexec, hHolds', hkeys⟩ :=
      C.list hHolds (combinedPrefixFilter_sound keyPrefix filter)
        (combinedPrefixFilter_metadataIndependent keyPrefix filter)
    refine ⟨_, t, ?_, ⟨M, hHolds', hpull, howned, hadmitted⟩,
      isListing_stripped hpull hsound hkeys⟩
    change exec (list _ filter) s = _
    rw [list, exec_bind_ok hexec]
    rfl

end Contract

end PrefixBlobStore

end BlobStorage
