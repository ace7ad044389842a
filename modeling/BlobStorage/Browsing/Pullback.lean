import BlobStorage.Backend.Fs.Presence
import BlobStorage.Browsing.Shown
import BlobStorage.Refinement.Backend

/-!
# A listing behind a prefix

The inner store lists what it likes of the hint it is given: a sound hint cuts off nothing that
the filter accepts. The prefix layer lists the keys behind its prefix, and those only, provided
the inner store lists correctly for the one filter that the layer hands down.
-/

namespace BlobStorage

open Fallible Posix FileTree

variable {σ : Type}

/-- In the state `s` the store lists, for this filter, the blobs of `catalogue` under the keys that
the filter accepts. -/
structure ListsCatalogue (store : BlobStore (StateM σ)) (s : σ)
    (catalogue : Key → Option BlobMeta) (filter : ListFilter) : Prop where
  list : ∃ keys t, exec (store.list filter) s = (.ok keys, t) ∧
    KeyMap.IsListing catalogue (fun key => filter.matchesBlob key none = true) keys
  listWithMetadata : ∃ infos t, exec (store.listWithMetadata filter) s = (.ok infos, t) ∧
    KeyMap.IsListing catalogue (fun key => filter.matchesBlob key none = true)
      (infos.map BlobMeta.key) ∧
    ∀ info ∈ infos, catalogue info.key = some info

/-- The combined hint. -/
structure NarrowsTo (storePrefix : Key) (filter : ListFilter) (hint : Key) : Prop where
  handed : (combinedPrefixFilter storePrefix filter).prefixHint = some hint
  drops_none : ∀ key info, filter.matchesBlob key info = true → hint <+: storePrefix ++ key
  admits_none : ∀ key, hint <+: key → storePrefix <+: key

theorem combinedPrefixFilter_narrowsTo (storePrefix : Key) {filter : ListFilter}
    (hsound : filter.SoundHint) :
    NarrowsTo storePrefix filter (storePrefix ++ filter.prefixHint.getD []) where
  handed := rfl
  drops_none key info hmatch := by
    apply (List.prefix_append_right_inj storePrefix).mpr
    exact hsound.getD_isPrefix hmatch
  admits_none key hhint := (List.prefix_append _ _).trans hhint

namespace PrefixBlobStore

variable {keyPrefix : Key} {filter : ListFilter}

theorem prefixRecord_key (hindep : filter.MetadataIndependent) (info : BlobMeta) :
    (prefixRecord keyPrefix filter info).map BlobMeta.key =
      (stripKeyPrefix keyPrefix info.key).filter fun key => filter.matchesBlob key none := by
  unfold prefixRecord
  cases stripKeyPrefix keyPrefix info.key with
  | none => rfl
  | some logical =>
      dsimp only
      rw [hindep logical _ none, Option.filter_some]
      split <;> rfl

/-- The records that are kept are those of the keys that are kept. -/
theorem map_key_prefixRecord (hindep : filter.MetadataIndependent) (infos : List BlobMeta) :
    (infos.filterMap (prefixRecord keyPrefix filter)).map BlobMeta.key =
      ((infos.map BlobMeta.key).filterMap (stripKeyPrefix keyPrefix)).filter
        fun key => filter.matchesBlob key none := by
  rw [List.map_filterMap, List.filterMap_map, List.filter_filterMap]
  apply List.filterMap_congr
  intro info _
  exact prefixRecord_key hindep info

theorem prefixRecord_eq_some {info record : BlobMeta}
    (h : prefixRecord keyPrefix filter info = some record) :
    info.key = keyPrefix ++ record.key ∧ record = { info with key := record.key } := by
  unfold prefixRecord at h
  cases hstrip : stripKeyPrefix keyPrefix info.key with
  | none =>
      rw [hstrip] at h
      cases h
  | some logical =>
      rw [hstrip] at h
      dsimp only at h
      split at h
      · cases h
        exact ⟨stripKeyPrefix_eq_some_iff.mp hstrip, rfl⟩
      · cases h

theorem exec_list {store : PrefixBlobStore (StateM σ)} {s t : σ} {keys : List Key}
    (h : exec (store.inner.list (combinedPrefixFilter store.keyPrefix filter)) s = (.ok keys, t)) :
    exec (store.list filter) s = (.ok ((keys.filterMap (stripKeyPrefix store.keyPrefix)).filter
      fun key => filter.matchesBlob key none), t) := by
  rw [list, exec_bind_ok h]
  rfl

theorem exec_listWithMetadata {store : PrefixBlobStore (StateM σ)} {s t : σ}
    {infos : List BlobMeta}
    (h : exec (store.inner.listWithMetadata (combinedPrefixFilter store.keyPrefix filter)) s =
      (.ok infos, t)) :
    exec (store.listWithMetadata filter) s =
      (.ok (infos.filterMap (prefixRecord store.keyPrefix filter)), t) := by
  rw [listWithMetadata, exec_bind_ok h]
  rfl

/-- A prefixed listing is the inner catalogue behind the prefix. -/
theorem listing_pulls_back {store : PrefixBlobStore (StateM σ)} {s : σ}
    {catalogue : Key → Option BlobMeta}
    (hstore : ListsCatalogue store.inner s catalogue
      (combinedPrefixFilter store.keyPrefix filter))
    (hsound : filter.SoundHint) (hindep : filter.MetadataIndependent) :
    ∃ keys infos, (exec (store.list filter) s).1 = .ok keys ∧
      (exec (store.listWithMetadata filter) s).1 = .ok infos ∧
      keys.Pairwise (· < ·) ∧
      (∀ key, key ∈ keys ↔ (catalogue (store.keyPrefix ++ key)).isSome ∧
        filter.matchesBlob key none = true) ∧
      infos.map BlobMeta.key = keys ∧
      (∀ info ∈ infos, ∃ physical, catalogue (store.keyPrefix ++ info.key) = some physical ∧
        info.storedSize = physical.storedSize ∧ info.modifiedAt = physical.modifiedAt ∧
        info.etag = physical.etag) ∧
      NarrowsTo store.keyPrefix filter (store.keyPrefix ++ filter.prefixHint.getD []) := by
  obtain ⟨physical, t, hlist, hlisting⟩ := hstore.list
  obtain ⟨records, u, hrecords, hrecorded, hcontents⟩ := hstore.listWithMetadata
  have hpull : ∀ key, catalogue (store.keyPrefix ++ key) =
      (fun key => catalogue (store.keyPrefix ++ key)) key := fun _ => rfl
  obtain ⟨hsorted, hmem⟩ := isListing_stripped hpull hsound hlisting
  obtain ⟨hsorted', hmem'⟩ := isListing_stripped hpull hsound hrecorded
  refine ⟨_, _, congrArg Prod.fst (exec_list hlist),
    congrArg Prod.fst (exec_listWithMetadata hrecords), hsorted, hmem, ?_, ?_,
    combinedPrefixFilter_narrowsTo store.keyPrefix hsound⟩
  · -- Two strictly sorted lists with the same members are one list.
    rw [map_key_prefixRecord hindep]
    apply List.Perm.eq_of_pairwise' (hsorted'.imp le_of_lt) (hsorted.imp le_of_lt)
    rw [List.perm_ext_iff_of_nodup (hsorted'.imp ne_of_lt) (hsorted.imp ne_of_lt)]
    exact fun key => (hmem' key).trans (hmem key).symm
  · intro info hinfo
    obtain ⟨record, hrecord, hkept⟩ := List.mem_filterMap.mp hinfo
    obtain ⟨hkey, hsame⟩ := prefixRecord_eq_some hkept
    refine ⟨record, ?_, ?_⟩
    · rw [← hkey]
      exact hcontents record hrecord
    · rw [hsame]
      exact ⟨rfl, rfl, rfl⟩

end PrefixBlobStore

/-! ### The map backend, with and without the hint -/

theorem sortByKey_sorted (infos : List BlobMeta) :
    ((sortByKey infos).map BlobMeta.key).Pairwise (· ≤ ·) := by
  have htotal : Std.Total fun a b : BlobMeta => a.key ≤ b.key := ⟨fun a b => le_total a.key b.key⟩
  have htrans : IsTrans BlobMeta fun a b => a.key ≤ b.key := ⟨fun _ _ _ => le_trans⟩
  exact List.pairwise_map.mpr (List.pairwise_insertionSort _ infos)

theorem mem_map_key_sortByKey {infos : List BlobMeta} {key : Key} :
    key ∈ (sortByKey infos).map BlobMeta.key ↔ key ∈ infos.map BlobMeta.key :=
  ((List.perm_insertionSort _ infos).map BlobMeta.key).mem_iff

namespace MapBlobStore

open MapState

/-- The blobs of a state, each with its metadata. -/
def catalogue (s : MapState) (key : Key) : Option BlobMeta :=
  (s.find key).map (StoredBlob.info key)

theorem catalogue_isSome (s : MapState) (key : Key) :
    (catalogue s key).isSome = (s.find key).isSome := by
  simp [catalogue]

/-- No two records of a listing have the same key. -/
theorem infos_once (store : MapBlobStore) (s : MapState) (filter : ListFilter) :
    ((store.infos s filter).map BlobMeta.key).Nodup := by
  rw [infos, List.map_filterMap]
  refine ((nodup_candidates store.useHint s filter).filter _).filterMap ?_
  intro first second key hfirst hsecond
  simp only [Option.mem_def, Option.map_map, Option.map_eq_some_iff] at hfirst hsecond
  obtain ⟨_, _, rfl⟩ := hfirst
  obtain ⟨_, _, hsame⟩ := hsecond
  exact hsame.symm

theorem listsCatalogue (store : MapBlobStore) (s : MapState) {filter : ListFilter}
    (hsound : filter.SoundHint) : ListsCatalogue store.toBlobStore s (catalogue s) filter where
  list := ⟨_, s, rfl, isListing_sorted store (fun key => (catalogue_isSome s key).symm) hsound⟩
  listWithMetadata := by
    refine ⟨_, s, rfl, ⟨?_, ?_⟩, ?_⟩
    · have honce : ((sortByKey (store.infos s filter)).map BlobMeta.key).Nodup :=
        ((List.perm_insertionSort _ _).map _).nodup_iff.mpr (store.infos_once s filter)
      refine (honce.and (sortByKey_sorted _)).imp ?_
      intro a b hab
      exact lt_of_le_of_ne hab.2 hab.1
    · intro key
      rw [mem_map_key_sortByKey, List.mem_map, catalogue_isSome]
      constructor
      · rintro ⟨info, hinfo, rfl⟩
        obtain ⟨key, blob, hfind, rfl, hmatch, _⟩ := mem_infos_iff.mp hinfo
        exact ⟨by rw [show (blob.info key).key = key from rfl, hfind]; rfl, hmatch⟩
      · rintro ⟨hsome, hmatch⟩
        obtain ⟨blob, hfind⟩ := Option.isSome_iff_exists.mp hsome
        refine ⟨blob.info key, mem_infos_iff.mpr ⟨key, blob, hfind, rfl, hmatch, fun _ => ?_⟩, rfl⟩
        exact hsound.getD_isPrefix hmatch
    · intro info hinfo
      rw [sortByKey, List.mem_insertionSort, mem_infos_iff] at hinfo
      obtain ⟨key, blob, hfind, rfl, _⟩ := hinfo
      show catalogue s key = _
      rw [catalogue, hfind]
      rfl

end MapBlobStore

/-! ### The filesystem, whose hints are paths -/

/-- The file `p/x`. -/
def filedState : FsState :=
  (exec (sampleFs.put [BlobInput.new ['p', '/', 'x'] (Reader.ofBytes [2])]) emptyRoot).2

def filedCatalogue (key : Key) : Option BlobMeta :=
  if key = ['p', '/', 'x'] then some ⟨key, 1, 0, none⟩ else none

theorem filed_listsCatalogue : ListsCatalogue sampleFs.toBlobStore filedState filedCatalogue
    (combinedPrefixFilter ['p', '/'] (prefixFilter ['x'])) := by
  have hlist : (exec (sampleFs.list (combinedPrefixFilter ['p', '/'] (prefixFilter ['x'])))
      filedState).1 = .ok [['p', '/', 'x']] := by decide
  have hrecords : (exec (sampleFs.listWithMetadata
      (combinedPrefixFilter ['p', '/'] (prefixFilter ['x']))) filedState).1 =
        .ok [⟨['p', '/', 'x'], 1, 0, none⟩] := by decide
  have hlisting : KeyMap.IsListing filedCatalogue (fun key =>
      (combinedPrefixFilter ['p', '/'] (prefixFilter ['x'])).matchesBlob key none = true)
      [['p', '/', 'x']] := by
    refine ⟨List.pairwise_singleton _ _, fun key => ?_⟩
    rw [List.mem_singleton]
    constructor
    · rintro rfl
      exact ⟨by decide, by decide⟩
    · rintro ⟨hheld, _⟩
      by_contra hother
      simp [filedCatalogue, hother] at hheld
  exact ⟨⟨_, _, Prod.ext hlist rfl, hlisting⟩, _, _, Prod.ext hrecords rfl, hlisting,
    by simp [filedCatalogue]⟩

/-- The hint `/` is sound, and the prefix layer hands down `p//`, which is a directory of the
filesystem and begins no key. What it lists is `/x`, though there is no `p//x`. -/
theorem slash_hint_lists_no_key :
    ((prefixFilter ['/']).SoundHint ∧ (prefixFilter ['/']).MetadataIndependent) ∧
      (∀ key, (∃ data, Stored filedState.tree key data) ↔ key = ['p', '/', 'x']) ∧
      (exec (PrefixBlobStore.list ⟨sampleFs.toBlobStore, ['p', '/']⟩ (prefixFilter ['/']))
        filedState).1 = .ok [['/', 'x']] := by
  refine ⟨⟨prefixFilter_sound ['/'], fun _ _ _ => rfl⟩, fun key => ⟨?_, ?_⟩, by decide⟩
  · rintro ⟨data, hstored⟩
    have hnodes : ∀ path ∈ filedState.tree.nodes.keys, filedState.tree.isFile path = true →
        path = ofText ['p', '/', 'x'] := by decide
    have hpath := hnodes _ (Volume.mem_of_find (ofText_ne_nil key) hstored)
      (Volume.isFile_iff.mpr ⟨data, hstored⟩)
    rw [← text_ofText key, hpath, text_ofText]
  · rintro rfl
    have hfind : filedState.tree.find (ofText ['p', '/', 'x']) = some (.file ⟨[2], 0⟩) := by decide
    exact ⟨_, hfind⟩

/-- Two tenants whose names have a start in common. -/
def neighbours : MapState :=
  (((MapState.empty.write ['a', 'b', '/', 'x'] [1, 2]).write ['a', '/', 'y'] [3]).write
    ['a', 'b', '/', 'z'] [4])

/-- The hint ends within the name of a tenant; and the hint is a directory and a name. -/
theorem listing_pulls_back_neighbours :
    ((exec (PrefixBlobStore.list ⟨MapBlobStore.toBlobStore ⟨true⟩, ['a']⟩ (prefixFilter ['b']))
        neighbours).1 = .ok [['b', '/', 'x'], ['b', '/', 'z']] ∧
      ∃ keys, (exec (PrefixBlobStore.list ⟨MapBlobStore.toBlobStore ⟨true⟩, ['a']⟩
          (prefixFilter ['b'])) neighbours).1 = .ok keys ∧
        ∀ key, key ∈ keys ↔ (MapBlobStore.catalogue neighbours (['a'] ++ key)).isSome ∧
          (prefixFilter ['b']).matchesBlob key none = true) ∧
    ∃ keys, (exec (PrefixBlobStore.list ⟨sampleFs.toBlobStore, ['p', '/']⟩ (prefixFilter ['x']))
        filedState).1 = .ok keys ∧
      ∀ key, key ∈ keys ↔ (filedCatalogue (['p', '/'] ++ key)).isSome ∧
        (prefixFilter ['x']).matchesBlob key none = true := by
  obtain ⟨keys, _, hlist, _, _, hmem, _⟩ := @PrefixBlobStore.listing_pulls_back _ (prefixFilter ['b'])
    ⟨MapBlobStore.toBlobStore ⟨true⟩, ['a']⟩ neighbours (MapBlobStore.catalogue neighbours)
    (MapBlobStore.listsCatalogue ⟨true⟩ neighbours (combinedPrefixFilter_sound _ _))
    (prefixFilter_sound ['b']) (fun _ _ _ => rfl)
  obtain ⟨files, _, hfiles, _, _, hfiled, _⟩ := @PrefixBlobStore.listing_pulls_back _
    (prefixFilter ['x']) ⟨sampleFs.toBlobStore, ['p', '/']⟩ filedState filedCatalogue
    filed_listsCatalogue (prefixFilter_sound ['x']) (fun _ _ _ => rfl)
  exact ⟨⟨by decide, keys, hlist, hmem⟩, files, hfiles, hfiled⟩

end BlobStorage
