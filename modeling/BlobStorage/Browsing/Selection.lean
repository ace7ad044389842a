import BlobStorage.Browsing.Loop

/-!
# What a filter selects

A filter may look at a blob's record, but not every listing shows it one: the backends and the
encryption layer ask it by the key alone, the prefix layer and the walk of the encryption layer
with the record. Here is what enumerating a stack comes down to, layer by layer, and when a
filter selects the visible blobs that it would select with their records.
-/

namespace BlobStorage

open Fallible

variable {σ : Type}

/-- The filter is asked about a record by its key alone. -/
def ListFilter.byKey (filter : ListFilter) (info : BlobMeta) : Bool :=
  filter.matchesBlob info.key none

/-- It is asked with the record. -/
def ListFilter.byRecord (filter : ListFilter) (info : BlobMeta) : Bool :=
  filter.matchesBlob info.key (some info)

/-- The record under its logical key. -/
def BlobMeta.logical (keyPrefix : Key) (info : BlobMeta) : Option BlobMeta :=
  (stripKeyPrefix keyPrefix info.key).map fun key => { info with key := key }

/-- The record of a blob of the encryption layer: not reserved, and with a header. -/
def Reads.completes (reads : Reads) (headerSuffix : Key) (info : BlobMeta) : Bool :=
  decide (¬headerSuffix <:+ info.key) && reads.hasHeader headerSuffix info.key

/-- What enumerating a store in one state comes down to: the visible blobs, when a walk comes to
its end, the records it comes by, when the records of a listing can be fetched, and how the walk
and the listing ask the filter. -/
structure Enumeration where
  shown : Shown
  visible : List BlobMeta
  Walks : ListFilter → Prop
  comesBy : ListFilter → List BlobMeta
  Fetches : ListFilter → Prop
  walkAsks : ListFilter → BlobMeta → Bool
  listingAsks : ListFilter → BlobMeta → Bool

/-- The enumeration of a backend. -/
def Enumeration.ofBackend (shown : Shown) (stored : List BlobMeta) (Walks : ListFilter → Prop)
    (comesBy : ListFilter → List BlobMeta) : Enumeration where
  shown := shown
  visible := stored
  Walks := Walks
  comesBy := comesBy
  Fetches _ := True
  walkAsks := ListFilter.byKey
  listingAsks := ListFilter.byKey

/-- The enumeration of a layer over a store. -/
def Layer.over (s : σ) (below : Enumeration) : Layer (StateM σ) → Enumeration
  | .keyPrefix start =>
      { shown := below.shown.prefixed start
        visible := below.visible.filterMap (BlobMeta.logical start)
        Walks := fun filter => below.Walks (combinedPrefixFilter start filter)
        comesBy := fun filter =>
          (below.comesBy (combinedPrefixFilter start filter)).filterMap (BlobMeta.logical start)
        Fetches := fun filter => below.Fetches (combinedPrefixFilter start filter)
        walkAsks := ListFilter.byRecord
        listingAsks := ListFilter.byRecord }
  | .encryption provider headerSuffix =>
      { shown := below.shown.encrypted
          (fun encData header => (provider.decryptStream encData header s).1) headerSuffix
        visible := below.visible.filter (below.shown.completes headerSuffix)
        Walks := fun _ => below.Walks (suffixFilter []) ∧
          ∀ info ∈ below.comesBy (suffixFilter []), ¬headerSuffix <:+ info.key →
            ∃ found, below.shown.existsBlob (info.key ++ headerSuffix) = .ok found
        comesBy := fun _ =>
          (below.comesBy (suffixFilter [])).filter (below.shown.completes headerSuffix)
        Fetches := fun filter =>
          ∀ info ∈ (below.comesBy (suffixFilter [])).filter (below.shown.completes headerSuffix),
            filter.byKey info = true → ∃ pair, below.shown.getWithMetadata info.key = .ok pair
        walkAsks := ListFilter.byRecord
        listingAsks := ListFilter.byKey }
  | .cleanup _ _ => below

/-- What is there is not reported missing. -/
def Reads.FindsPresent (reads : Reads) : Prop :=
  ∀ key other, reads.existsBlob key = .ok true → reads.get key ≠ .error (.notFound other)

/-- A check that fails does not report anything missing. -/
theorem notFound_ne_invalid {α : Type} (key : Key) (e : BlobStorageError) (he : e.IsInvalidInput) :
    (.error (.notFound key) : Except BlobStorageError α) ≠ .error e := by
  intro heq
  cases heq
  exact he

namespace Enumeration

/-- The enumeration says what the store shows. -/
structure Right (E : Enumeration) : Prop where
  findsPresent : E.shown.FindsPresent
  walkAsks : ∀ filter, E.walkAsks filter = filter.byKey ∨ E.walkAsks filter = filter.byRecord
  listingAsks : ∀ filter,
    E.listingAsks filter = filter.byKey ∨ E.listingAsks filter = filter.byRecord
  ends : ∀ {filter}, filter.SoundHint → ((E.shown.walk filter).2 = none ↔ E.Walks filter)
  walk : ∀ {filter}, filter.SoundHint → E.Walks filter → (E.shown.walk filter).1.Perm
    (((E.comesBy filter).filter (E.walkAsks filter)).map fun info => (info.key, some info))
  list : ∀ {filter}, filter.SoundHint → E.Walks filter →
    ∃ keys, E.shown.list filter = .ok keys ∧
      keys.Perm (((E.comesBy filter).filter filter.byKey).map BlobMeta.key)
  fetches : ∀ {filter}, filter.SoundHint → E.Walks filter →
    ((∃ infos, E.shown.listWithMetadata filter = .ok infos) ↔ E.Fetches filter)
  records : ∀ {filter infos}, filter.SoundHint → E.Walks filter →
    E.shown.listWithMetadata filter = .ok infos →
      infos.Perm ((E.comesBy filter).filter (E.listingAsks filter))
  nodup : ∀ filter, ((E.comesBy filter).map BlobMeta.key).Nodup
  nodupVisible : (E.visible.map BlobMeta.key).Nodup
  complete : ∀ {filter : ListFilter} {info record}, filter.SoundHint → E.Walks filter →
    info ∈ E.visible → filter.matchesBlob info.key record = true → info ∈ E.comesBy filter
  present : ∀ {filter info}, info ∈ E.comesBy filter → ∀ other,
    E.shown.getWithMetadata info.key ≠ .error (.notFound other)
  fetched : ∀ {filter info pair}, info ∈ E.comesBy filter →
    E.shown.getWithMetadata info.key = .ok pair → pair.1 = info

/-- With their records the filter selects the visible blobs that are listed and walked. -/
structure Selects (E : Enumeration) (filter : ListFilter) : Prop where
  walks : E.Walks filter
  fetches : E.Fetches filter
  asks : ∀ info ∈ E.visible, E.walkAsks filter info = filter.byRecord info ∧
    E.listingAsks filter info = filter.byRecord info
  onlyVisible : ∀ info ∈ E.comesBy filter,
    (E.walkAsks filter info = true ∨ E.listingAsks filter info = true) → info ∈ E.visible

/-- The listing has the records of the visible blobs that the filter selects with them, and a
walk comes to its end and hands out their keys. -/
def ShowsSelected (E : Enumeration) (filter : ListFilter) : Prop :=
  (∃ infos, E.shown.listWithMetadata filter = .ok infos ∧
    infos.Perm (E.visible.filter filter.byRecord)) ∧
  (E.shown.walk filter).2 = none ∧
    (E.shown.walkKeys filter).Perm ((E.visible.filter filter.byRecord).map BlobMeta.key)

theorem eq_of_key {infos : List BlobMeta} (h : (infos.map BlobMeta.key).Nodup) {info other : BlobMeta}
    (hinfo : info ∈ infos) (hother : other ∈ infos) (hkey : info.key = other.key) : info = other :=
  List.inj_on_of_nodup_map h hinfo hother hkey

theorem nodup_of_keys {infos : List BlobMeta} (h : (infos.map BlobMeta.key).Nodup) : infos.Nodup :=
  h.of_map BlobMeta.key

variable {E : Enumeration} {filter : ListFilter}

theorem Right.walkKeys_perm (h : E.Right) (hsound : filter.SoundHint) (hwalks : E.Walks filter) :
    (E.shown.walkKeys filter).Perm
      (((E.comesBy filter).filter (E.walkAsks filter)).map BlobMeta.key) := by
  have hkeys := (h.walk hsound hwalks).map Prod.fst
  rw [List.map_map] at hkeys
  exact hkeys

/-- Where the filter selects visible blobs by their records, that is what is shown. -/
theorem Right.showsSelected (h : E.Right) (hsound : filter.SoundHint) (hselects : E.Selects filter) :
    E.ShowsSelected filter := by
  have hsame : ∀ asks : BlobMeta → Bool, (∀ info ∈ E.visible, asks info = filter.byRecord info) →
      (∀ info ∈ E.comesBy filter, asks info = true → info ∈ E.visible) →
      ((E.comesBy filter).filter asks).Perm (E.visible.filter filter.byRecord) := by
    intro asks hasks honly
    have hnodup := (nodup_of_keys (h.nodup filter)).filter asks
    have hnodupVisible := (nodup_of_keys h.nodupVisible).filter filter.byRecord
    refine (List.perm_ext_iff_of_nodup hnodup hnodupVisible).mpr fun info => ?_
    rw [List.mem_filter, List.mem_filter]
    constructor
    · rintro ⟨hinfo, hasked⟩
      have hvisible := honly info hinfo hasked
      exact ⟨hvisible, (hasks info hvisible).symm.trans hasked⟩
    · rintro ⟨hvisible, hrecord⟩
      exact ⟨h.complete hsound hselects.walks hvisible hrecord, (hasks info hvisible).trans hrecord⟩
  obtain ⟨infos, hinfos⟩ := (h.fetches hsound hselects.walks).mpr hselects.fetches
  refine ⟨⟨infos, hinfos, ?_⟩, (h.ends hsound).mpr hselects.walks, ?_⟩
  · refine (h.records hsound hselects.walks hinfos).trans (hsame _ ?_ ?_)
    · exact fun info hinfo => (hselects.asks info hinfo).2
    · exact fun info hinfo hasked => hselects.onlyVisible info hinfo (.inr hasked)
  · refine (h.walkKeys_perm hsound hselects.walks).trans ((hsame _ ?_ ?_).map BlobMeta.key)
    · exact fun info hinfo => (hselects.asks info hinfo).1
    · exact fun info hinfo hasked => hselects.onlyVisible info hinfo (.inl hasked)

/-- What is shown of the records that a walk or a listing comes by. -/
theorem Right.asks_of_shown (h : E.Right) (hsound : filter.SoundHint) (hwalks : E.Walks filter)
    {asks : BlobMeta → Bool}
    (hone : asks = filter.byKey ∨ asks = filter.byRecord)
    (hshown : (((E.comesBy filter).filter asks).map BlobMeta.key).Perm
      ((E.visible.filter filter.byRecord).map BlobMeta.key)) :
    (∀ info ∈ E.visible, asks info = filter.byRecord info) ∧
      ∀ info ∈ E.comesBy filter, asks info = true → info ∈ E.visible := by
  have hcomes : ∀ info ∈ E.visible, asks info = true → info ∈ E.comesBy filter := by
    intro info hinfo hasked
    obtain rfl | rfl := hone
    · exact h.complete hsound hwalks hinfo hasked
    · exact h.complete hsound hwalks hinfo hasked
  have honly : ∀ info ∈ E.comesBy filter, asks info = true →
      info ∈ E.visible ∧ filter.byRecord info = true := by
    intro info hinfo hasked
    have hmem : info.key ∈ (E.visible.filter filter.byRecord).map BlobMeta.key :=
      hshown.subset (List.mem_map_of_mem (List.mem_filter.mpr ⟨hinfo, hasked⟩))
    obtain ⟨other, hother, hkey⟩ := List.mem_map.mp hmem
    obtain ⟨hvisible, hselected⟩ := List.mem_filter.mp hother
    have hfound := h.complete hsound hwalks hvisible hselected
    obtain rfl := eq_of_key (h.nodup filter) hfound hinfo hkey
    exact ⟨hvisible, hselected⟩
  refine ⟨fun info hinfo => ?_, fun info hinfo hasked => (honly info hinfo hasked).1⟩
  rw [Bool.eq_iff_iff]
  constructor
  · intro hasked
    exact (honly info (hcomes info hinfo hasked) hasked).2
  · intro hrecord
    have hmem : info.key ∈ ((E.comesBy filter).filter asks).map BlobMeta.key :=
      hshown.symm.subset (List.mem_map_of_mem (List.mem_filter.mpr ⟨hinfo, hrecord⟩))
    obtain ⟨other, hother, hkey⟩ := List.mem_map.mp hmem
    obtain ⟨hfound, hasked⟩ := List.mem_filter.mp hother
    obtain rfl := eq_of_key (h.nodup filter) hfound (h.complete hsound hwalks hinfo hrecord) hkey
    exact hasked

/-- And only there: what is shown can be traced back to what the filter was asked. -/
theorem Right.showsSelected_iff (h : E.Right) (hsound : filter.SoundHint) :
    E.ShowsSelected filter ↔ E.Selects filter := by
  refine ⟨?_, h.showsSelected hsound⟩
  rintro ⟨⟨infos, hlist, hinfos⟩, hend, hkeys⟩
  have hwalks := (h.ends hsound).mp hend
  have hlisted := (h.records hsound hwalks hlist).symm.trans hinfos
  have hwalked := (h.walkKeys_perm hsound hwalks).symm.trans hkeys
  obtain ⟨hwalkAsks, hwalkOnly⟩ := h.asks_of_shown hsound hwalks (h.walkAsks filter) hwalked
  obtain ⟨hlistingAsks, hlistingOnly⟩ :=
    h.asks_of_shown hsound hwalks (h.listingAsks filter) (hlisted.map BlobMeta.key)
  constructor
  · exact hwalks
  · exact (h.fetches hsound hwalks).mp ⟨infos, hlist⟩
  · exact fun info hinfo => ⟨hwalkAsks info hinfo, hlistingAsks info hinfo⟩
  · intro info hinfo hasked
    obtain hasked | hasked := hasked
    · exact hwalkOnly info hinfo hasked
    · exact hlistingOnly info hinfo hasked

/-- A filter that looks at keys only is asked the same everywhere. -/
theorem Right.asks_of_metadataIndependent (h : E.Right) (hindependent : filter.MetadataIndependent) :
    E.walkAsks filter = filter.byKey ∧ E.listingAsks filter = filter.byKey := by
  have hsame : filter.byRecord = filter.byKey := funext fun info => hindependent info.key _ none
  have hwalk := h.walkAsks filter
  have hlisting := h.listingAsks filter
  rw [hsame, or_self] at hwalk hlisting
  exact ⟨hwalk, hlisting⟩

section Backend

variable {get : Key → Except BlobStorageError Reader}
  {existsBlob : Key → Except BlobStorageError Bool}
  {getWithMetadata : Key → Except BlobStorageError (BlobMeta × Reader)}
  {found : ListFilter → List BlobMeta × Option BlobStorageError}
  {stored : List BlobMeta} {Walks : ListFilter → Prop} {comesBy : ListFilter → List BlobMeta}

/-- A backend that enumerates in a loop, given what the loop comes by when it goes to its end. -/
theorem Right.ofBackend
    (hends : ∀ filter, (found filter).2 = none ↔ Walks filter)
    (hfound : ∀ filter, Walks filter → (found filter).1.Perm (comesBy filter))
    (hpresent : ∀ key other, existsBlob key = .ok true → get key ≠ .error (.notFound other))
    (hnodup : ∀ filter, ((comesBy filter).map BlobMeta.key).Nodup)
    (hstored : (stored.map BlobMeta.key).Nodup)
    (hcomplete : ∀ filter info record, filter.SoundHint → Walks filter → info ∈ stored →
      filter.matchesBlob info.key record = true → info ∈ comesBy filter)
    (hthere : ∀ filter, ∀ info ∈ comesBy filter, ∀ other,
      getWithMetadata info.key ≠ .error (.notFound other))
    (hfetched : ∀ filter, ∀ info ∈ comesBy filter, ∀ pair,
      getWithMetadata info.key = .ok pair → pair.1 = info) :
    (ofBackend (.enumerating get existsBlob getWithMetadata found) stored Walks comesBy).Right where
  findsPresent := hpresent
  walkAsks _ := .inl rfl
  listingAsks _ := .inl rfl
  ends {filter} _ := hends filter
  walk {filter} _ hwalks := ((hfound filter hwalks).filter _).map _
  list {filter} _ hwalks := by
    refine ⟨sortKeys ((selected filter (found filter).1).map BlobMeta.key), ?_, ?_⟩
    · change (walkEnd (found filter).2).map _ = _
      rw [(hends filter).mpr hwalks]
      rfl
    · exact (sortKeys_perm _).trans (((hfound filter hwalks).filter _).map _)
  fetches {filter} _ hwalks := by
    refine iff_of_true ⟨sortByKey (selected filter (found filter).1), ?_⟩ trivial
    change (walkEnd (found filter).2).map _ = _
    rw [(hends filter).mpr hwalks]
    rfl
  records {filter infos} _ hwalks hlist := by
    change (walkEnd (found filter).2).map _ = _ at hlist
    rw [(hends filter).mpr hwalks] at hlist
    obtain rfl := Except.ok.inj hlist
    exact (List.perm_insertionSort _ _).trans ((hfound filter hwalks).filter _)
  nodup := hnodup
  nodupVisible := hstored
  complete {filter info record} hsound hwalks := hcomplete filter info record hsound hwalks
  present {filter info} hinfo := hthere filter info hinfo
  fetched {filter info pair} hinfo hget := hfetched filter info hinfo pair hget

end Backend

end Enumeration

end BlobStorage
