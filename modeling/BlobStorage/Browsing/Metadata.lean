import BlobStorage.Backend.Fs.Enumeration
import BlobStorage.Backend.S3.Enumeration
import BlobStorage.Browsing.SelectionLayers

/-!
# Filters that look at metadata

Whether a filter selects by the records of the blobs depends on the layer that asks it. Over both
backends and through any stack of layers, what is listed and walked is what the filter selects
with the records exactly where it is asked as it would be with them.
-/

namespace BlobStorage

open Fallible

variable {σ : Type}

/-- A listing with metadata gives the records of the visible blobs that the filter selects with
them, and a walk hands out their keys. -/
structure SelectsByMetadata (store : BlobStore (StateM σ)) (s : σ) (filter : ListFilter)
    (visible : List BlobMeta) : Prop where
  listed : ∃ infos, (exec (store.listWithMetadata filter) s).1 = .ok infos ∧
    infos.Perm (visible.filter filter.byRecord)
  visited : ∃ keys, (execLocal (store.visit filter collector) [] s).1 = (.ok (), keys) ∧
    keys.Perm ((visible.filter filter.byRecord).map BlobMeta.key)

/-- The backends, each with what it enumerates in a state. -/
inductive Backed : {σ : Type} → BlobStore (StateM σ) → σ → Enumeration → Prop
  | fs (store : FsBlobStore) (s : FsState) : Backed store.toBlobStore s (store.enumeration s)
  | s3 {σ : Type} [Clock (StateM σ)] (store : S3BlobStore (StateM σ)) (s : σ)
      (objects : List BlobMeta) (holds : store.Holds s objects) :
      Backed store.toBlobStore s (store.enumeration s objects)

variable {backend store : BlobStore (StateM σ)} {s : σ} {E : Enumeration} {filter : ListFilter}

theorem Backed.right (h : Backed backend s E) : E.Right := by
  cases h with
  | fs store s => exact store.enumeration_right s
  | s3 store s objects holds => exact holds.enumeration_right

theorem Backed.browses (h : Backed backend s E) : Browses backend s E.shown := by
  cases h with
  | fs store s => exact store.browses s
  | s3 store s objects holds => exact S3BlobStore.browses holds.reads

/-- What a store selects is what it shows. -/
theorem EnumeratesRecords.selects_iff_shows (h : EnumeratesRecords store s E.shown) :
    SelectsByMetadata store s filter E.visible ↔ E.ShowsSelected filter := by
  have hlist : (exec (store.listWithMetadata filter) s).1 = E.shown.listWithMetadata filter := by
    rw [h.listWithMetadata]
  have hvisit : (execLocal (store.visit filter collector) [] s).1 =
      (walkEnd (E.shown.walk filter).2, E.shown.walkKeys filter) := by
    rw [h.toEnumerates.visit_collector]
  constructor
  · rintro ⟨⟨infos, hinfos, hrecords⟩, keys, hkeys, hwalked⟩
    obtain ⟨hend, rfl⟩ := Prod.mk.inj (hvisit.symm.trans hkeys)
    refine ⟨⟨infos, hlist.symm.trans hinfos, hrecords⟩, ?_, hwalked⟩
    cases hfailure : (E.shown.walk filter).2 with
    | none => rfl
    | some e =>
        rw [hfailure] at hend
        cases hend
  · rintro ⟨⟨infos, hinfos, hrecords⟩, hend, hwalked⟩
    rw [hend] at hvisit
    exact ⟨⟨infos, hlist.trans hinfos, hrecords⟩, _, hvisit, hwalked⟩

/-- `SizeFilter` of the filters guide. -/
def sizeFilter (minBytes : Nat) : ListFilter where
  matchesBlob _ info :=
    match info with
    | some record => decide (minBytes ≤ record.storedSize)
    | none => true

theorem sizeFilter_sound (minBytes : Nat) : (sizeFilter minBytes).SoundHint :=
  ListFilter.soundHint_of_none rfl

theorem walks_nested : FsBlobStore.Walks nestedState
    (combinedPrefixFilter ['a', '/'] (sizeFilter 2)) := by
  refine ⟨rfl, fun hint hhint => ?_⟩
  obtain rfl : ['a', '/'] = hint := Option.some.inj hhint
  refine ⟨by decide, ?_⟩
  have hdir : nestedState.tree.find (FsBlobStore.meant (FsBlobStore.hintDir ['a', '/'])) =
      some .dir := by decide
  rintro (hrefused | ⟨_, hfile⟩)
  · exact FileTree.Volume.not_refused_of_find hdir hrefused
  · obtain ⟨data, hfind⟩ := FileTree.Volume.isFile_iff.mp hfile
    rw [hdir] at hfind
    cases hfind

end BlobStorage
