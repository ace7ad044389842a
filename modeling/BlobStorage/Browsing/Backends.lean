import BlobStorage.Backend.Fs.Presence
import BlobStorage.Backend.S3.Pages
import BlobStorage.Encrypt.Shift

/-!
# The backends under a stack

For each backend a walk is the listing in another order, whatever its tree, its pages or
its answers. Over all of them the result on stacks says when a walk through the layers
agrees with a listing through them.
-/

namespace BlobStorage

open Fallible

/-- The backends, each with what it shows in a state: the filesystem, S3, and any store that
relies on the trait's own `visit`. -/
inductive Enumerating : {σ : Type} → BlobStore (StateM σ) → σ → Shown → Prop where
  | fs (store : FsBlobStore) (s : FsState) : Enumerating store.toBlobStore s (store.shown s)
  | s3 {σ : Type} [Clock (StateM σ)] (store : S3BlobStore (StateM σ)) (s : σ)
      (reads : store.ReadsQuietly s) : Enumerating store.toBlobStore s (store.shown s)
  | byDefault {σ : Type} (store : BlobStore (StateM σ)) (s : σ) (shown : Shown)
      (existsBlob : ∀ key, exec (store.existsBlob key) s = (shown.existsBlob key, s))
      (list : ∀ filter, exec (store.list filter) s = (shown.list filter, s)) :
      Enumerating { store with visit := defaultVisit store.list } s shown.withDefaultVisit

/-- Both backends answer to reads as a store whose reads may then fail is asked to. -/
theorem FsBlobStore.answers (store : FsBlobStore) (s : FsState) :
    Answers store.toBlobStore s (store.shown s).toReads := (store.browses s).answers

theorem S3BlobStore.answers {σ : Type} [Clock (StateM σ)] {store : S3BlobStore (StateM σ)} {s : σ}
    (reads : store.ReadsQuietly s) : Answers store.toBlobStore s (store.shown s).toReads :=
  (S3BlobStore.browses reads).answers

variable {σ : Type} {backend : BlobStore (StateM σ)} {s : σ} {shown : Shown}

theorem Enumerating.enumerates (h : Enumerating backend s shown) : Enumerates backend s shown := by
  cases h with
  | fs store s => exact (store.browses s).toEnumerates
  | s3 store s reads => exact (S3BlobStore.browses reads).toEnumerates
  | byDefault store s shown existsBlob list => exact Enumerates.withDefaultVisit existsBlob list

theorem Enumerating.agrees (h : Enumerating backend s shown) : shown.AgreesWhen True := by
  cases h with
  | fs store s => exact Shown.enumerating_agrees _ _ _ _
  | s3 store s reads => exact Shown.enumerating_agrees _ _ _ _
  | byDefault store s shown existsBlob list => exact Shown.AgreesWhen.withDefaultVisit shown

/-- Through a stack over any backend a walk agrees with a listing that succeeds exactly when
every encryption layer can look for the headers of all keys below it. -/
theorem visit_agrees_with_list_iff (h : Enumerating backend s shown)
    (layers : List (Layer (StateM σ))) {filter : ListFilter} {keys : List Key}
    (hsound : filter.SoundHint) (hindependent : filter.MetadataIndependent)
    (hlist : (exec ((applyLayers backend layers).list filter) s).1 = .ok keys) :
    VisitAgrees (applyLayers backend layers) s filter keys ↔
      StackChecksHeaders s shown layers :=
  stack_visitAgrees_iff h.enumerates h.agrees layers hsound hindependent hlist

/-- Encryption over the prefix `a`, which need not end at a separator. -/
def prefixedLayers : List (Layer (StateM FsState)) :=
  [.keyPrefix ['a'], .encryption (RekeyableShiftEncryption.toProvider ⟨1, 0⟩) ['h']]

/-- The blob `x` of that stack: `ax` with its header. -/
def sharedState : FsState :=
  (exec (sampleFs.put [BlobInput.new ['a', 'x'] (Reader.ofBytes [2]),
    BlobInput.new ['a', 'x', 'h'] (Reader.ofBytes [1, 0])]) emptyRoot).2

/-- A filter that selects the blob `x`. -/
def onlyX : ListFilter where
  matchesBlob key _ := decide (key = ['x'])
  prefixHint := some ['x']

theorem onlyX_sound : onlyX.SoundHint := by
  intro hint hhint key _ hmatch
  cases hhint
  obtain rfl : key = ['x'] := of_decide_eq_true hmatch
  exact List.prefix_refl _

theorem visit_agrees_with_list_shared :
    (onlyX.SoundHint ∧ onlyX.MetadataIndependent) ∧
      VisitAgrees (applyLayers sampleFs.toBlobStore prefixedLayers) sharedState onlyX [['x']] := by
  have hindependent : onlyX.MetadataIndependent := fun _ _ _ => rfl
  have hlist : (exec ((applyLayers sampleFs.toBlobStore prefixedLayers).list onlyX)
      sharedState).1 = .ok [['x']] := by decide
  refine ⟨⟨onlyX_sound, hindependent⟩, (visit_agrees_with_list_iff (.fs sampleFs sharedState)
    prefixedLayers onlyX_sound hindependent hlist).mpr ⟨trivial, ?_, trivial⟩⟩
  intro keys hkeys key hkey hreserved
  have hshown : ((sampleFs.shown sharedState).prefixed ['a']).list (suffixFilter []) =
      .ok [['x'], ['x', 'h']] := by decide
  obtain rfl := Except.ok.inj (hshown.symm.trans hkeys)
  obtain rfl | hkey := List.mem_cons.mp hkey
  · exact ⟨true, by decide⟩
  · rw [List.mem_singleton.mp hkey] at hreserved
    exact absurd (by decide) hreserved

/-- The same tree with the object `a/b`, which the prefix layer shows as `/b`. -/
def foreignState : FsState :=
  (exec (sampleFs.put [BlobInput.new ['a', '/', 'b'] (Reader.ofBytes [3])]) sharedState).2

/-- A walk fails at a key that no filter has to select: the header of `/b` is looked for under
a key that no layer accepts. The listing does not look for it. -/
theorem visit_fails_where_list_succeeds :
    onlyX.SoundHint ∧ onlyX.MetadataIndependent ∧
      (exec ((applyLayers sampleFs.toBlobStore prefixedLayers).list onlyX) foreignState).1 =
        .ok [['x']] ∧
      (execLocal ((applyLayers sampleFs.toBlobStore prefixedLayers).visit onlyX collector) []
        foreignState).1.1 ≠ .ok () ∧
      ¬VisitAgrees (applyLayers sampleFs.toBlobStore prefixedLayers) foreignState onlyX [['x']] := by
  have hvisit : (execLocal ((applyLayers sampleFs.toBlobStore prefixedLayers).visit onlyX
      collector) [] foreignState).1.1 ≠ .ok () := by decide
  exact ⟨onlyX_sound, fun _ _ _ => rfl, by decide, hvisit, fun h => hvisit h.completes⟩

end BlobStorage
