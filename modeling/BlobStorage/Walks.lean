import BlobStorage.Store
import BlobStorage.Library.Walk

/-!
# Walks of a store

How `visit` comes by the blobs of a store: the entries of some list, each handed to the visitor
once, with nothing of note happening to the store in between.
-/

namespace BlobStorage

open Fallible Walking

variable {σ S : Type}

/-- A call of the visitor, as a step of the walk. -/
def BlobVisitor.Calls (visitor : BlobVisitor (StateM σ) S) (entry : Key × Option BlobMeta) (l : S)
    (s : σ) (verdict : Verdict BlobStorageError) (k : S) (t : σ) : Prop :=
  execLocal (visitor.visit entry.1 entry.2) l s = ((verdict.result, k), t)

/-- `visit`, begun in `l` and `s`, is a walk over the entries, with the steps `Visits`. -/
def WalksOver (store : BlobStore (StateM σ)) (filter : ListFilter)
    (visitor : BlobVisitor (StateM σ) S) (Quiet : σ → σ → Prop)
    (Visits : Key × Option BlobMeta → S → σ → Verdict BlobStorageError → S → σ → Prop)
    (entries : List (Key × Option BlobMeta)) (l : S) (s : σ)
    (ending : Ending BlobStorageError) : Prop :=
  ∃ left k t, execLocal (store.visit filter visitor) l s = ((ending.result, k), t) ∧
    Walk Quiet Visits entries l s ending left k t

theorem verdict_cases (r : Except BlobStorageError Bool) :
    ∃ verdict : Verdict BlobStorageError, r = verdict.result := by
  match r with
  | .ok true => exact ⟨.goOn, rfl⟩
  | .ok false => exact ⟨.stop, rfl⟩
  | .error e => exact ⟨.fail e, rfl⟩

/-- One entry after another is a walk, and one that does not break off. -/
theorem walk_visitEach (visitor : BlobVisitor (StateM σ) S) {Quiet : σ → σ → Prop}
    (hquiet : ∀ s, Quiet s s) (entries : List (Key × Option BlobMeta)) (l : S) (s : σ) :
    ∃ ending left k t, execLocal (visitEach visitor entries) l s = ((ending.result, k), t) ∧
      Walk Quiet visitor.Calls entries l s ending left k t ∧ ∀ e, ending ≠ .broke e := by
  induction entries generalizing l s with
  | nil => exact ⟨.complete, [], l, s, rfl, .complete (hquiet s), by simp⟩
  | cons entry rest ih =>
      obtain ⟨key, info⟩ := entry
      cases hcall : execLocal (visitor.visit key info) l s with
      | mk rk t =>
      obtain ⟨r, k⟩ := rk
      obtain ⟨verdict, rfl⟩ := verdict_cases r
      have hstep : visitor.Calls (key, info) l s verdict k t := hcall
      rw [visitEach, execLocal_bind, hcall]
      cases verdict with
      | goOn =>
          obtain ⟨ending, left, k', t', hrest, hwalk, hunbroken⟩ := ih k t
          exact ⟨ending, left, k', t', hrest, .next (hquiet s) hstep hwalk, hunbroken⟩
      | stop => exact ⟨.stopped, rest, k, t, rfl, .stopped (hquiet s) hstep, by simp⟩
      | fail e => exact ⟨.failed e, rest, k, t, rfl, .failed e (hquiet s) hstep, by simp⟩

end BlobStorage
