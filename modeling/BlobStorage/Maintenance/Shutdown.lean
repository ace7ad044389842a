import BlobStorage.Maintenance.Builder

/-!
# No maintenance after shutdown

Every strong count is the number of its holders, in every order of the steps. When the guard is
gone and the thread that dropped it is done, a layer is alive only beneath the body that still
runs, and that body keeps the worker busy. The tasks that are queued, blocked or sent later find
their layers gone.
-/

namespace BlobStorage

namespace Maintenance

open Transition Ownership

/-- The references that the dropping thread holds. -/
def Dropping.held : Dropping → List Nat
  | .releasing i => [i]
  | _ => []

/-- The references that the worker holds. -/
def Worker.held : Worker → List Nat
  | .running i => [i]
  | .releasing i => [i]
  | _ => []

/-- The guard still owns the topmost store. -/
def Dropping.owned : Dropping → Bool
  | .not => true
  | .cancelling => true
  | _ => false

/-- The invariant of the system. -/
structure Sound (top : Nat) (s : State) : Prop where
  balanced : Balanced top s.dropping.owned s.strong (s.dropping.held ++ s.worker.held)
  handles : 0 < s.handles ↔ s.dropping = .not
  early : (∃ rest, s.phase = .scheduling rest ∨ s.phase = .calling rest) → s.dropping = .not

theorem sound_start (layers : List LayerKind) : Sound layers.length (start layers) where
  balanced := by
    unfold start
    dsimp only
    split
    · exact Balanced.initial layers.length
    · exact Balanced.initial layers.length
  handles := by simp [start]
  early := fun _ => rfl

section Release

variable {top : Nat} {owned : Bool} {strong : Nat → Nat} {held : List Nat} {i : Nat}

/-- What a thread still has to give up after it gave up a reference. -/
theorem balanced_decrement (h : Balanced top owned strong (i :: held)) :
    Balanced top owned (decrement strong i) ((ownedBelow strong i).toList ++ held) := by
  unfold ownedBelow decrement
  by_cases hlast : strong i = 1
  · have hrelease := h.release_last hlast
    rw [hlast]
    by_cases hbottom : i = 0
    · rw [if_pos hbottom] at hrelease
      rw [if_neg (by omega)]
      exact hrelease
    · rw [if_neg hbottom] at hrelease
      rw [if_pos ⟨rfl, hbottom⟩]
      exact hrelease
  · rw [if_neg (by omega)]
    exact h.release_shared hlast

theorem Dropping.held_next (below : Option Nat) : (Dropping.next below).held = below.toList := by
  cases below <;> rfl

theorem Worker.held_next (below : Option Nat) : (Worker.next below).held = below.toList := by
  cases below <;> rfl

theorem Dropping.owned_next (below : Option Nat) : (Dropping.next below).owned = false := by
  cases below <;> rfl

theorem Dropping.next_ne_not (below : Option Nat) : Dropping.next below ≠ .not := by
  cases below <;> simp [Dropping.next]

end Release

/-- Each step keeps the books balanced. -/
theorem Sound.step {top : Nat} {s t : State} {e : Event} (h : Sound top s) (hstep : Step top s e t) :
    Sound top t := by
  obtain ⟨hbalanced, hhandles, hearly⟩ := h
  cases hstep with
  | schedule phase => exact ⟨hbalanced, hhandles, fun _ => hearly ⟨_, .inl phase⟩⟩
  | scheduled phase => exact ⟨hbalanced, hhandles, fun _ => hearly ⟨_, .inr phase⟩⟩
  | scheduleFailed phase =>
      have hnot := hearly ⟨_, .inr phase⟩
      rw [hnot] at hbalanced
      refine ⟨hbalanced, by simp, ?_⟩
      rintro ⟨rest, h | h⟩ <;> cases h
  | built phase =>
      refine ⟨hbalanced, hhandles, ?_⟩
      rintro ⟨rest, h | h⟩ <;> cases h
  | cloneHandle phase handles =>
      refine ⟨hbalanced, ?_, hearly⟩
      exact iff_of_true (Nat.succ_pos _) (hhandles.mp handles)
  | dropHandle phase handles =>
      refine ⟨hbalanced, ?_, hearly⟩
      exact iff_of_true (show 0 < s.handles - 1 by omega) (hhandles.mp (by omega))
  | dropLastHandle phase handles =>
      have hnot := hhandles.mp (by omega)
      rw [hnot] at hbalanced
      refine ⟨hbalanced, by simp, ?_⟩
      rintro ⟨rest, h | h⟩
      · rw [show s.phase = .scheduling rest from h] at phase
        cases phase
      · rw [show s.phase = .calling rest from h] at phase
        cases phase
  | cancel dropping =>
      rw [dropping] at hbalanced hhandles
      refine ⟨hbalanced.disown, ?_, ?_⟩
      · exact iff_of_false (fun h => by cases hhandles.mp h) (by simp)
      · intro hphase
        rw [dropping] at hearly
        cases hearly hphase
  | @release i dropping =>
      rw [dropping] at hbalanced hhandles
      refine ⟨?_, ?_, ?_⟩
      · have hrelease := balanced_decrement hbalanced
        rw [← Dropping.held_next] at hrelease
        rw [show Dropping.owned (.releasing i) = (Dropping.next (ownedBelow s.strong i)).owned from
          (Dropping.owned_next _).symm] at hrelease
        exact hrelease
      · refine iff_of_false (fun h => ?_) (Dropping.next_ne_not _)
        cases hhandles.mp h
      · intro hphase
        rw [dropping] at hearly
        cases hearly hphase
  | cloneContext context => exact ⟨hbalanced, hhandles, hearly⟩
  | dropContext context => exact ⟨hbalanced, hhandles, hearly⟩
  | send context open_ room => exact ⟨hbalanced, hhandles, hearly⟩
  | block context open_ full => exact ⟨hbalanced, hhandles, hearly⟩
  | unblock waits open_ room => exact ⟨hbalanced, hhandles, hearly⟩
  | giveUp waits => exact ⟨hbalanced, hhandles, hearly⟩
  | receive worker queue =>
      rw [worker] at hbalanced
      exact ⟨hbalanced, hhandles, hearly⟩
  | @start i worker alive =>
      rw [worker] at hbalanced
      refine ⟨?_, hhandles, hearly⟩
      have hacquired := hbalanced.acquire alive
      rw [show (Worker.received i).held = [] from rfl, List.append_nil] at hacquired
      exact hacquired.perm (List.perm_append_singleton i s.dropping.held).symm
  | skip worker gone =>
      rw [worker] at hbalanced
      exact ⟨hbalanced, hhandles, hearly⟩
  | finish worker =>
      rw [worker] at hbalanced
      exact ⟨hbalanced, hhandles, hearly⟩
  | @releaseBody i worker =>
      rw [worker] at hbalanced
      refine ⟨?_, hhandles, hearly⟩
      have hfront : (s.dropping.held ++ [i]).Perm (i :: s.dropping.held) := List.perm_append_comm
      have hrelease := balanced_decrement (hbalanced.perm hfront)
      rw [← Worker.held_next] at hrelease
      exact hrelease.perm List.perm_append_comm
  | stopCancelled worker cancelled =>
      rw [worker] at hbalanced
      exact ⟨hbalanced, hhandles, hearly⟩
  | stopClosed worker queue contexts blocked phase =>
      rw [worker] at hbalanced
      exact ⟨hbalanced, hhandles, hearly⟩

/-- The guard is gone, and the thread that dropped it is done. -/
structure Over (top : Nat) (s : State) : Prop extends Sound top s where
  finished : s.dropping = .finished

theorem Over.step {top : Nat} {s t : State} {e : Event} (h : Over top s)
    (hstep : Step top s e t) : Over top t := by
  refine ⟨h.toSound.step hstep, ?_⟩
  have hfinished := h.finished
  have hhandles : ¬0 < s.handles := fun hpos => by
    have hnot := h.handles.mp hpos
    rw [hfinished] at hnot
    cases hnot
  cases hstep with
  | scheduleFailed phase =>
      have hnot := h.early ⟨_, .inr phase⟩
      rw [hfinished] at hnot
      cases hnot
  | dropLastHandle phase handles => omega
  | cancel dropping =>
      rw [hfinished] at dropping
      cases dropping
  | release dropping =>
      rw [hfinished] at dropping
      cases dropping
  | _ => exact hfinished

/-- Only the worker can still hold a layer, and a worker that is about to start a body holds
none. -/
theorem Over.not_start {top : Nat} {s t : State} {i : Nat} (h : Over top s) :
    ¬Step top s (.start i) t := by
  intro hstep
  cases hstep with
  | start worker alive =>
      have hbalanced := h.balanced
      rw [h.finished, worker] at hbalanced
      have hdead := hbalanced.dead i
      omega

/-- A body that runs was running before. -/
theorem Run.running {top : Nat} {s t : State} {events : List Event} {i : Nat}
    (h : Run (Step top) s events t) (hnone : ∀ i, .start i ∉ events)
    (hrunning : t.worker = .running i) : s.worker = .running i := by
  induction h with
  | start => exact hrunning
  | @step events t u e before next ih =>
      have hbefore : ∀ i, .start i ∉ events := fun i hmem => hnone i (List.mem_append_left _ hmem)
      refine ih hbefore ?_
      cases next with
      | start worker alive =>
          exact absurd (List.mem_append_right _ (List.mem_singleton_self _)) (hnone _)
      | releaseBody worker =>
          change Worker.next _ = _ at hrunning
          revert hrunning
          cases ownedBelow t.strong _ <;> simp [Worker.next]
      | receive worker queue => cases hrunning
      | skip worker gone => cases hrunning
      | finish worker => cases hrunning
      | stopCancelled worker cancelled => cases hrunning
      | stopClosed worker queue contexts blocked phase => cases hrunning
      | _ => exact hrunning

/-- Once the last handle has been dropped, or `do_build` has failed, no body of a maintenance
task starts again, and one that still runs was running then. -/
theorem no_maintenance_after_shutdown (layers : List LayerKind) {events later : List Event}
    {s t : State} (h : Run (Step layers.length) (start layers) events s)
    (hover : StoreDropped s ∨ BuildFailed s) (hlater : Run (Step layers.length) s later t) :
    (∀ i, .start i ∉ later) ∧ ∀ i, t.worker = .running i → s.worker = .running i := by
  have hsound := h.invariant (Sound layers.length) (fun _ _ _ => Sound.step) (sound_start layers)
  have hfinished : s.dropping = .finished := by
    obtain hdropped | hfailed := hover
    · exact hdropped.2.2
    · exact hfailed.2
  have hnone : ∀ i, .start i ∉ later := fun i =>
    hlater.not_mem (Over layers.length) (fun _ _ _ => Over.step) (fun _ _ => Over.not_start)
      ⟨hsound, hfinished⟩
  exact ⟨hnone, fun i hrunning => Run.running hlater hnone hrunning⟩

/-- A handle is dropped while a body runs and another task is queued. The body goes on, and the
queued task is skipped. -/
theorem no_maintenance_after_shutdown_running :
    ∃ events later s t, Run (Step 1) (start [.cleanup true]) events s ∧ StoreDropped s ∧
      s.worker = .running 1 ∧ Run (Step 1) s later t ∧ .skip 1 ∈ later ∧
      (∀ i, .start i ∉ later) ∧ ∀ i, t.worker = .running i → s.worker = .running i := by
  have hrun : ∃ s, Run (Step 1) (start [.cleanup true]) [.schedule 1, .scheduled, .built, .send 1,
      .send 1, .receive 1, .start 1, .dropLastHandle, .cancel, .release 1] s ∧ StoreDropped s ∧
      s.worker = .running 1 ∧ s.strong 1 = 1 ∧ s.strong 0 = 1 ∧ s.queue = [1] := by
    refine ⟨_, .head (.schedule rfl) <| .head (.scheduled rfl) <| .head (.built rfl) <|
      .head (.send (List.mem_singleton_self 1) (by decide) (by decide)) <|
      .head (.send (List.mem_singleton_self 1) (by decide) (by decide)) <|
      .head (.receive rfl rfl) <| .head (.start rfl (by decide)) <|
      .head (.dropLastHandle rfl rfl) <| .head (.cancel rfl) <| .single (.release rfl),
      ⟨rfl, rfl, rfl⟩, rfl, rfl, rfl, rfl⟩
  obtain ⟨s, hevents, hdropped, hworker, hlayer, hbackend, hqueue⟩ := hrun
  have hlater : ∃ t, Run (Step 1) s [.finish 1, .releaseBody 1, .releaseBody 0, .receive 1,
      .skip 1] t := by
    have hbelow : ownedBelow s.strong 1 = some 0 := by
      unfold ownedBelow
      rw [if_pos ⟨hlayer, by decide⟩]
    have hbottom : ownedBelow (decrement s.strong 1) 0 = none := by
      unfold ownedBelow
      rw [if_neg (by simp)]
    have hdead : decrement (decrement s.strong 1) 0 1 = 0 := by
      simp [decrement, hlayer]
    refine ⟨_, .head (.finish hworker) <| .head (.releaseBody rfl) <|
      .head (.releaseBody (show Worker.next (ownedBelow s.strong 1) = .releasing 0 by
        rw [hbelow]; rfl)) <|
      .head (.receive (show Worker.next (ownedBelow (decrement s.strong 1) 0) = .idle by
        rw [hbottom]; rfl) hqueue) <| .single (.skip rfl hdead)⟩
  obtain ⟨t, hafter⟩ := hlater
  exact ⟨_, _, s, t, hevents, hdropped, hworker, hafter, by simp,
    no_maintenance_after_shutdown [.cleanup true] hevents (.inl hdropped) hafter⟩

end Maintenance

end BlobStorage
