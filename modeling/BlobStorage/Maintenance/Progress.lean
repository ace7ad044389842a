import BlobStorage.Maintenance.Queue

/-!
# The worker comes to every task

While the store has a handle, nothing holds the worker up as long as there is a task, and each
task takes it four steps. So a task that waits is started after so many of the worker's own steps
as the tasks before it take, whatever the strategies and the owners do in between.
-/

namespace BlobStorage

namespace Maintenance

open Transition Ownership

/-- The steps of the worker in its loop. -/
def Event.ofWorker : Event → Bool
  | .receive _ => true
  | .start _ => true
  | .skip _ => true
  | .finish _ => true
  | .releaseBody _ => true
  | _ => false

/-- The steps that the worker takes before it starts another body. -/
def Worker.before : Worker → Nat
  | .idle => 1
  | .received _ => 0
  | .running _ => 3
  | .releasing _ => 2
  | .stopped => 0

theorem Worker.before_le (worker : Worker) : worker.before ≤ 3 := by
  cases worker <;> simp [Worker.before]

section Progress

variable {top : Nat} {tasks : List Nat} {history later : List Event} {s t : State} {e : Event}

/-- Once the last handle is given up, there is none any more. -/
theorem inUse_before_step (hstep : Step top s e t) (ht : t.dropping = .not) :
    s.dropping = .not := by
  cases hstep with
  | scheduleFailed phase => cases ht
  | dropLastHandle phase handles => cases ht
  | cancel dropping => cases ht
  | release dropping => exact absurd ht (Dropping.next_ne_not _)
  | _ => exact ht

theorem inUse_before (h : Run (Step top) s later t) (ht : t.dropping = .not) :
    s.dropping = .not := by
  induction h with
  | start => exact ht
  | step _ next ih => exact ih (inUse_before_step next ht)

/-- What the worker gives up at the end of a body is not the last reference to the layer. -/
theorem next_of_releasing (hsound : Sound top s) (hdropping : s.dropping = .not) {i : Nat}
    (hworker : s.worker = .releasing i) : Worker.next (ownedBelow s.strong i) = .idle := by
  have hbalanced := hsound.balanced
  rw [hdropping, hworker] at hbalanced
  have hi : i ≤ top := hbalanced.within i (List.mem_singleton_self i)
  have habove : fromAbove top true s.strong i = 1 := by
    unfold fromAbove
    by_cases htop : i = top
    · rw [if_pos htop]
      rfl
    · rw [if_neg htop, if_pos (hsound.alive hdropping (by omega))]
  have hcount : s.strong i = 1 + 1 := by
    refine (hbalanced.counts i hi).trans ?_
    change fromAbove top true s.strong i + [i].count i = 1 + 1
    rw [habove, List.count_singleton_self]
  rw [ownedBelow, hcount]
  rfl

/-- Each step of the worker is one of those before the next body, or starts that. -/
theorem worker_step (hlow : ∀ i ∈ tasks, i ≤ top) (h : InUse tasks top history s)
    (ht : t.dropping = .not) (hstep : Step top s e t) :
    e.ofWorker.toNat + t.worker.before ≤ s.worker.before + 4 * e.started.toList.length := by
  have hs := inUse_before_step hstep ht
  cases hstep with
  | receive worker queue =>
      rw [worker]
      exact Nat.le_refl 1
  | start worker alive =>
      rw [worker]
      exact Nat.le_refl 4
  | @skip i worker gone =>
      have hknown := h.known.worker i (by rw [worker]; exact List.mem_singleton_self i)
      have halive := h.sound.alive hs (hlow i hknown)
      omega
  | finish worker =>
      rw [worker]
      exact Nat.le_refl 3
  | releaseBody worker =>
      rw [next_of_releasing h.sound hs worker, worker]
      exact Nat.le_refl 2
  | stopCancelled worker cancelled => exact Nat.zero_le _
  | stopClosed worker queue contexts blocked phase => exact Nat.zero_le _
  | _ => exact Nat.le_of_eq (Nat.zero_add _)

/-- The worker takes four steps for each body that it starts, and at most three besides. -/
theorem worker_run (hlow : ∀ i ∈ tasks, i ≤ top) (h : InUse tasks top history s)
    (hlater : Run (Step top) s later t) (ht : t.dropping = .not) :
    later.countP Event.ofWorker + t.worker.before ≤
      s.worker.before + 4 * (later.filterMap Event.started).length := by
  have hrun := hlater.history (fun events u => InUse tasks top (history ++ events) u ∧
    (u.dropping = .not → events.countP Event.ofWorker + u.worker.before ≤
      s.worker.before + 4 * (events.filterMap Event.started).length)) ?_ ?_
  · exact hrun.2 ht
  · intro events u e v hu hstep
    refine ⟨?_, fun hv => ?_⟩
    · rw [← List.append_assoc]
      exact hu.1.step hlow hstep
    · have hsteps := worker_step hlow hu.1 hv hstep
      have hbefore := hu.2 (inUse_before_step hstep hv)
      rw [countP_concat, filterMap_concat, List.length_append]
      omega
  · rw [List.append_nil]
    exact ⟨h, fun _ => Nat.le_of_eq (Nat.zero_add _)⟩

/-- Tasks that wait hold the worker in its loop, where nothing is in its way. -/
theorem worker_goes_on (hdrained : s.worker = .stopped → s.queue = [])
    (hwaiting : s.waiting ≠ []) : ∃ e t, e.ofWorker = true ∧ Step top s e t := by
  cases hworker : s.worker with
  | idle =>
      rw [State.waiting, hworker] at hwaiting
      obtain ⟨i, rest, hqueue⟩ := List.exists_cons_of_ne_nil hwaiting
      exact ⟨.receive i, _, rfl, .receive hworker hqueue⟩
  | received i =>
      obtain hgone | halive := Nat.eq_zero_or_pos (s.strong i)
      · exact ⟨.skip i, _, rfl, .skip hworker hgone⟩
      · exact ⟨.start i, _, rfl, .start hworker halive⟩
  | running i => exact ⟨.finish i, _, rfl, .finish hworker⟩
  | releasing i => exact ⟨.releaseBody i, _, rfl, .releaseBody hworker⟩
  | stopped =>
      rw [State.waiting, hworker, hdrained hworker] at hwaiting
      exact absurd rfl hwaiting

end Progress

end Maintenance

end BlobStorage
