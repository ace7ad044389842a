import BlobStorage.Maintenance.Convergence

/-!
# What makes the built-in strategies send

How many tasks a strategy enqueues over a whole run: one when it starts, unless it is a
`Manual`, and then at most one for each period that elapses or each trigger that it hears. After
the token is cancelled at most the one that was already under way comes through.
-/

namespace BlobStorage

namespace Maintenance

namespace Strategies

open Transition

/-- A task of the strategy enters the queue. -/
def Event.enqueues (i : Nat) : Event → Bool
  | .send j => j = i
  | .unblock j => j = i
  | _ => false

/-- The tasks that are sent without an occasion. -/
def Builtin.first : Builtin → Nat
  | .manual => 0
  | _ => 1

/-- What lets a strategy send once more. -/
def Builtin.occasion (i : Nat) : Builtin → Event → Bool
  | .periodic _, .elapse j => j = i
  | .manual, .trigger j => j = i
  | _, _ => false

/-- The tasks that a loop may send before the next occasion. -/
def Builtin.due (version : Nat) (strategy : Builtin) : Option Loop → Nat
  | none => strategy.first
  | some ⟨phase, seen⟩ =>
      let unseen := if strategy = .manual ∧ seen ≠ version then 1 else 0
      match phase with
      | .ready => 1 + unseen
      | .passed => 1 + unseen
      | .sending => 1 + unseen
      | .waiting => 1 + unseen
      | .sleeping => 0
      | .checking => 1
      | .listening => unseen
      | .leaving => 0
      | .ended => 0

/-- The same once the token is cancelled. -/
def dueCancelled : Option Loop → Nat
  | some ⟨.passed, _⟩ => 1
  | some ⟨.sending, _⟩ => 1
  | some ⟨.waiting, _⟩ => 1
  | _ => 0

theorem countP_eq_sum (p : Event → Bool) (history : List Event) :
    (history.map fun e => (p e).toNat).sum = history.countP p := by
  induction history with
  | nil => rfl
  | cons e history ih =>
      rw [List.map_cons, List.sum_cons, ih, List.countP_cons]
      cases p e <;> simp [Nat.add_comm]

/-- The tasks that loop `i` may send before the next occasion. -/
def State.due (strategies : Nat → Builtin) (i : Nat) (s : State) : Nat :=
  (strategies i).due (s.version i) (s.loops i)

section Due

variable {strategies : Nat → Builtin} {top : Nat} {tasks : List Nat} {s t : State} {e : Event}
  {i j : Nat} {loop next : Loop}

theorem Builtin.due_spawned (strategy : Builtin) (version : Nat) :
    strategy.due version (some (strategy.spawned version)) ≤ strategy.first := by
  obtain _ | (_ | _) | _ := strategy <;> simp [Builtin.due, Builtin.spawned, Builtin.first]

theorem due_setLoop_self (s : State) (b : Maintenance.State) (i : Nat) (next : Loop) :
    ((s.withBase b).setLoop i next).due strategies i =
      (strategies i).due (s.version i) (some next) := by
  rw [State.due, State.setLoop_loops, Function.update_self]
  rfl

theorem due_setLoop_of_ne (s : State) (b : Maintenance.State) (h : i ≠ j) (next : Loop) :
    ((s.withBase b).setLoop j next).due strategies i = s.due strategies i := by
  rw [State.due, State.setLoop_loops, Function.update_of_ne h]
  rfl

/-- A loop moves on. Nothing changes for the others. -/
theorem due_move (hloop : s.loops j = some loop) (b : Maintenance.State)
    (hothers : j ≠ i → e.enqueues i = false)
    (hcost : j = i → (e.enqueues i).toNat + (strategies i).due (s.version i) (some next) ≤
      (strategies i).due (s.version i) (some loop) + ((strategies i).occasion i e).toNat) :
    (e.enqueues i).toNat + ((s.withBase b).setLoop j next).due strategies i ≤
      s.due strategies i + ((strategies i).occasion i e).toNat := by
  by_cases hsame : j = i
  · subst hsame
    rw [due_setLoop_self, State.due, hloop]
    exact hcost rfl
  · rw [due_setLoop_of_ne s b (Ne.symm hsame), hothers hsame]
    simp

/-- A trigger from outside makes one more task due, if there is a `Manual` that hears it. -/
theorem due_trigger (strategy : Builtin) (version i : Nat) (loop : Option Loop) :
    0 + strategy.due (version + 1) loop ≤
      strategy.due version loop + (strategy.occasion i (.trigger i)).toNat := by
  cases loop with
  | none => simp [Builtin.due]
  | some loop =>
      obtain ⟨phase, seen⟩ := loop
      cases strategy <;> cases phase <;> simp [Builtin.due, Builtin.occasion] <;> split <;> omega

/-- The strategies that sleep, and the one that listens. -/
theorem Builtin.has_sleeping {strategy : Builtin} {phase : LoopPhase}
    (h : strategy.has phase = true) :
    (phase = .sleeping ∨ phase = .checking → ∃ duration, strategy = .periodic duration) ∧
      (phase = .listening → strategy = .manual) := by
  cases strategy <;> cases phase <;> simp_all [Builtin.has]

/-- Each step sends what was due, or is an occasion for more. -/
theorem due_step (hagrees : Agrees strategies tasks s) (h : Step strategies top s e t) :
    (e.enqueues i).toNat + t.due strategies i ≤
      s.due strategies i + ((strategies i).occasion i e).toNat := by
  have hhas := hagrees.has i
  cases h with
  | system own step => simp [Event.enqueues, State.due]
  | @schedule j b step =>
      by_cases hsame : j = i
      · subst hsame
        have hspawned := (strategies j).due_spawned (s.version j)
        rw [due_setLoop_self, State.due, hagrees.unscheduled step]
        simp only [Event.enqueues, Builtin.due] at hspawned ⊢
        simpa using Nat.le_add_right_of_le hspawned
      · rw [due_setLoop_of_ne s b (Ne.symm hsame)]
        simp [Event.enqueues]
  | pass loop uncancelled =>
      exact due_move loop s.base (fun _ => rfl) (fun _ => by simp [Event.enqueues, Builtin.due])
  | heed loop heeds cancelled =>
      exact due_move loop s.base (fun _ => rfl) (fun _ => by simp [Event.enqueues, Builtin.due])
  | @send j seen phase b loop triggers step =>
      refine due_move loop b (fun hne => by simp [Event.enqueues, hne]) ?_
      rintro rfl
      obtain rfl | rfl := LoopPhase.triggers_cases triggers <;> cases strategies j
      all_goals simp [Event.enqueues, Builtin.due, Builtin.afterTrigger]
  | block loop triggers step =>
      refine due_move loop _ (fun _ => rfl) (fun _ => ?_)
      obtain rfl | rfl := LoopPhase.triggers_cases triggers
      all_goals simp [Event.enqueues, Builtin.due]
  | @unblock j seen b loop step =>
      refine due_move loop b (fun hne => by simp [Event.enqueues, hne]) ?_
      rintro rfl
      cases strategies j
      all_goals simp [Event.enqueues, Builtin.due, Builtin.afterTrigger]
  | refused loop triggers stopped =>
      exact due_move loop s.base (fun _ => rfl) (fun _ => by simp [Event.enqueues, Builtin.due])
  | refusedWaiting loop stopped step =>
      exact due_move loop _ (fun _ => rfl) (fun _ => by simp [Event.enqueues, Builtin.due])
  | abandon loop onStart cancelled step =>
      exact due_move loop _ (fun _ => rfl) (fun _ => by simp [Event.enqueues, Builtin.due])
  | @elapse j seen loop =>
      refine due_move loop s.base (fun _ => rfl) ?_
      rintro rfl
      obtain ⟨duration, hperiodic⟩ := (Builtin.has_sleeping (hhas _ loop)).1 (.inl rfl)
      simp [hperiodic, Event.enqueues, Builtin.due, Builtin.occasion]
  | @proceed j seen loop uncancelled =>
      refine due_move loop s.base (fun _ => rfl) ?_
      rintro rfl
      obtain ⟨duration, hperiodic⟩ := (Builtin.has_sleeping (hhas _ loop)).1 (.inr rfl)
      simp [hperiodic, Event.enqueues, Builtin.due]
  | @wake j seen loop moved =>
      refine due_move loop s.base (fun _ => rfl) ?_
      rintro rfl
      have hmanual := (Builtin.has_sleeping (hhas _ loop)).2 rfl
      simp [hmanual, moved, Event.enqueues, Builtin.due]
  | senderGone loop closed =>
      exact due_move loop s.base (fun _ => rfl) (fun _ => by simp [Event.enqueues, Builtin.due])
  | leave loop step =>
      exact due_move loop _ (fun _ => rfl) (fun _ => by simp [Event.enqueues, Builtin.due])
  | @trigger j open_ =>
      change 0 + (strategies i).due (Function.update s.version j (s.version j + 1) i) (s.loops i) ≤
        (strategies i).due (s.version i) (s.loops i) + _
      by_cases hsame : i = j
      · subst hsame
        rw [Function.update_self]
        exact due_trigger _ _ _ _
      · rw [Function.update_of_ne hsame]
        omega
  | close open_ => simp [Event.enqueues, State.due]

/-- Once the token is cancelled, a strategy other than `Manual` sends only what it had already
set out to send. -/
theorem dueCancelled_step (hagrees : Agrees strategies tasks s) (hsound : Sound top s.base)
    (huncancelled : CancelledByGuard s.base) (hcancelled : s.base.cancelled = true)
    (hstrategy : strategies i ≠ .manual) (h : Step strategies top s e t) :
    (e.enqueues i).toNat + dueCancelled (t.loops i) ≤ dueCancelled (s.loops i) + 0 := by
  have move : ∀ {j loop next} {b : Maintenance.State} {e : Event}, s.loops j = some loop →
      (j ≠ i → e.enqueues i = false) →
      (j = i → (e.enqueues i).toNat + dueCancelled (some next) ≤ dueCancelled (some loop)) →
      (e.enqueues i).toNat + dueCancelled (((s.withBase b).setLoop j next).loops i) ≤
        dueCancelled (s.loops i) + 0 := by
    intro j loop next b e hloop hothers hcost
    rw [State.setLoop_loops, State.withBase_loops]
    by_cases hsame : j = i
    · subst hsame
      rw [Function.update_self, hloop]
      exact hcost rfl
    · rw [Function.update_of_ne (Ne.symm hsame), hothers hsame]
      simp
  have hhas := hagrees.has i
  cases h with
  | system own step => simp [Event.enqueues]
  | schedule step =>
      cases step with
      | schedule phase => exact absurd (hsound.early ⟨_, .inl phase⟩) (huncancelled hcancelled).1
  | pass loop uncancelled =>
      rw [hcancelled] at uncancelled
      cases uncancelled
  | @heed j seen phase loop heeds cancelled =>
      exact move (b := s.base) loop (fun _ => rfl) (fun _ => by simp [Event.enqueues, dueCancelled])
  | @send j seen phase b loop triggers step =>
      refine move loop (fun hne => by simp [Event.enqueues, hne]) ?_
      rintro rfl
      obtain rfl | rfl := LoopPhase.triggers_cases triggers <;> cases hs : strategies j
      all_goals simp_all [Event.enqueues, dueCancelled, Builtin.afterTrigger]
  | block loop triggers step =>
      refine move loop (fun _ => rfl) (fun _ => ?_)
      obtain rfl | rfl := LoopPhase.triggers_cases triggers
      all_goals simp [Event.enqueues, dueCancelled]
  | @unblock j seen b loop step =>
      refine move loop (fun hne => by simp [Event.enqueues, hne]) ?_
      rintro rfl
      cases hs : strategies j
      all_goals simp_all [Event.enqueues, dueCancelled, Builtin.afterTrigger]
  | refused loop triggers stopped =>
      exact move (b := s.base) loop (fun _ => rfl) (fun _ => by simp [Event.enqueues, dueCancelled])
  | refusedWaiting loop stopped step =>
      exact move loop (fun _ => rfl) (fun _ => by simp [Event.enqueues, dueCancelled])
  | abandon loop onStart cancelled step =>
      exact move loop (fun _ => rfl) (fun _ => by simp [Event.enqueues, dueCancelled])
  | elapse loop =>
      exact move (b := s.base) loop (fun _ => rfl) (fun _ => by simp [Event.enqueues, dueCancelled])
  | proceed loop uncancelled =>
      rw [hcancelled] at uncancelled
      cases uncancelled
  | @wake j seen loop moved =>
      refine move (b := s.base) loop (fun _ => rfl) ?_
      rintro rfl
      exact absurd ((Builtin.has_sleeping (hhas _ loop)).2 rfl) hstrategy
  | senderGone loop closed =>
      exact move (b := s.base) loop (fun _ => rfl) (fun _ => by simp [Event.enqueues, dueCancelled])
  | leave loop step =>
      exact move loop (fun _ => rfl) (fun _ => by simp [Event.enqueues, dueCancelled])
  | trigger open_ => simp [Event.enqueues]
  | close open_ => simp [Event.enqueues]

theorem dueCancelled_le (loop : Option Loop) : dueCancelled loop ≤ 1 := by
  cases loop with
  | none => exact Nat.zero_le _
  | some loop =>
      obtain ⟨phase, seen⟩ := loop
      cases phase <;> simp [dueCancelled]

end Due

/-- In every run, each strategy enqueues at most one task when it starts, unless it is a
`Manual`, and one more for each period that elapses or each trigger that it hears. Once the token
is cancelled, one that is not a `Manual` enqueues at most one more. -/
theorem tasks_have_occasions (strategies : Nat → Builtin) (layers : List LayerKind)
    {history : List Event} {s : State}
    (h : Run (Step strategies layers.length) (start layers) history s) (i : Nat) :
    history.countP (Event.enqueues i) ≤
        (strategies i).first + history.countP ((strategies i).occasion i) ∧
      (s.base.cancelled = true → strategies i ≠ .manual → ∀ later t,
        Run (Step strategies layers.length) s later t → later.countP (Event.enqueues i) ≤ 1) := by
  have hkeeps := @Settled.step strategies layers.length (collectTasks 1 layers)
  have hstart := settled_start strategies layers
  constructor
  · have hsent := h.amortized _ (State.due strategies i) (fun e => (e.enqueues i).toNat)
      (fun e => ((strategies i).occasion i e).toNat) (fun _ _ _ => hkeeps)
      (fun _ _ _ hs => due_step hs.agrees) hstart
    rw [countP_eq_sum, countP_eq_sum] at hsent
    exact Nat.le_trans (Nat.le_add_right _ _) hsent
  · intro hcancelled hstrategy later t hlater
    have hs := h.invariant _ (fun _ _ _ => hkeeps) hstart
    have hsent := hlater.amortized
      (fun s => Settled strategies (collectTasks 1 layers) layers.length s ∧
        s.base.cancelled = true)
      (fun s => dueCancelled (s.loops i)) (fun e => (e.enqueues i).toNat) (fun _ => 0)
      (fun _ _ _ hs hstep => ⟨hkeeps hs.1 hstep, cancelled_step hstep hs.2⟩)
      (fun _ _ _ hs => dueCancelled_step hs.1.agrees hs.1.sound hs.1.uncancelled hs.2 hstrategy)
      ⟨hs, hcancelled⟩
    rw [countP_eq_sum] at hsent
    have hdue := dueCancelled_le (s.loops i)
    have hnone : (later.map fun _ => 0).sum = 0 := by simp
    omega

theorem tasks_have_occasions_dropped :
    ∃ s, Run (Step (fun _ => .periodic 60) 1) (start [.cleanup true]) droppedEvents s ∧
      s.base.cancelled = true ∧
      droppedEvents.countP (Event.enqueues 1) ≤
        (Builtin.periodic 60).first +
          droppedEvents.countP ((Builtin.periodic 60).occasion 1) ∧
      ∀ later t, Run (Step (fun _ => .periodic 60) 1) s later t →
        later.countP (Event.enqueues 1) ≤ 1 := by
  obtain ⟨s, hrun, hcancelled, _⟩ := dropped_run
  obtain ⟨hsent, hafter⟩ := tasks_have_occasions (fun _ => .periodic 60) [.cleanup true] hrun 1
  exact ⟨s, hrun, hcancelled, hsent, hafter hcancelled (by simp)⟩

end Strategies

end Maintenance

end BlobStorage
