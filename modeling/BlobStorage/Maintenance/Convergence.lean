import BlobStorage.Maintenance.Strategies
import Mathlib.Data.Nat.Init

/-!
# Shutdown comes to an end

Once the token is cancelled, the built-in strategies and the worker have only so much left to do,
whatever the order of the steps and however often the clock ticks; only a `Manual` that is still
triggered can add to it. A run that cannot go on has ended every loop and the worker, and has
freed every store.
-/

namespace BlobStorage

namespace Maintenance

namespace Strategies

open Transition Ownership

/-- The events that come from outside: the owners of a `Manual` handle make them. -/
def Event.outside : Event → Bool
  | .trigger _ => true
  | .close _ => true
  | _ => false

/-- What an event from outside may add to what is left to do. -/
def Event.pays : Event → Nat
  | .trigger i => i + 8
  | .close _ => 1
  | _ => 0

/-- The most steps that a queued task takes, down to the backend that its body may free. -/
def taskCost (i : Nat) : Nat := i + 4

/-- What a loop still has to do, and what the tasks that it may send will take. -/
def loopCost (version i : Nat) : Option Loop → Nat
  | none => 0
  | some ⟨phase, seen⟩ =>
      let unseen := if seen = version then 0 else i + 7
      match phase with
      | .ready => 2
      | .passed => i + 9 + unseen
      | .sending => i + 9 + unseen
      | .waiting => i + 8 + unseen
      | .sleeping => 3
      | .checking => 2
      | .listening => 3 + unseen
      | .leaving => 1
      | .ended => 0

def workerCost : Worker → Nat
  | .idle => 1
  | .received i => i + 4
  | .running i => i + 3
  | .releasing i => i + 2
  | .stopped => 0

def droppingCost : Dropping → Nat
  | .releasing i => i + 1
  | _ => 0

/-- What the system still has to do. -/
def State.left (tasks : List Nat) (s : State) : Nat :=
  droppingCost s.base.dropping + workerCost s.base.worker + (s.base.queue.map taskCost).sum +
    (tasks.map fun i => loopCost (s.version i) i (s.loops i)).sum

theorem workerCost_next (strong : Nat → Nat) (i : Nat) :
    workerCost (Worker.next (ownedBelow strong i)) + 1 ≤ workerCost (.releasing i) := by
  unfold ownedBelow
  split
  · next h =>
      change i - 1 + 2 + 1 ≤ i + 2
      omega
  · change 1 + 1 ≤ i + 2
    omega

theorem droppingCost_next (strong : Nat → Nat) (i : Nat) :
    droppingCost (Dropping.next (ownedBelow strong i)) + 1 ≤ droppingCost (.releasing i) := by
  unfold ownedBelow
  split
  · next h =>
      change i - 1 + 1 + 1 ≤ i + 1
      omega
  · change 0 + 1 ≤ i + 1
    omega

/-- Changing one summand. -/
theorem sum_map_change {tasks : List Nat} (hdistinct : tasks.Nodup) {i : Nat} (hi : i ∈ tasks)
    {f g : Nat → Nat} (hothers : ∀ j, j ≠ i → g j = f j) :
    (tasks.map g).sum + f i = (tasks.map f).sum + g i := by
  rw [← List.sum_map_erase f hi, ← List.sum_map_erase g hi]
  have hrest : (tasks.erase i).map g = (tasks.erase i).map f := by
    refine List.map_congr_left fun j hj => hothers j ?_
    rintro rfl
    exact hdistinct.not_mem_erase hj
  rw [hrest]
  omega

/-- Raising one summand. -/
theorem sum_map_le {tasks : List Nat} (hdistinct : tasks.Nodup) {i n : Nat} {f g : Nat → Nat}
    (hothers : ∀ j, j ≠ i → g j = f j) (hi : g i ≤ f i + n) :
    (tasks.map g).sum ≤ (tasks.map f).sum + n := by
  by_cases hmem : i ∈ tasks
  · have hsum := sum_map_change hdistinct hmem hothers
    omega
  · have hsame : tasks.map g = tasks.map f := by
      refine List.map_congr_left fun j hj => hothers j ?_
      rintro rfl
      exact hmem hj
    rw [hsame]
    exact Nat.le_add_right _ _

/-- A trigger adds the task that it may lead to, and what the loop does for it. -/
theorem loopCost_le (version version' i : Nat) (loop : Option Loop) :
    loopCost version' i loop ≤ loopCost version i loop + (i + 7) := by
  cases loop with
  | none => exact Nat.zero_le _
  | some loop =>
      obtain ⟨phase, seen⟩ := loop
      cases phase <;> simp only [loopCost] <;> (repeat' split) <;> omega

/-- The steps of the builder, the owners and the worker that are left once the token is
cancelled. -/
theorem system_cost {top : Nat} {a b : Maintenance.State} {e : Maintenance.Event}
    (hsound : Sound top a) (huncancelled : CancelledByGuard a) (hcancelled : a.cancelled = true)
    (own : ofSystem e = true) (h : Maintenance.Step top a e b) :
    1 + (droppingCost b.dropping + workerCost b.worker + (b.queue.map taskCost).sum) ≤
      droppingCost a.dropping + workerCost a.worker + (a.queue.map taskCost).sum := by
  have hnot := (huncancelled hcancelled).1
  have hhandles : ¬0 < a.handles := fun hpos => hnot (hsound.handles.mp hpos)
  cases h with
  | scheduled phase => exact absurd (hsound.early ⟨_, .inr phase⟩) hnot
  | built phase => exact absurd (hsound.early ⟨_, .inl phase⟩) hnot
  | cloneHandle phase handles => exact absurd handles hhandles
  | dropHandle phase handles => omega
  | dropLastHandle phase handles => omega
  | cancel dropping => exact absurd dropping (huncancelled hcancelled).2
  | @release i dropping =>
      have hnext := droppingCost_next a.strong i
      rw [dropping]
      dsimp only
      omega
  | @receive i rest worker queue =>
      rw [worker, queue, List.map_cons, List.sum_cons]
      simp only [workerCost, taskCost]
      omega
  | @start i worker alive =>
      rw [worker]
      simp only [workerCost]
      omega
  | @skip i worker gone =>
      rw [worker]
      simp only [workerCost]
      omega
  | @finish i worker =>
      rw [worker]
      simp only [workerCost]
      omega
  | @releaseBody i worker =>
      have hnext := workerCost_next a.strong i
      rw [worker]
      dsimp only
      omega
  | stopCancelled worker cancelled =>
      rw [worker, List.map_nil, List.sum_nil]
      simp only [workerCost]
      omega
  | stopClosed worker queue contexts blocked phase =>
      rw [worker]
      simp only [workerCost]
      omega
  | schedule phase => cases own
  | scheduleFailed phase => cases own
  | cloneContext context => cases own
  | dropContext context => cases own
  | send context open_ room => cases own
  | block context open_ full => cases own
  | unblock waits open_ room => cases own
  | giveUp waits => cases own

section Left

variable {strategies : Nat → Builtin} {top : Nat} {tasks : List Nat} {s t : State} {e : Event}
  {i : Nat} {loop next : Loop}

/-- A loop moves on, by itself or with a step of the system. -/
theorem left_move (hdistinct : tasks.Nodup) (hi : i ∈ tasks) (hloop : s.loops i = some loop)
    (b : Maintenance.State) (hdropping : b.dropping = s.base.dropping)
    (hworker : b.worker = s.base.worker)
    (hcost : 1 + (b.queue.map taskCost).sum + loopCost (s.version i) i (some next) ≤
      (s.base.queue.map taskCost).sum + loopCost (s.version i) i (some loop)) :
    1 + ((s.withBase b).setLoop i next).left tasks ≤ s.left tasks := by
  have hsum := sum_map_change hdistinct hi
    (f := fun j => loopCost (s.version j) j (s.loops j))
    (g := fun j => loopCost (s.version j) j (Function.update s.loops i (some next) j))
    (fun j hj => by rw [Function.update_of_ne hj])
  rw [Function.update_self, hloop] at hsum
  unfold State.left
  simp only [State.setLoop_base, State.withBase_base, State.setLoop_loops, State.withBase_loops,
    State.setLoop_version, State.withBase_version, hdropping, hworker]
  omega

/-- Once the token is cancelled, each step does some of what is left, or comes from outside. -/
theorem left_step (hdistinct : tasks.Nodup) (hagrees : Agrees strategies tasks s)
    (hsound : Sound top s.base) (huncancelled : CancelledByGuard s.base)
    (hcancelled : s.base.cancelled = true) (h : Step strategies top s e t) :
    1 + t.left tasks ≤ s.left tasks + e.pays := by
  have alone : ∀ {i loop next}, s.loops i = some loop →
      1 + loopCost (s.version i) i (some next) ≤ loopCost (s.version i) i (some loop) →
      1 + (s.setLoop i next).left tasks ≤ s.left tasks := by
    intro i loop next hloop hcost
    exact left_move hdistinct (hagrees.known i loop hloop) hloop s.base rfl rfl (by omega)
  cases h with
  | system own step =>
      have hcost := system_cost hsound huncancelled hcancelled own step
      unfold State.left
      simp only [State.withBase_base, State.withBase_loops, State.withBase_version]
      omega
  | schedule step =>
      cases step with
      | schedule phase => exact absurd (hsound.early ⟨_, .inl phase⟩) (huncancelled hcancelled).1
  | pass loop uncancelled =>
      rw [hcancelled] at uncancelled
      cases uncancelled
  | heed loop heeds cancelled =>
      refine alone loop ?_
      obtain rfl | rfl | rfl | rfl := LoopPhase.heeds_cases heeds
      all_goals
        simp only [loopCost]
        omega
  | @send i seen phase b loop triggers step =>
      cases step with
      | send context open_ room =>
          refine left_move hdistinct (hagrees.known i _ loop) loop _ rfl rfl ?_
          rw [List.map_append, List.sum_append]
          obtain rfl | rfl := LoopPhase.triggers_cases triggers <;> cases strategies i
          all_goals
            simp only [Builtin.afterTrigger, loopCost, List.map_singleton, List.sum_singleton,
              taskCost]
            omega
  | @block i seen phase b loop triggers step =>
      cases step with
      | block context open_ full =>
          refine left_move hdistinct (hagrees.known i _ loop) loop _ rfl rfl ?_
          obtain rfl | rfl := LoopPhase.triggers_cases triggers
          all_goals
            simp only [loopCost]
            omega
  | @unblock i seen b loop step =>
      cases step with
      | unblock waits open_ room =>
          refine left_move hdistinct (hagrees.known i _ loop) loop _ rfl rfl ?_
          rw [List.map_append, List.sum_append]
          cases strategies i
          all_goals
            simp only [Builtin.afterTrigger, loopCost, List.map_singleton, List.sum_singleton,
              taskCost]
            omega
  | refused loop triggers stopped =>
      refine alone loop ?_
      obtain rfl | rfl := LoopPhase.triggers_cases triggers
      all_goals
        simp only [loopCost]
        omega
  | @refusedWaiting i seen b loop stopped step =>
      cases step with
      | giveUp waits =>
          refine left_move hdistinct (hagrees.known i _ loop) loop _ rfl rfl ?_
          simp only [loopCost]
          omega
  | @abandon i seen b loop onStart cancelled step =>
      cases step with
      | giveUp waits =>
          refine left_move hdistinct (hagrees.known i _ loop) loop _ rfl rfl ?_
          simp only [loopCost]
          omega
  | elapse loop => exact alone loop (by simp only [loopCost]; omega)
  | proceed loop uncancelled =>
      rw [hcancelled] at uncancelled
      cases uncancelled
  | @wake i seen loop moved =>
      refine alone loop ?_
      simp only [loopCost, if_neg moved, if_pos]
      omega
  | senderGone loop closed => exact alone loop (by simp only [loopCost]; omega)
  | @leave i seen b loop step =>
      cases step with
      | dropContext context =>
          refine left_move hdistinct (hagrees.known i _ loop) loop _ rfl rfl ?_
          simp only [loopCost]
          omega
  | @trigger i open_ =>
      have hsum : (tasks.map fun j => loopCost (Function.update s.version i (s.version i + 1) j) j
          (s.loops j)).sum ≤
          (tasks.map fun j => loopCost (s.version j) j (s.loops j)).sum + (i + 7) := by
        refine sum_map_le hdistinct (fun j hj => by rw [Function.update_of_ne hj]) ?_
        exact loopCost_le _ _ i _
      unfold State.left
      dsimp only [Event.pays]
      omega
  | close open_ =>
      change 1 + s.left tasks ≤ s.left tasks + 1
      omega

end Left

/-- The invariant of the system with the built-in strategies. -/
structure Settled (strategies : Nat → Builtin) (tasks : List Nat) (top : Nat) (s : State) :
    Prop where
  agrees : Agrees strategies tasks s
  sound : Sound top s.base
  known : Known tasks s.base
  uncancelled : CancelledByGuard s.base
  drained : s.base.worker = .stopped → s.base.queue = []

section Invariant

variable {strategies : Nat → Builtin} {top : Nat} {tasks : List Nat} {s t : State} {e : Event}

theorem Settled.step (h : Settled strategies tasks top s) (hstep : Step strategies top s e t) :
    Settled strategies tasks top t where
  agrees := h.agrees.step h.known.phase hstep
  sound := hstep.keeps (fun _ _ _ => Sound.step) h.sound
  known := hstep.keeps (fun _ _ _ => Known.step) h.known
  uncancelled := by
    refine (hstep.keeps (I := fun b => Sound top b ∧ CancelledByGuard b) ?_
      ⟨h.sound, h.uncancelled⟩).2
    exact fun _ _ _ hb hbase => ⟨hb.1.step hbase, hb.2.step hb.1 hbase⟩
  drained := hstep.keeps (fun _ _ _ => drained_step) h.drained

theorem nodup_collectTasks (first : Nat) (layers : List LayerKind) :
    (collectTasks first layers).Nodup := by
  induction layers generalizing first with
  | nil => exact List.nodup_nil
  | cons layer layers ih =>
      rw [collectTasks, List.nodup_append]
      refine ⟨by cases layer <;> simp only [LayerKind.tasks] <;> (try split) <;> simp, ih _, ?_⟩
      intro i hi j hj
      have hfirst : i = first := by
        cases layer <;> simp_all [LayerKind.tasks]
      have hbounds := mem_collectTasks_le hj
      omega

theorem settled_start (strategies : Nat → Builtin) (layers : List LayerKind) :
    Settled strategies (collectTasks 1 layers) layers.length (start layers) where
  agrees := by
    refine ⟨fun _ _ => rfl, nodup_collectTasks 1 layers, fun _ => rfl, fun _ => rfl, ?_, ?_⟩
    · intro i loop hloop
      cases hloop
    · intro i loop hloop
      cases hloop
  sound := sound_start layers
  known := known_start layers
  uncancelled := by
    intro hcancelled
    cases hcancelled
  drained := fun _ => rfl

/-- Nothing takes a cancellation back. -/
theorem cancelled_step (hstep : Step strategies top s e t) (h : s.base.cancelled = true) :
    t.base.cancelled = true := by
  refine hstep.keeps (I := fun b => b.cancelled = true) ?_ h
  intro a e b hcancelled hbase
  cases hbase <;> first | exact hcancelled | rfl

end Invariant

/-- Every loop has ended, and so has the worker; every store has been freed. -/
structure Quiescent (s : State) : Prop where
  loops : ∀ i loop, s.loops i = some loop → loop.phase = .ended
  worker : s.base.worker = .stopped
  queue : s.base.queue = []
  blocked : s.base.blocked = []
  contexts : s.base.contexts = []
  freed : ∀ i, s.base.strong i = 0

section Progress

variable {strategies : Nat → Builtin} {top : Nat} {tasks : List Nat} {s : State}

/-- Some step is possible that does not come from outside. -/
def CanStep (strategies : Nat → Builtin) (top : Nat) (s : State) : Prop :=
  ∃ e t, e.outside = false ∧ Step strategies top s e t

theorem canStep_system {e : Maintenance.Event} {b : Maintenance.State} (own : ofSystem e = true)
    (h : Maintenance.Step top s.base e b) : CanStep strategies top s :=
  ⟨.system e, _, rfl, .system own h⟩

/-- A worker that has not stopped can go on. -/
theorem worker_canStep (hcancelled : s.base.cancelled = true)
    (hworker : s.base.worker ≠ .stopped) : CanStep strategies top s := by
  cases hw : s.base.worker with
  | idle => exact canStep_system rfl (.stopCancelled hw hcancelled)
  | received i =>
      obtain hgone | halive := Nat.eq_zero_or_pos (s.base.strong i)
      · exact canStep_system rfl (.skip hw hgone)
      · exact canStep_system rfl (.start hw halive)
  | running i => exact canStep_system rfl (.finish hw)
  | releasing i => exact canStep_system rfl (.releaseBody hw)
  | stopped => exact absurd hw hworker

/-- A loop that has not ended can go on, once the worker has stopped. -/
theorem loop_canStep (hagrees : Agrees strategies tasks s) (hcancelled : s.base.cancelled = true)
    (hworker : s.base.worker = .stopped) {i : Nat} {loop : Loop} (hloop : s.loops i = some loop)
    (hphase : loop.phase ≠ .ended) : CanStep strategies top s := by
  obtain ⟨phase, seen⟩ := loop
  cases phase with
  | ready => exact ⟨.heed i, _, rfl, .heed hloop rfl hcancelled⟩
  | sleeping => exact ⟨.heed i, _, rfl, .heed hloop rfl hcancelled⟩
  | checking => exact ⟨.heed i, _, rfl, .heed hloop rfl hcancelled⟩
  | listening => exact ⟨.heed i, _, rfl, .heed hloop rfl hcancelled⟩
  | passed => exact ⟨.refused i, _, rfl, .refused hloop rfl hworker⟩
  | sending => exact ⟨.refused i, _, rfl, .refused hloop rfl hworker⟩
  | waiting =>
      have hwaits : i ∈ s.base.blocked := by
        rw [← List.count_pos_iff, hagrees.blocked, hloop]
        exact Nat.one_pos
      exact ⟨.refusedWaiting i, _, rfl, .refusedWaiting hloop hworker (.giveUp hwaits)⟩
  | leaving =>
      have hcontext : i ∈ s.base.contexts := by
        rw [← List.count_pos_iff, hagrees.contexts, hloop]
        exact Nat.one_pos
      exact ⟨.leave i, _, rfl, .leave hloop (.dropContext hcontext)⟩
  | ended => exact absurd rfl hphase

/-- A cancelled system that cannot go on by itself is quiet. -/
theorem quiescent_of_stuck (h : Settled strategies tasks top s)
    (hcancelled : s.base.cancelled = true) (hstuck : ¬CanStep strategies top s) :
    Quiescent s := by
  have hworker : s.base.worker = .stopped := by
    by_contra hrunning
    exact hstuck (worker_canStep hcancelled hrunning)
  have hended : ∀ i loop, s.loops i = some loop → loop.phase = .ended := by
    intro i loop hloop
    by_contra hphase
    exact hstuck (loop_canStep h.agrees hcancelled hworker hloop hphase)
  have hdropping : s.base.dropping = .finished := by
    obtain ⟨hnot, hcancelling⟩ := h.uncancelled hcancelled
    cases hd : s.base.dropping with
    | not => exact absurd hd hnot
    | cancelling => exact absurd hd hcancelling
    | releasing i => exact absurd (canStep_system rfl (.release hd)) hstuck
    | finished => rfl
  have hnone : ∀ i, waitsOf (s.loops i) = 0 ∧ contextsOf (s.loops i) = 0 := by
    intro i
    cases hloop : s.loops i with
    | none => exact ⟨rfl, rfl⟩
    | some loop =>
        obtain ⟨phase, seen⟩ := loop
        obtain rfl : phase = .ended := hended i _ hloop
        exact ⟨rfl, rfl⟩
  refine ⟨hended, hworker, h.drained hworker, ?_, ?_, ?_⟩
  · refine List.eq_nil_iff_forall_not_mem.mpr fun i hi => ?_
    have hcount := List.count_pos_iff.mpr hi
    rw [h.agrees.blocked, (hnone i).1] at hcount
    omega
  · refine List.eq_nil_iff_forall_not_mem.mpr fun i hi => ?_
    have hcount := List.count_pos_iff.mpr hi
    rw [h.agrees.contexts, (hnone i).2] at hcount
    omega
  · have hbalanced := h.sound.balanced
    rw [hdropping, hworker] at hbalanced
    exact hbalanced.dead

/-- It can always be brought to rest, without anything from outside. -/
theorem exists_run_to_rest (hdistinct : tasks.Nodup) (h : Settled strategies tasks top s)
    (hcancelled : s.base.cancelled = true) :
    ∃ later t, Run (Step strategies top) s later t ∧ (∀ e ∈ later, e.outside = false) ∧
      Quiescent t := by
  induction hleft : s.left tasks using Nat.strong_induction_on generalizing s with
  | _ n ih =>
  by_cases hstuck : CanStep strategies top s
  · obtain ⟨e, t, hinside, hstep⟩ := hstuck
    have hcost := left_step hdistinct h.agrees h.sound h.uncancelled hcancelled hstep
    have hpays : e.pays = 0 := by
      cases e <;> first | rfl | cases hinside
    obtain ⟨later, u, hrun, hlater, hquiet⟩ :=
      ih _ (by omega) (h.step hstep) (cancelled_step hstep hcancelled) rfl
    exact ⟨e :: later, u, .head hstep hrun, List.forall_mem_cons.mpr ⟨hinside, hlater⟩, hquiet⟩
  · exact ⟨[], s, .start, List.forall_mem_nil _, quiescent_of_stuck h hcancelled hstuck⟩

end Progress

/-- The store is dropped while the loop of a periodic cleanup sleeps and its task is queued. -/
def droppedEvents : List Event :=
  [.schedule 1, .system .scheduled, .system .built, .send 1, .system .dropLastHandle,
    .system .cancel]

theorem dropped_run :
    ∃ s, Run (Step (fun _ => .periodic 60) 1) (start [.cleanup true]) droppedEvents s ∧
      s.base.cancelled = true ∧ s.loops 1 = some ⟨.sleeping, 0⟩ := by
  refine ⟨_, .head (.schedule (.schedule rfl)) <| .head (.system rfl (.scheduled rfl)) <|
    .head (.system rfl (.built rfl)) <|
    .head (@Step.send _ _ _ 1 0 .sending _ rfl rfl
      (.send (List.mem_singleton_self 1) (by decide) (by decide))) <|
    .head (.system rfl (.dropLastHandle rfl rfl)) <| .single (.system rfl (.cancel rfl)), rfl, rfl⟩

end Strategies

end Maintenance

end BlobStorage
