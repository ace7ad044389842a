import BlobStorage.Error
import BlobStorage.Maintenance.Occasions

/-!
# Validated strategies serve

`do_build` validates the strategies of its layers before it builds anything. Where it goes on, no
built-in strategy fails to schedule, and none stops or misses an occasion as long as a handle to
the store exists: an `OnStart` sends its task, and a `Periodic` one for the beginning and one for
each period, but for the one that is due at the moment.
-/

namespace BlobStorage

namespace Maintenance

namespace Strategies

open Transition

/-- `LayerKind`, with the strategy of its task. -/
inductive Configured where
  | keyPrefix
  | encryption (rekeyStrategy : Option Builtin)
  | cleanup (strategy : Option Builtin)
  | custom
  deriving DecidableEq, Repr

namespace Configured

def kind : Configured → LayerKind
  | .keyPrefix => .keyPrefix
  | .encryption rekeyStrategy => .encryption rekeyStrategy.isSome
  | .cleanup strategy => .cleanup strategy.isSome
  | .custom => .custom

def strategy : Configured → Option Builtin
  | .encryption rekeyStrategy => rekeyStrategy
  | .cleanup strategy => strategy
  | _ => none

end Configured

/-- `validate` of the strategies. Only `Periodic` has one of its own. -/
def Builtin.validate : Builtin → Except BlobStorageError Unit
  | .periodic 0 => .error (.invalidInput "Periodic duration must be non-zero")
  | _ => .ok ()

/-- `validate_strategies`. -/
def validateStrategies : List Configured → Except BlobStorageError Unit
  | [] => .ok ()
  | layer :: layers => do
      match layer with
      | .encryption (some strategy) => strategy.validate
      | .cleanup (some strategy) => strategy.validate
      | _ => pure ()
      validateStrategies layers

/-- The strategy of the task that is known by object `i`. -/
def strategyOf (layers : List Configured) (i : Nat) : Builtin :=
  ((layers[i - 1]?).bind Configured.strategy).getD .onStart

theorem Builtin.validate_eq_ok_iff {strategy : Builtin} :
    strategy.validate = .ok () ↔ strategy ≠ .periodic 0 := by
  obtain _ | (_ | _) | _ := strategy <;> simp [Builtin.validate]

/-- What is rejected is a `Periodic` without a duration. -/
theorem validateStrategies_eq_ok_iff {layers : List Configured} :
    validateStrategies layers = .ok () ↔
      ∀ layer ∈ layers, layer.strategy ≠ some (.periodic 0) := by
  induction layers with
  | nil => simp [validateStrategies]
  | cons layer layers ih =>
      have hcons : ∀ strategy : Builtin,
          (do strategy.validate; validateStrategies layers : Except BlobStorageError Unit) =
            .ok () ↔ strategy ≠ .periodic 0 ∧ validateStrategies layers = .ok () := by
        intro strategy
        rw [← Builtin.validate_eq_ok_iff]
        cases strategy.validate with
        | error e => exact iff_of_false nofun fun h => by cases h.1
        | ok _ => exact ⟨fun h => ⟨rfl, h⟩, And.right⟩
      rw [List.forall_mem_cons, ← ih]
      obtain _ | (_ | strategy) | (_ | strategy) | _ := layer
      all_goals simp [validateStrategies, Configured.strategy, hcons]

theorem strategyOf_ne {layers : List Configured} (h : validateStrategies layers = .ok ())
    (i : Nat) : strategyOf layers i ≠ .periodic 0 := by
  rw [validateStrategies_eq_ok_iff] at h
  intro hzero
  unfold strategyOf at hzero
  cases hlayer : layers[i - 1]? with
  | none =>
      rw [hlayer] at hzero
      cases hzero
  | some layer =>
      have hnonzero := h layer (List.mem_of_getElem? hlayer)
      rw [hlayer, Option.bind_some] at hzero
      cases hstrategy : layer.strategy with
      | none =>
          rw [hstrategy] at hzero
          cases hzero
      | some strategy =>
          rw [hstrategy] at hzero hnonzero
          exact hnonzero (congrArg some hzero)

/-- A worker that has stopped before the cancellation is not needed any more. -/
def Unneeded (a : Maintenance.State) : Prop :=
  a.worker = .stopped → a.cancelled = false → a.contexts = [] ∧ a.phase.rest = []

theorem Unneeded.step {top : Nat} {a b : Maintenance.State} {e : Maintenance.Event}
    (h : Unneeded a) (hstep : Maintenance.Step top a e b) : Unneeded b := by
  intro hstopped huncancelled
  cases hstep with
  | schedule phase =>
      have hrest := (h hstopped huncancelled).2
      rw [phase] at hrest
      cases hrest
  | scheduled phase =>
      obtain ⟨hcontexts, hrest⟩ := h hstopped huncancelled
      rw [phase] at hrest
      exact ⟨hcontexts, hrest⟩
  | scheduleFailed phase => exact ⟨(h hstopped huncancelled).1, rfl⟩
  | built phase => exact ⟨(h hstopped huncancelled).1, rfl⟩
  | cancel dropping => cases huncancelled
  | cloneContext context =>
      rw [(h hstopped huncancelled).1] at context
      exact absurd context List.not_mem_nil
  | dropContext context =>
      rw [(h hstopped huncancelled).1] at context
      exact absurd context List.not_mem_nil
  | releaseBody worker => exact absurd hstopped (Worker.next_ne_stopped _)
  | receive worker queue => cases hstopped
  | start worker alive => cases hstopped
  | skip worker gone => cases hstopped
  | finish worker => cases hstopped
  | stopCancelled worker cancelled =>
      change a.cancelled = false at huncancelled
      rw [cancelled] at huncancelled
      cases huncancelled
  | stopClosed worker queue contexts blocked phase =>
      refine ⟨contexts, ?_⟩
      change a.phase.rest = []
      obtain hphase | hphase := phase
      · rw [hphase]
        rfl
      · rw [hphase]
        rfl
  | _ => exact h hstopped huncancelled

/-- Every task has been handed to its strategy, or will be. -/
def AllScheduled (tasks : List Nat) (s : State) : Prop :=
  s.base.phase ≠ .failed ∧ ∀ i ∈ tasks, i ∈ s.base.phase.rest ∨ s.loops i ≠ none

/-- Only the loop of an `OnStart` has ended, or of a `Manual` without handles. -/
def GoesOn (strategies : Nat → Builtin) (s : State) (i : Nat) : Prop :=
  ∀ loop, s.loops i = some loop → loop.phase = .leaving ∨ loop.phase = .ended →
    strategies i = .onStart ∨ strategies i = .manual ∧ s.closed i = true

section Steps

variable {strategies : Nat → Builtin} {top : Nat} {tasks : List Nat} {s t : State} {e : Event}
  {i j : Nat} {loop next : Loop}

theorem AllScheduled.move (h : AllScheduled tasks s) {b : Maintenance.State}
    (hphase : b.phase = s.base.phase) (j : Nat) (next : Loop) :
    AllScheduled tasks ((s.withBase b).setLoop j next) := by
  unfold AllScheduled
  rw [State.setLoop_base, State.withBase_base, State.setLoop_loops, State.withBase_loops, hphase]
  refine ⟨h.1, fun i hi => (h.2 i hi).imp_right fun hloop => ?_⟩
  by_cases hsame : i = j
  · rw [hsame, Function.update_self]
    exact Option.some_ne_none _
  · rw [Function.update_of_ne hsame]
    exact hloop

/-- The built-in strategies never fail to schedule. -/
theorem ofSystem_not_failed {a b : Maintenance.State} {e : Maintenance.Event}
    (own : ofSystem e = true) (h : Maintenance.Step top a e b) (hphase : a.phase ≠ .failed) :
    b.phase ≠ .failed := by
  cases h with
  | schedule phase => cases own
  | scheduleFailed phase => cases own
  | scheduled phase => exact nofun
  | built phase => exact nofun
  | _ => exact hphase

theorem AllScheduled.step (h : AllScheduled tasks s) (hstep : Step strategies top s e t) :
    AllScheduled tasks t := by
  cases hstep with
  | system own step =>
      obtain ⟨hrest, _⟩ := ofSystem_keeps own step
      refine ⟨ofSystem_not_failed own step h.1, fun i hi => ?_⟩
      rw [State.withBase_base, hrest]
      exact h.2 i hi
  | @schedule j b step =>
      cases step with
      | schedule phase =>
          refine ⟨nofun, fun i hi => ?_⟩
          rw [State.setLoop_loops]
          by_cases hsame : i = j
          · rw [hsame, Function.update_self]
            exact .inr (Option.some_ne_none _)
          · rw [Function.update_of_ne hsame]
            refine (h.2 i hi).imp_left fun hmem => ?_
            rw [phase] at hmem
            exact (List.mem_cons.mp hmem).resolve_left hsame
  | send loop triggers step => cases step with | send => exact h.move rfl _ _
  | block loop triggers step => cases step with | block => exact h.move rfl _ _
  | unblock loop step => cases step with | unblock => exact h.move rfl _ _
  | refusedWaiting loop stopped step => cases step with | giveUp => exact h.move rfl _ _
  | abandon loop onStart cancelled step => cases step with | giveUp => exact h.move rfl _ _
  | leave loop step => cases step with | dropContext => exact h.move rfl _ _
  | trigger open_ => exact h
  | close open_ => exact h
  | _ => exact @AllScheduled.move _ s h s.base rfl _ _

/-- The worker has not stopped before a loop that holds its context. -/
theorem not_stopped (hagrees : Agrees strategies tasks s) (hunneeded : Unneeded s.base)
    (huncancelled : s.base.cancelled = false) (hloop : s.loops i = some loop)
    (hcontext : contextsOf (some loop) = 1) : s.base.worker ≠ .stopped := by
  intro hstopped
  have hcount := hagrees.contexts i
  rw [(hunneeded hstopped huncancelled).1, hloop, hcontext] at hcount
  cases hcount

theorem uncancelled_of_step (h : Step strategies top s e t)
    (huncancelled : t.base.cancelled = false) : s.base.cancelled = false := by
  by_contra hcancelled
  rw [Bool.not_eq_false] at hcancelled
  rw [cancelled_step h hcancelled] at huncancelled
  cases huncancelled

theorem GoesOn.move (h : GoesOn strategies s i) (b : Maintenance.State)
    (hnext : j = i → next.phase = .leaving ∨ next.phase = .ended →
      strategies i = .onStart ∨ strategies i = .manual ∧ s.closed i = true) :
    GoesOn strategies ((s.withBase b).setLoop j next) i := by
  intro loop hloop hover
  rw [State.setLoop_loops, State.withBase_loops] at hloop
  by_cases hsame : i = j
  · rw [hsame, Function.update_self] at hloop
    cases hloop
    exact hnext hsame.symm hover
  · rw [Function.update_of_ne hsame] at hloop
    exact h loop hloop hover

theorem Builtin.over_spawned {strategy : Builtin} (h : strategy ≠ .periodic 0) (version : Nat)
    (hover : (strategy.spawned version).phase = .leaving ∨
      (strategy.spawned version).phase = .ended) : strategy = .onStart := by
  obtain _ | (_ | _) | _ := strategy <;> simp_all [Builtin.spawned]

theorem Builtin.over_afterTrigger {strategy : Builtin}
    (hover : strategy.afterTrigger = .leaving ∨ strategy.afterTrigger = .ended) :
    strategy = .onStart := by
  cases strategy <;> simp_all [Builtin.afterTrigger]

theorem GoesOn.step (h : GoesOn strategies s i) (hagrees : Agrees strategies tasks s)
    (hunneeded : Unneeded s.base) (huncancelled : t.base.cancelled = false)
    (hnonzero : strategies i ≠ .periodic 0) (hstep : Step strategies top s e t) :
    GoesOn strategies t i := by
  have hs := uncancelled_of_step hstep huncancelled
  have going : ∀ {j phase seen} {b : Maintenance.State}, phase ≠ .leaving → phase ≠ .ended →
      GoesOn strategies ((s.withBase b).setLoop j ⟨phase, seen⟩) i := by
    intro j phase seen b hleaving hended
    exact h.move b fun _ hover => hover.elim (absurd · hleaving) (absurd · hended)
  cases hstep with
  | system own step => exact h
  | schedule step =>
      refine h.move _ ?_
      rintro rfl hover
      exact .inl (Builtin.over_spawned hnonzero _ hover)
  | pass loop uncancelled => exact going (b := s.base) nofun nofun
  | heed loop heeds cancelled =>
      rw [hs] at cancelled
      cases cancelled
  | send loop triggers step =>
      refine h.move _ ?_
      rintro rfl hover
      exact .inl (Builtin.over_afterTrigger hover)
  | block loop triggers step => exact going nofun nofun
  | unblock loop step =>
      refine h.move _ ?_
      rintro rfl hover
      exact .inl (Builtin.over_afterTrigger hover)
  | refused loop triggers stopped =>
      refine absurd stopped (not_stopped hagrees hunneeded hs loop ?_)
      obtain rfl | rfl := LoopPhase.triggers_cases triggers <;> rfl
  | refusedWaiting loop stopped step =>
      exact absurd stopped (not_stopped hagrees hunneeded hs loop rfl)
  | abandon loop onStart cancelled step =>
      rw [hs] at cancelled
      cases cancelled
  | elapse loop => exact going (b := s.base) nofun nofun
  | proceed loop uncancelled => exact going (b := s.base) nofun nofun
  | wake loop moved => exact going (b := s.base) nofun nofun
  | senderGone loop closed =>
      refine h.move s.base ?_
      rintro rfl _
      exact .inr ⟨(Builtin.has_sleeping (hagrees.has _ _ loop)).2 rfl, closed⟩
  | leave loop step =>
      refine h.move _ ?_
      rintro rfl _
      exact h _ loop (.inl rfl)
  | trigger open_ => exact h
  | @close j open_ =>
      intro loop hloop hover
      refine (h loop hloop hover).imp_right fun hmanual => ⟨hmanual.1, ?_⟩
      change Function.update s.closed j true i = true
      by_cases hsame : i = j
      · rw [hsame, Function.update_self]
      · rw [Function.update_of_ne hsame]
        exact hmanual.2

/-- What is due of a strategy other than `Manual` has nothing to do with triggers from outside. -/
theorem Builtin.due_version {strategy : Builtin} (h : strategy ≠ .manual) (version other : Nat)
    (loop : Option Loop) : strategy.due version loop = strategy.due other loop := by
  cases loop with
  | none => rfl
  | some loop => simp [Builtin.due, h]

theorem Builtin.occasion_trigger {strategy : Builtin} (h : strategy ≠ .manual) (i j : Nat) :
    strategy.occasion i (.trigger j) = false := by
  cases strategy with
  | manual => exact absurd rfl h
  | onStart => rfl
  | periodic duration => rfl

theorem Builtin.due_spawned_eq {strategy : Builtin} (hmanual : strategy ≠ .manual)
    (hzero : strategy ≠ .periodic 0) (version : Nat) :
    strategy.due version (some (strategy.spawned version)) = strategy.first := by
  obtain _ | (_ | _) | _ := strategy <;>
    simp_all [Builtin.due, Builtin.spawned, Builtin.first]

/-- A loop moves on, and nothing changes for the others. -/
theorem served_move (hloop : s.loops j = some loop) (b : Maintenance.State)
    (hothers : j ≠ i → e.enqueues i = false ∧ (strategies i).occasion i e = false)
    (hcost : j = i → (e.enqueues i).toNat + (strategies i).due (s.version i) (some next) =
      (strategies i).due (s.version i) (some loop) + ((strategies i).occasion i e).toNat) :
    (e.enqueues i).toNat + ((s.withBase b).setLoop j next).due strategies i =
      s.due strategies i + ((strategies i).occasion i e).toNat := by
  by_cases hsame : j = i
  · subst hsame
    rw [due_setLoop_self, State.due, hloop]
    exact hcost rfl
  · obtain ⟨henqueues, hoccasion⟩ := hothers hsame
    rw [due_setLoop_of_ne s b (Ne.symm hsame), henqueues, hoccasion]
    simp

/-- While the store is in use, each step sends what was due, or is the occasion for one more. -/
theorem served_step (hagrees : Agrees strategies tasks s) (hunneeded : Unneeded s.base)
    (huncancelled : t.base.cancelled = false) (hstrategy : strategies i ≠ .manual)
    (hnonzero : strategies i ≠ .periodic 0) (h : Step strategies top s e t) :
    (e.enqueues i).toNat + t.due strategies i =
      s.due strategies i + ((strategies i).occasion i e).toNat := by
  have hhas := hagrees.has i
  have hs := uncancelled_of_step h huncancelled
  cases h with
  | system own step => simp [Event.enqueues, Builtin.occasion, State.due]
  | @schedule j b step =>
      by_cases hsame : j = i
      · subst hsame
        rw [due_setLoop_self, State.due, hagrees.unscheduled step,
          Builtin.due_spawned_eq hstrategy hnonzero]
        simp [Event.enqueues, Builtin.occasion, Builtin.due]
      · rw [due_setLoop_of_ne s b (Ne.symm hsame)]
        simp [Event.enqueues, Builtin.occasion]
  | pass loop uncancelled =>
      refine served_move loop s.base (fun _ => ⟨rfl, by simp [Builtin.occasion]⟩) (fun _ => ?_)
      simp [Event.enqueues, Builtin.occasion, Builtin.due]
  | heed loop heeds cancelled =>
      rw [hs] at cancelled
      cases cancelled
  | @send j seen phase b loop triggers step =>
      refine served_move loop b
        (fun hne => ⟨by simp [Event.enqueues, hne], by simp [Builtin.occasion]⟩) ?_
      rintro rfl
      obtain rfl | rfl := LoopPhase.triggers_cases triggers <;> cases hj : strategies j
      all_goals simp_all [Event.enqueues, Builtin.occasion, Builtin.due, Builtin.afterTrigger]
  | block loop triggers step =>
      refine served_move loop _ (fun _ => ⟨rfl, by simp [Builtin.occasion]⟩) (fun _ => ?_)
      obtain rfl | rfl := LoopPhase.triggers_cases triggers
      all_goals simp [Event.enqueues, Builtin.occasion, Builtin.due]
  | @unblock j seen b loop step =>
      refine served_move loop b
        (fun hne => ⟨by simp [Event.enqueues, hne], by simp [Builtin.occasion]⟩) ?_
      rintro rfl
      cases hj : strategies j
      all_goals simp_all [Event.enqueues, Builtin.occasion, Builtin.due, Builtin.afterTrigger]
  | refused loop triggers stopped =>
      refine absurd stopped (not_stopped hagrees hunneeded hs loop ?_)
      obtain rfl | rfl := LoopPhase.triggers_cases triggers <;> rfl
  | refusedWaiting loop stopped step =>
      exact absurd stopped (not_stopped hagrees hunneeded hs loop rfl)
  | abandon loop onStart cancelled step =>
      rw [hs] at cancelled
      cases cancelled
  | @elapse j seen loop =>
      refine served_move loop s.base (fun hne => ⟨rfl, ?_⟩) ?_
      · cases strategies i <;> simp [Builtin.occasion, hne]
      · rintro rfl
        obtain ⟨duration, hperiodic⟩ := (Builtin.has_sleeping (hhas _ loop)).1 (.inl rfl)
        simp [hperiodic, Event.enqueues, Builtin.due, Builtin.occasion]
  | @proceed j seen loop uncancelled =>
      refine served_move loop s.base (fun _ => ⟨rfl, by simp [Builtin.occasion]⟩) ?_
      rintro rfl
      obtain ⟨duration, hperiodic⟩ := (Builtin.has_sleeping (hhas _ loop)).1 (.inr rfl)
      simp [hperiodic, Event.enqueues, Builtin.due, Builtin.occasion]
  | @wake j seen loop moved =>
      refine served_move loop s.base (fun _ => ⟨rfl, by simp [Builtin.occasion]⟩) ?_
      rintro rfl
      exact absurd ((Builtin.has_sleeping (hhas _ loop)).2 rfl) hstrategy
  | @senderGone j loop closed =>
      refine served_move loop s.base (fun _ => ⟨rfl, by simp [Builtin.occasion]⟩) ?_
      rintro rfl
      exact absurd ((Builtin.has_sleeping (hhas _ loop)).2 rfl) hstrategy
  | leave loop step =>
      refine served_move loop _ (fun _ => ⟨rfl, by simp [Builtin.occasion]⟩) (fun _ => ?_)
      simp [Event.enqueues, Builtin.occasion, Builtin.due]
  | @trigger j open_ =>
      rw [Builtin.occasion_trigger hstrategy]
      change 0 + (strategies i).due (Function.update s.version j (s.version j + 1) i) (s.loops i) =
        (strategies i).due (s.version i) (s.loops i) + 0
      rw [Nat.zero_add, Nat.add_zero]
      exact Builtin.due_version hstrategy _ _ _
  | close open_ => simp [Event.enqueues, Builtin.occasion, State.due]

end Steps

/-- What holds of a run with strategies none of which is a `Periodic` without a duration. -/
structure Serving (strategies : Nat → Builtin) (tasks : List Nat) (top : Nat)
    (history : List Event) (s : State) : Prop where
  settled : Settled strategies tasks top s
  unneeded : Unneeded s.base
  scheduled : AllScheduled tasks s
  goesOn : s.base.cancelled = false → ∀ i, GoesOn strategies s i
  served : s.base.cancelled = false → ∀ i, strategies i ≠ .manual →
    history.countP (Event.enqueues i) + s.due strategies i =
      1 + history.countP ((strategies i).occasion i)

theorem Serving.step {strategies : Nat → Builtin} {tasks : List Nat} {top : Nat}
    (hnonzero : ∀ i, strategies i ≠ .periodic 0) {history : List Event} {s t : State} {e : Event}
    (h : Serving strategies tasks top history s) (hstep : Step strategies top s e t) :
    Serving strategies tasks top (history ++ [e]) t where
  settled := h.settled.step hstep
  unneeded := hstep.keeps (fun _ _ _ => Unneeded.step) h.unneeded
  scheduled := h.scheduled.step hstep
  goesOn := by
    intro huncancelled i
    have hs := uncancelled_of_step hstep huncancelled
    exact (h.goesOn hs i).step h.settled.agrees h.unneeded huncancelled (hnonzero i) hstep
  served := by
    intro huncancelled i hstrategy
    have hs := uncancelled_of_step hstep huncancelled
    have hbefore := h.served hs i hstrategy
    have hserved := served_step h.settled.agrees h.unneeded huncancelled hstrategy (hnonzero i)
      hstep
    rw [countP_concat, countP_concat]
    omega

theorem serving_start {strategies : Nat → Builtin} (layers : List LayerKind) :
    Serving strategies (collectTasks 1 layers) layers.length [] (start layers) where
  settled := settled_start strategies layers
  unneeded := by
    intro hstopped _
    refine ⟨rfl, ?_⟩
    change collectTasks 1 layers = []
    change (if collectTasks 1 layers = [] then Worker.stopped else .idle) = .stopped at hstopped
    by_contra htasks
    rw [if_neg htasks] at hstopped
    cases hstopped
  scheduled := ⟨nofun, fun _ hi => .inl hi⟩
  goesOn := by
    intro _ i loop hloop
    cases hloop
  served := by
    intro _ i hstrategy
    change 0 + (strategies i).first = 1 + 0
    cases hi : strategies i with
    | manual => exact absurd hi hstrategy
    | onStart => rfl
    | periodic duration => rfl

/-- `validate_strategies` rejects what has a `Periodic` without a duration. If it lets the layers
pass, `do_build` never fails to schedule. While a handle to the store exists, an `OnStart` and a
`Periodic` have sent a task for each occasion but for what is due, and once all are scheduled each
has its loop, which has not ended unless it is an `OnStart` or a `Manual` without handles. -/
theorem occasions_are_served (layers : List Configured) :
    (validateStrategies layers = .ok () ↔
      ∀ layer ∈ layers, layer.strategy ≠ some (.periodic 0)) ∧
    (validateStrategies layers = .ok () → ∀ {history : List Event} {s : State},
      Run (Step (strategyOf layers) layers.length) (start (layers.map Configured.kind))
        history s →
      s.base.phase ≠ .failed ∧
      (0 < s.base.handles → ∀ i ∈ collectTasks 1 (layers.map Configured.kind),
        (strategyOf layers i ≠ .manual →
          history.countP (Event.enqueues i) + s.due (strategyOf layers) i =
            1 + history.countP ((strategyOf layers i).occasion i)) ∧
        (s.base.phase = .built → ∃ loop, s.loops i = some loop ∧
          (loop.phase = .leaving ∨ loop.phase = .ended →
            strategyOf layers i = .onStart ∨
              strategyOf layers i = .manual ∧ s.closed i = true)))) := by
  refine ⟨validateStrategies_eq_ok_iff, fun hvalid history s h => ?_⟩
  have hserving : Serving (strategyOf layers) (collectTasks 1 (layers.map Configured.kind))
      layers.length history s := by
    refine h.history _ (fun _ _ _ _ => Serving.step (strategyOf_ne hvalid)) ?_
    have hstart := @serving_start (strategyOf layers) (layers.map Configured.kind)
    rw [List.length_map] at hstart
    exact hstart
  refine ⟨hserving.scheduled.1, fun hhandles i hi => ?_⟩
  have huncancelled : s.base.cancelled = false := by
    by_contra hcancelled
    rw [Bool.not_eq_false] at hcancelled
    exact (hserving.settled.uncancelled hcancelled).1 (hserving.settled.sound.handles.mp hhandles)
  refine ⟨hserving.served huncancelled i, fun hbuilt => ?_⟩
  have hloop := hserving.scheduled.2 i hi
  rw [hbuilt] at hloop
  obtain ⟨loop, hloop⟩ := Option.ne_none_iff_exists'.mp (hloop.resolve_left List.not_mem_nil)
  exact ⟨loop, hloop, hserving.goesOn huncancelled i loop hloop⟩

/-- A cleanup every minute. -/
def minutely : List Configured := [.cleanup (some (.periodic 60))]

/-- The first minute is over. -/
def minuteEvents : List Event :=
  [.schedule 1, .system .scheduled, .system .built, .send 1, .elapse 1]

theorem occasions_are_served_minute :
    ∃ s, Run (Step (strategyOf minutely) 1) (start (minutely.map Configured.kind)) minuteEvents s ∧
      s.base.phase = .built ∧ 0 < s.base.handles ∧ s.base.phase ≠ .failed ∧
      (0 < s.base.handles → ∀ i ∈ collectTasks 1 (minutely.map Configured.kind),
        (strategyOf minutely i ≠ .manual →
          minuteEvents.countP (Event.enqueues i) + s.due (strategyOf minutely) i =
            1 + minuteEvents.countP ((strategyOf minutely i).occasion i)) ∧
        (s.base.phase = .built → ∃ loop, s.loops i = some loop ∧
          (loop.phase = .leaving ∨ loop.phase = .ended →
            strategyOf minutely i = .onStart ∨
              strategyOf minutely i = .manual ∧ s.closed i = true))) := by
  have hrun : ∃ s, Run (Step (strategyOf minutely) 1) (start (minutely.map Configured.kind))
      minuteEvents s ∧ s.base.phase = .built ∧ 0 < s.base.handles := by
    refine ⟨_, .head (.schedule (.schedule rfl)) <| .head (.system rfl (.scheduled rfl)) <|
      .head (.system rfl (.built rfl)) <|
      .head (@Step.send _ _ _ 1 0 .sending _ rfl rfl
        (.send (List.mem_singleton_self 1) (by decide) (by decide))) <|
      .single (@Step.elapse _ _ _ 1 0 rfl), rfl, by decide⟩
  obtain ⟨s, hrun, hbuilt, hhandles⟩ := hrun
  exact ⟨s, hrun, hbuilt, hhandles, (occasions_are_served minutely).2 rfl hrun⟩

end Strategies

end Maintenance

end BlobStorage
