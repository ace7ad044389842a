import BlobStorage.Maintenance.Queue

/-!
# The built-in strategies

`OnStart`, `Periodic` and `Manual`, each as the loop that its `schedule` spawns, in the system of
the builder, the owners of handles and the worker. Every step of theirs is one that an arbitrary
strategy may take, or shows nowhere else. The clock is left open: a sleep may end at any time.
-/

namespace BlobStorage

namespace Maintenance

namespace Strategies

open Transition

inductive Builtin where
  | onStart
  | periodic (duration : Nat)
  | manual
  deriving DecidableEq, Repr

/-- Where a loop is. `ready` and `passed` are the two halves of a poll of the `select!` of
`OnStart`, which is biased: first the token, then the trigger. -/
inductive LoopPhase where
  | ready
  | passed
  | sending
  /-- A trigger waits for a slot. -/
  | waiting
  | sleeping
  | checking
  | listening
  /-- The loop is over, and its context about to be dropped. -/
  | leaving
  | ended
  deriving DecidableEq, Repr

structure Loop where
  phase : LoopPhase
  /-- The version of the watch channel that was seen last. -/
  seen : Nat
  deriving DecidableEq, Repr

/-- What `schedule` leaves behind. A zero duration spawns nothing. -/
def Builtin.spawned (version : Nat) : Builtin → Loop
  | .onStart => ⟨.ready, version⟩
  | .periodic 0 => ⟨.leaving, version⟩
  | .periodic (_ + 1) => ⟨.sending, version⟩
  | .manual => ⟨.listening, version⟩

/-- Where a trigger that went through leads. -/
def Builtin.afterTrigger : Builtin → LoopPhase
  | .onStart => .leaving
  | .periodic _ => .sleeping
  | .manual => .listening

/-- The loop waits for the token, or looks at it. -/
def LoopPhase.heedsCancellation : LoopPhase → Bool
  | .ready => true
  | .sleeping => true
  | .checking => true
  | .listening => true
  | _ => false

/-- The loop is about to call `trigger`. -/
def LoopPhase.triggers : LoopPhase → Bool
  | .passed => true
  | .sending => true
  | _ => false

structure State where
  base : Maintenance.State
  loops : Nat → Option Loop
  /-- The version of the watch channel of a `Manual`. -/
  version : Nat → Nat
  closed : Nat → Bool

def start (layers : List LayerKind) : State where
  base := Maintenance.start layers
  loops _ := none
  version _ := 0
  closed _ := false

def State.setLoop (s : State) (i : Nat) (loop : Loop) : State :=
  { s with loops := Function.update s.loops i (some loop) }

def State.withBase (s : State) (base : Maintenance.State) : State := { s with base }

/-- The events in which no strategy takes part. The built-in ones never fail to schedule. -/
def ofSystem : Maintenance.Event → Bool
  | .scheduled => true
  | .built => true
  | .cloneHandle => true
  | .dropHandle => true
  | .dropLastHandle => true
  | .cancel => true
  | .release _ => true
  | .receive _ => true
  | .start _ => true
  | .skip _ => true
  | .finish _ => true
  | .releaseBody _ => true
  | .stopCancelled => true
  | .stopClosed => true
  | _ => false

inductive Event where
  | system (e : Maintenance.Event)
  | schedule (i : Nat)
  /-- The token is not cancelled when `OnStart` polls it. -/
  | pass (i : Nat)
  | heed (i : Nat)
  | send (i : Nat)
  | block (i : Nat)
  | unblock (i : Nat)
  /-- The queue has been shut down. -/
  | refused (i : Nat)
  | refusedWaiting (i : Nat)
  /-- `OnStart` stops waiting for a slot when the token is cancelled. -/
  | abandon (i : Nat)
  | elapse (i : Nat)
  | proceed (i : Nat)
  | wake (i : Nat)
  | senderGone (i : Nat)
  | leave (i : Nat)
  /-- `Manual::trigger`. A handle that is registered more than once is triggered once for each. -/
  | trigger (i : Nat)
  | close (i : Nat)
  deriving DecidableEq, Repr

inductive Step (strategies : Nat → Builtin) (top : Nat) : State → Event → State → Prop where
  | system {s : State} {e : Maintenance.Event} {b : Maintenance.State} (own : ofSystem e = true)
      (step : Maintenance.Step top s.base e b) :
      Step strategies top s (.system e) (s.withBase b)
  | schedule {s : State} {i : Nat} {b : Maintenance.State}
      (step : Maintenance.Step top s.base (.schedule i) b) :
      Step strategies top s (.schedule i)
        ((s.withBase b).setLoop i ((strategies i).spawned (s.version i)))
  | pass {s : State} {i seen : Nat} (loop : s.loops i = some ⟨.ready, seen⟩)
      (uncancelled : s.base.cancelled = false) :
      Step strategies top s (.pass i) (s.setLoop i ⟨.passed, seen⟩)
  | heed {s : State} {i seen : Nat} {phase : LoopPhase} (loop : s.loops i = some ⟨phase, seen⟩)
      (heeds : phase.heedsCancellation = true) (cancelled : s.base.cancelled = true) :
      Step strategies top s (.heed i) (s.setLoop i ⟨.leaving, seen⟩)
  | send {s : State} {i seen : Nat} {phase : LoopPhase} {b : Maintenance.State}
      (loop : s.loops i = some ⟨phase, seen⟩) (triggers : phase.triggers = true)
      (step : Maintenance.Step top s.base (.send i) b) :
      Step strategies top s (.send i)
        ((s.withBase b).setLoop i ⟨(strategies i).afterTrigger, seen⟩)
  | block {s : State} {i seen : Nat} {phase : LoopPhase} {b : Maintenance.State}
      (loop : s.loops i = some ⟨phase, seen⟩) (triggers : phase.triggers = true)
      (step : Maintenance.Step top s.base (.block i) b) :
      Step strategies top s (.block i) ((s.withBase b).setLoop i ⟨.waiting, seen⟩)
  | unblock {s : State} {i seen : Nat} {b : Maintenance.State}
      (loop : s.loops i = some ⟨.waiting, seen⟩)
      (step : Maintenance.Step top s.base (.unblock i) b) :
      Step strategies top s (.unblock i)
        ((s.withBase b).setLoop i ⟨(strategies i).afterTrigger, seen⟩)
  | refused {s : State} {i seen : Nat} {phase : LoopPhase}
      (loop : s.loops i = some ⟨phase, seen⟩) (triggers : phase.triggers = true)
      (stopped : s.base.worker = .stopped) :
      Step strategies top s (.refused i) (s.setLoop i ⟨.leaving, seen⟩)
  | refusedWaiting {s : State} {i seen : Nat} {b : Maintenance.State}
      (loop : s.loops i = some ⟨.waiting, seen⟩) (stopped : s.base.worker = .stopped)
      (step : Maintenance.Step top s.base (.giveUp i) b) :
      Step strategies top s (.refusedWaiting i) ((s.withBase b).setLoop i ⟨.leaving, seen⟩)
  | abandon {s : State} {i seen : Nat} {b : Maintenance.State}
      (loop : s.loops i = some ⟨.waiting, seen⟩) (onStart : strategies i = .onStart)
      (cancelled : s.base.cancelled = true) (step : Maintenance.Step top s.base (.giveUp i) b) :
      Step strategies top s (.abandon i) ((s.withBase b).setLoop i ⟨.leaving, seen⟩)
  | elapse {s : State} {i seen : Nat} (loop : s.loops i = some ⟨.sleeping, seen⟩) :
      Step strategies top s (.elapse i) (s.setLoop i ⟨.checking, seen⟩)
  | proceed {s : State} {i seen : Nat} (loop : s.loops i = some ⟨.checking, seen⟩)
      (uncancelled : s.base.cancelled = false) :
      Step strategies top s (.proceed i) (s.setLoop i ⟨.sending, seen⟩)
  | wake {s : State} {i seen : Nat} (loop : s.loops i = some ⟨.listening, seen⟩)
      (moved : seen ≠ s.version i) :
      Step strategies top s (.wake i) (s.setLoop i ⟨.sending, s.version i⟩)
  | senderGone {s : State} {i : Nat} (loop : s.loops i = some ⟨.listening, s.version i⟩)
      (closed : s.closed i = true) :
      Step strategies top s (.senderGone i) (s.setLoop i ⟨.leaving, s.version i⟩)
  | leave {s : State} {i seen : Nat} {b : Maintenance.State}
      (loop : s.loops i = some ⟨.leaving, seen⟩)
      (step : Maintenance.Step top s.base (.dropContext i) b) :
      Step strategies top s (.leave i) ((s.withBase b).setLoop i ⟨.ended, seen⟩)
  | trigger {s : State} {i : Nat} (open_ : s.closed i = false) :
      Step strategies top s (.trigger i)
        { s with version := Function.update s.version i (s.version i + 1) }
  | close {s : State} {i : Nat} (open_ : s.closed i = false) :
      Step strategies top s (.close i) { s with closed := Function.update s.closed i true }

/-- What an event is to the builder, the owners of handles and the worker. -/
def Event.base : Event → Option Maintenance.Event
  | .system e => some e
  | .schedule i => some (.schedule i)
  | .send i => some (.send i)
  | .block i => some (.block i)
  | .unblock i => some (.unblock i)
  | .refusedWaiting i => some (.giveUp i)
  | .abandon i => some (.giveUp i)
  | .leave i => some (.dropContext i)
  | _ => none

@[simp] theorem State.withBase_base (s : State) (b : Maintenance.State) :
    (s.withBase b).base = b := rfl

@[simp] theorem State.withBase_loops (s : State) (b : Maintenance.State) :
    (s.withBase b).loops = s.loops := rfl

@[simp] theorem State.withBase_version (s : State) (b : Maintenance.State) :
    (s.withBase b).version = s.version := rfl

@[simp] theorem State.setLoop_base (s : State) (i : Nat) (loop : Loop) :
    (s.setLoop i loop).base = s.base := rfl

@[simp] theorem State.setLoop_loops (s : State) (i : Nat) (loop : Loop) :
    (s.setLoop i loop).loops = Function.update s.loops i (some loop) := rfl

@[simp] theorem State.setLoop_version (s : State) (i : Nat) (loop : Loop) :
    (s.setLoop i loop).version = s.version := rfl

section Refinement

variable {strategies : Nat → Builtin} {top : Nat} {s t : State} {e : Event}

/-- A step of the built-in strategies is a step of arbitrary ones, or shows nowhere. -/
theorem Step.refines (h : Step strategies top s e t) :
    (∃ e', e.base = some e' ∧ Maintenance.Step top s.base e' t.base) ∨
      (e.base = none ∧ t.base = s.base) := by
  cases h with
  | system own step => exact .inl ⟨_, rfl, step⟩
  | schedule step => exact .inl ⟨_, rfl, step⟩
  | send loop triggers step => exact .inl ⟨_, rfl, step⟩
  | block loop triggers step => exact .inl ⟨_, rfl, step⟩
  | unblock loop step => exact .inl ⟨_, rfl, step⟩
  | refusedWaiting loop stopped step => exact .inl ⟨_, rfl, step⟩
  | abandon loop onStart cancelled step => exact .inl ⟨_, rfl, step⟩
  | leave loop step => exact .inl ⟨_, rfl, step⟩
  | _ => exact .inr ⟨rfl, rfl⟩

/-- What every step of arbitrary strategies keeps, every step of the built-in ones keeps. -/
theorem Step.keeps {I : Maintenance.State → Prop}
    (hkeeps : ∀ s e t, I s → Maintenance.Step top s e t → I t) (h : Step strategies top s e t)
    (hs : I s.base) : I t.base := by
  obtain ⟨e', _, hstep⟩ | ⟨_, hbase⟩ := h.refines
  · exact hkeeps _ _ _ hs hstep
  · rw [hbase]
    exact hs

end Refinement

/-- The phases of each strategy. -/
def Builtin.has : Builtin → LoopPhase → Bool
  | _, .waiting => true
  | _, .leaving => true
  | _, .ended => true
  | .onStart, .ready => true
  | .onStart, .passed => true
  | .periodic _, .sending => true
  | .periodic _, .sleeping => true
  | .periodic _, .checking => true
  | .manual, .sending => true
  | .manual, .listening => true
  | _, _ => false

/-- The contexts that a loop holds. -/
def contextsOf : Option Loop → Nat
  | none => 0
  | some ⟨.ended, _⟩ => 0
  | some _ => 1

/-- The triggers of a loop that wait for a slot. -/
def waitsOf : Option Loop → Nat
  | some ⟨.waiting, _⟩ => 1
  | _ => 0

/-- The loops and the system agree on who holds a context and whose trigger waits. -/
structure Agrees (strategies : Nat → Builtin) (tasks : List Nat) (s : State) : Prop where
  fresh : ∀ i ∈ s.base.phase.rest, s.loops i = none
  distinct : s.base.phase.rest.Nodup
  contexts : ∀ i, s.base.contexts.count i = contextsOf (s.loops i)
  blocked : ∀ i, s.base.blocked.count i = waitsOf (s.loops i)
  known : ∀ i loop, s.loops i = some loop → i ∈ tasks
  has : ∀ i loop, s.loops i = some loop → (strategies i).has loop.phase = true

section Agreement

variable {strategies : Nat → Builtin} {top : Nat} {tasks : List Nat} {s t : State} {e : Event}
  {i : Nat} {loop next : Loop}

/-- The builder, the owners and the worker leave the strategies alone. -/
theorem ofSystem_keeps {a b : Maintenance.State} {e : Maintenance.Event} (own : ofSystem e = true)
    (h : Maintenance.Step top a e b) :
    b.phase.rest = a.phase.rest ∧ b.contexts = a.contexts ∧ b.blocked = a.blocked := by
  cases h with
  | scheduled phase => exact ⟨by rw [phase]; rfl, rfl, rfl⟩
  | built phase => exact ⟨by rw [phase]; rfl, rfl, rfl⟩
  | schedule phase => cases own
  | scheduleFailed phase => cases own
  | cloneContext context => cases own
  | dropContext context => cases own
  | send context open_ room => cases own
  | block context open_ full => cases own
  | unblock waits open_ room => cases own
  | giveUp waits => cases own
  | _ => exact ⟨rfl, rfl, rfl⟩

/-- A loop that is there moves on. -/
theorem Agrees.move (h : Agrees strategies tasks s) (hloop : s.loops i = some loop)
    (hloops : t.loops = Function.update s.loops i (some next))
    (hrest : t.base.phase.rest = s.base.phase.rest)
    (hcontexts : ∀ j, j ≠ i → t.base.contexts.count j = s.base.contexts.count j)
    (hcontext : t.base.contexts.count i = contextsOf (some next))
    (hblocked : ∀ j, j ≠ i → t.base.blocked.count j = s.base.blocked.count j)
    (hwaits : t.base.blocked.count i = waitsOf (some next))
    (hhas : (strategies i).has next.phase = true) : Agrees strategies tasks t := by
  constructor
  · intro j hj
    rw [hrest] at hj
    have hne : j ≠ i := by
      rintro rfl
      rw [h.fresh j hj] at hloop
      cases hloop
    rw [hloops, Function.update_of_ne hne]
    exact h.fresh j hj
  · rw [hrest]
    exact h.distinct
  · intro j
    by_cases hsame : j = i
    · rw [hsame, hcontext, hloops, Function.update_self]
    · rw [hcontexts j hsame, hloops, Function.update_of_ne hsame]
      exact h.contexts j
  · intro j
    by_cases hsame : j = i
    · rw [hsame, hwaits, hloops, Function.update_self]
    · rw [hblocked j hsame, hloops, Function.update_of_ne hsame]
      exact h.blocked j
  · intro j other hother
    by_cases hsame : j = i
    · rw [hsame]
      exact h.known i loop hloop
    · rw [hloops, Function.update_of_ne hsame] at hother
      exact h.known j other hother
  · intro j other hother
    by_cases hsame : j = i
    · rw [hsame] at hother ⊢
      rw [hloops, Function.update_self] at hother
      cases hother
      exact hhas
    · rw [hloops, Function.update_of_ne hsame] at hother
      exact h.has j other hother

/-- A loop that moves on by itself, and keeps its context. -/
theorem Agrees.moveAlone (h : Agrees strategies tasks s) (hloop : s.loops i = some loop)
    (hcontext : contextsOf (some next) = contextsOf (some loop))
    (hwaits : waitsOf (some next) = waitsOf (some loop))
    (hhas : (strategies i).has next.phase = true) : Agrees strategies tasks (s.setLoop i next) := by
  refine h.move hloop rfl rfl (fun _ _ => rfl) ?_ (fun _ _ => rfl) ?_ hhas
  · rw [State.setLoop_base, h.contexts, hloop, hcontext]
  · rw [State.setLoop_base, h.blocked, hloop, hwaits]

theorem Builtin.has_afterTrigger (strategy : Builtin) :
    strategy.has strategy.afterTrigger = true := by
  cases strategy <;> rfl

theorem Builtin.has_spawned (strategy : Builtin) (version : Nat) :
    strategy.has (strategy.spawned version).phase = true := by
  obtain _ | (_ | _) | _ := strategy <;> rfl

theorem Builtin.contextsOf_spawned (strategy : Builtin) (version : Nat) :
    contextsOf (some (strategy.spawned version)) = 1 := by
  obtain _ | (_ | _) | _ := strategy <;> rfl

theorem Builtin.waitsOf_spawned (strategy : Builtin) (version : Nat) :
    waitsOf (some (strategy.spawned version)) = 0 := by
  obtain _ | (_ | _) | _ := strategy <;> rfl

theorem Builtin.contextsOf_afterTrigger (strategy : Builtin) (seen : Nat) :
    contextsOf (some ⟨strategy.afterTrigger, seen⟩) = 1 := by
  cases strategy <;> rfl

theorem Builtin.waitsOf_afterTrigger (strategy : Builtin) (seen : Nat) :
    waitsOf (some ⟨strategy.afterTrigger, seen⟩) = 0 := by
  cases strategy <;> rfl

theorem LoopPhase.triggers_cases {phase : LoopPhase} (h : phase.triggers = true) :
    phase = .passed ∨ phase = .sending := by
  cases phase <;> simp_all [LoopPhase.triggers]

theorem LoopPhase.heeds_cases {phase : LoopPhase} (h : phase.heedsCancellation = true) :
    phase = .ready ∨ phase = .sleeping ∨ phase = .checking ∨ phase = .listening := by
  cases phase <;> simp_all [LoopPhase.heedsCancellation]

/-- The next strategy has no loop yet. -/
theorem Agrees.unscheduled (h : Agrees strategies tasks s) {b : Maintenance.State}
    (hstep : Maintenance.Step top s.base (.schedule i) b) : s.loops i = none := by
  cases hstep with
  | schedule phase =>
      refine h.fresh i ?_
      rw [phase]
      exact List.mem_cons_self

/-- `do_build` hands a context to the next strategy, whose loop is spawned. -/
theorem Agrees.schedule (h : Agrees strategies tasks s)
    (hrest : ∀ j ∈ s.base.phase.rest, j ∈ tasks) {b : Maintenance.State}
    (hstep : Maintenance.Step top s.base (.schedule i) b) :
    Agrees strategies tasks
      ((s.withBase b).setLoop i ((strategies i).spawned (s.version i))) := by
  cases hstep with
  | @schedule _ rest phase =>
      have hfresh := h.fresh
      have hdistinct := h.distinct
      rw [phase, Phase.rest] at hfresh hdistinct hrest
      rw [List.forall_mem_cons] at hfresh hrest
      rw [List.nodup_cons] at hdistinct
      have hcontext := h.contexts i
      have hblocked := h.blocked i
      rw [hfresh.1] at hcontext hblocked
      constructor
      · intro j hj
        have hne : j ≠ i := by
          rintro rfl
          exact hdistinct.1 hj
        rw [State.setLoop_loops, Function.update_of_ne hne]
        exact hfresh.2 j hj
      · exact hdistinct.2
      · intro j
        change (i :: s.base.contexts).count j = _
        rw [State.setLoop_loops]
        by_cases hsame : j = i
        · rw [hsame, Function.update_self, List.count_cons_self, hcontext,
            Builtin.contextsOf_spawned]
          rfl
        · rw [Function.update_of_ne hsame, List.count_cons_of_ne (Ne.symm hsame)]
          exact h.contexts j
      · intro j
        change s.base.blocked.count j = _
        rw [State.setLoop_loops]
        by_cases hsame : j = i
        · rw [hsame, Function.update_self, hblocked, Builtin.waitsOf_spawned]
          rfl
        · rw [Function.update_of_ne hsame]
          exact h.blocked j
      · intro j other hother
        by_cases hsame : j = i
        · rw [hsame]
          exact hrest.1
        · rw [State.setLoop_loops, Function.update_of_ne hsame] at hother
          exact h.known j other hother
      · intro j other hother
        rw [State.setLoop_loops] at hother
        by_cases hsame : j = i
        · rw [hsame, Function.update_self] at hother
          cases hother
          rw [hsame]
          exact Builtin.has_spawned _ _
        · rw [Function.update_of_ne hsame] at hother
          exact h.has j other hother

/-- A trigger that waits is given up, and the loop ends. -/
theorem Agrees.giveUp (h : Agrees strategies tasks s) {seen : Nat} {b : Maintenance.State}
    (hloop : s.loops i = some ⟨.waiting, seen⟩)
    (hstep : Maintenance.Step top s.base (.giveUp i) b) :
    Agrees strategies tasks ((s.withBase b).setLoop i ⟨.leaving, seen⟩) := by
  cases hstep with
  | giveUp waits =>
      refine h.move hloop rfl rfl (fun _ _ => rfl) ?_ (fun j hj => ?_) ?_
        (by cases strategies i <;> rfl)
      · refine (h.contexts i).trans ?_
        rw [hloop]
        rfl
      · exact List.count_erase_of_ne hj
      · change (s.base.blocked.erase i).count i = _
        rw [List.count_erase_self, h.blocked, hloop]
        rfl

/-- Every step keeps the agreement. -/
theorem Agrees.step (h : Agrees strategies tasks s)
    (hrest : ∀ j ∈ s.base.phase.rest, j ∈ tasks) (hstep : Step strategies top s e t) :
    Agrees strategies tasks t := by
  cases hstep with
  | system own step =>
      obtain ⟨hphase, hcontexts, hblocked⟩ := ofSystem_keeps own step
      constructor
      · exact fun j hj => h.fresh j (hphase ▸ hj)
      · exact hphase.symm ▸ h.distinct
      · exact fun j => hcontexts.symm ▸ h.contexts j
      · exact fun j => hblocked.symm ▸ h.blocked j
      · exact h.known
      · exact h.has
  | schedule step => exact h.schedule hrest step
  | @pass i seen loop uncancelled =>
      have hhas := h.has i _ loop
      refine h.moveAlone loop rfl rfl ?_
      cases hi : strategies i <;> simp_all [Builtin.has]
  | @heed i seen phase loop heeds cancelled =>
      obtain rfl | rfl | rfl | rfl := LoopPhase.heeds_cases heeds
      all_goals exact h.moveAlone loop rfl rfl (by cases strategies i <;> rfl)
  | @send i seen phase b loop triggers step =>
      cases step with
      | send context open_ room =>
          refine h.move loop rfl rfl (fun _ _ => rfl) ?_ (fun _ _ => rfl) ?_
            (Builtin.has_afterTrigger _)
          · rw [Builtin.contextsOf_afterTrigger]
            refine (h.contexts i).trans ?_
            rw [loop]
            obtain rfl | rfl := LoopPhase.triggers_cases triggers <;> rfl
          · rw [Builtin.waitsOf_afterTrigger]
            refine (h.blocked i).trans ?_
            rw [loop]
            obtain rfl | rfl := LoopPhase.triggers_cases triggers <;> rfl
  | @block i seen phase b loop triggers step =>
      cases step with
      | block context open_ full =>
          refine h.move loop rfl rfl (fun _ _ => rfl) ?_ (fun j hj => ?_) ?_
            (by cases strategies i <;> rfl)
          · refine (h.contexts i).trans ?_
            rw [loop]
            obtain rfl | rfl := LoopPhase.triggers_cases triggers <;> rfl
          · change (s.base.blocked ++ [i]).count j = _
            rw [List.count_append, List.count_singleton, if_neg (by simpa using Ne.symm hj)]
            rfl
          · change (s.base.blocked ++ [i]).count i = _
            rw [List.count_append, List.count_singleton_self, h.blocked, loop]
            obtain rfl | rfl := LoopPhase.triggers_cases triggers <;> rfl
  | @unblock i seen b loop step =>
      cases step with
      | unblock waits open_ room =>
          refine h.move loop rfl rfl (fun _ _ => rfl) ?_ (fun j hj => ?_) ?_
            (Builtin.has_afterTrigger _)
          · rw [Builtin.contextsOf_afterTrigger]
            refine (h.contexts i).trans ?_
            rw [loop]
            rfl
          · exact List.count_erase_of_ne hj
          · change (s.base.blocked.erase i).count i = _
            rw [Builtin.waitsOf_afterTrigger, List.count_erase_self, h.blocked, loop]
            rfl
  | @refused i seen phase loop triggers stopped =>
      obtain rfl | rfl := LoopPhase.triggers_cases triggers
      all_goals exact h.moveAlone loop rfl rfl (by cases strategies i <;> rfl)
  | @refusedWaiting i seen b loop stopped step => exact h.giveUp loop step
  | @abandon i seen b loop onStart cancelled step => exact h.giveUp loop step
  | @elapse i seen loop =>
      have hhas := h.has i _ loop
      refine h.moveAlone loop rfl rfl ?_
      cases hi : strategies i <;> simp_all [Builtin.has]
  | @proceed i seen loop uncancelled =>
      have hhas := h.has i _ loop
      refine h.moveAlone loop rfl rfl ?_
      cases hi : strategies i <;> simp_all [Builtin.has]
  | @wake i seen loop moved =>
      have hhas := h.has i _ loop
      refine h.moveAlone loop rfl rfl ?_
      cases hi : strategies i <;> simp_all [Builtin.has]
  | @senderGone i loop closed =>
      exact h.moveAlone loop rfl rfl (by cases strategies i <;> rfl)
  | @leave i seen b loop step =>
      cases step with
      | dropContext context =>
          refine h.move loop rfl rfl (fun j hj => ?_) ?_ (fun _ _ => rfl) ?_
            (by cases strategies i <;> rfl)
          · exact List.count_erase_of_ne hj
          · change (s.base.contexts.erase i).count i = _
            rw [List.count_erase_self, h.contexts, loop]
            rfl
          · refine (h.blocked i).trans ?_
            rw [loop]
            rfl
  | trigger open_ => exact ⟨h.fresh, h.distinct, h.contexts, h.blocked, h.known, h.has⟩
  | close open_ => exact ⟨h.fresh, h.distinct, h.contexts, h.blocked, h.known, h.has⟩

end Agreement

end Strategies

end Maintenance

end BlobStorage
