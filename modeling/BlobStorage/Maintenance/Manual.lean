import BlobStorage.Maintenance.Builder
import Mathlib.Data.List.Count
import Mathlib.Logic.Function.Basic

/-!
# Manual triggers

`Manual::trigger` and the loops of `Manual::schedule`, with any number of callers `γ` and any
number of registrations `ι` of one handle. A watch channel keeps a value and a version: every
send to a channel that has receivers raises the version, and `changed` completes when the
version is not the one seen last. Nothing is cancelled, so that the queue stays open as long as
there is a loop.
-/

namespace BlobStorage

namespace Maintenance

namespace Manual

open Transition

variable {ι γ : Type} [DecidableEq ι] [DecidableEq γ]

/-- A loop waits in `select!`, or it has been woken and its `ctx.trigger()` waits for a slot. It
ends when the sender is dropped. -/
inductive LoopPhase where
  | waiting
  | sending
  | ended
  deriving DecidableEq, Repr

structure Loop where
  /-- The version that the receiver saw last. -/
  seen : Nat
  phase : LoopPhase
  deriving DecidableEq, Repr

structure State (ι γ : Type) where
  value : UInt64
  version : Nat
  /-- The last clone of the handle is gone. -/
  closed : Bool
  /-- The value that a caller inside `trigger` has read. -/
  callers : γ → Option UInt64
  loops : ι → Option Loop
  /-- The queued tasks, those of other strategies among them. -/
  queue : List (Option ι)
  /-- The worker runs a task. -/
  busy : Bool

/-- `Manual::new`. -/
def new : State ι γ where
  value := 0
  version := 0
  closed := false
  callers _ := none
  loops _ := none
  queue := []
  busy := false

inductive Event (ι γ : Type) where
  /-- A caller reads the value of the channel. -/
  | read (c : γ)
  /-- It sends the next value, to a channel with or without receivers. -/
  | send (c : γ)
  | unheard (c : γ)
  | subscribe (r : ι)
  /-- `changed` completes. -/
  | wake (r : ι)
  /-- The task of a registration gets a slot. -/
  | enqueue (r : ι)
  | close
  | leave (r : ι)
  | other
  | receive
  | finish
  deriving DecidableEq

/-- A call of `trigger` takes effect when it sends. -/
def Event.isTrigger : Event ι γ → Bool
  | .send _ => true
  | .unheard _ => true
  | _ => false

/-- The channel has a receiver. -/
def Subscribed (s : State ι γ) : Prop :=
  ∃ r loop, s.loops r = some loop ∧ loop.phase ≠ .ended

inductive Step : State ι γ → Event ι γ → State ι γ → Prop where
  | read {s : State ι γ} {c : γ} (fresh : s.callers c = none) (open_ : s.closed = false) :
      Step s (.read c) { s with callers := Function.update s.callers c (some s.value) }
  | send {s : State ι γ} {c : γ} {current : UInt64} (reads : s.callers c = some current)
      (heard : Subscribed s) :
      Step s (.send c) { s with
        value := current + 1
        version := s.version + 1
        callers := Function.update s.callers c none }
  | unheard {s : State ι γ} {c : γ} {current : UInt64} (reads : s.callers c = some current)
      (unheard : ¬Subscribed s) :
      Step s (.unheard c) { s with callers := Function.update s.callers c none }
  | subscribe {s : State ι γ} {r : ι} (fresh : s.loops r = none) (open_ : s.closed = false) :
      Step s (.subscribe r) { s with
        loops := Function.update s.loops r (some ⟨s.version, .waiting⟩) }
  | wake {s : State ι γ} {r : ι} {seen : Nat} (loop : s.loops r = some ⟨seen, .waiting⟩)
      (moved : seen ≠ s.version) :
      Step s (.wake r) { s with
        loops := Function.update s.loops r (some ⟨s.version, .sending⟩) }
  | enqueue {s : State ι γ} {r : ι} {seen : Nat} (loop : s.loops r = some ⟨seen, .sending⟩)
      (room : s.queue.length < queueCapacity) :
      Step s (.enqueue r) { s with
        queue := s.queue ++ [some r]
        loops := Function.update s.loops r (some ⟨seen, .waiting⟩) }
  | close {s : State ι γ} (idle : ∀ c, s.callers c = none) (open_ : s.closed = false) :
      Step s .close { s with closed := true }
  -- A version that has not been seen yet completes `changed` even when the sender is gone.
  | leave {s : State ι γ} {r : ι} (loop : s.loops r = some ⟨s.version, .waiting⟩)
      (closed : s.closed = true) :
      Step s (.leave r) { s with
        loops := Function.update s.loops r (some ⟨s.version, .ended⟩) }
  | other {s : State ι γ} (room : s.queue.length < queueCapacity) :
      Step s .other { s with queue := s.queue ++ [none] }
  | receive {s : State ι γ} {task : Option ι} {rest : List (Option ι)} (idle : s.busy = false)
      (queue : s.queue = task :: rest) :
      Step s .receive { s with queue := rest, busy := true }
  | finish {s : State ι γ} (busy : s.busy = true) : Step s .finish { s with busy := false }

section History

variable {history rest : List (Event ι γ)} {e : Event ι γ} {r : ι}

/-- What happened after a registration subscribed. -/
def afterSubscribing (r : ι) : List (Event ι γ) → List (Event ι γ)
  | [] => []
  | e :: rest => if e = .subscribe r then rest else afterSubscribing r rest

/-- The most recent trigger, if there was one, was followed by a task of the registration. -/
def Served (r : ι) (history : List (Event ι γ)) : Prop :=
  ∀ earlier e later, history = earlier ++ e :: later → e.isTrigger = true →
    (∀ x ∈ later, x.isTrigger = false) → .enqueue r ∈ later

theorem afterSubscribing_append (h : .subscribe r ∈ history) (later : List (Event ι γ)) :
    afterSubscribing r (history ++ later) = afterSubscribing r history ++ later := by
  induction history with
  | nil => cases h
  | cons first rest ih =>
      rw [List.cons_append, afterSubscribing, afterSubscribing]
      by_cases hfirst : first = .subscribe r
      · rw [if_pos hfirst, if_pos hfirst]
      · rw [if_neg hfirst, if_neg hfirst]
        exact ih ((List.mem_cons.mp h).resolve_left (Ne.symm hfirst))

theorem afterSubscribing_concat (h : .subscribe r ∉ history) :
    afterSubscribing r (history ++ [.subscribe r]) = [] := by
  induction history with
  | nil => rw [List.nil_append, afterSubscribing, if_pos rfl]
  | cons first rest ih =>
      rw [List.mem_cons, not_or] at h
      rw [List.cons_append, afterSubscribing, if_neg (Ne.symm h.1), ih h.2]

omit [DecidableEq ι] [DecidableEq γ] in
theorem Served.concat (h : Served r history) (he : e.isTrigger = false) :
    Served r (history ++ [e]) := by
  intro earlier x later hsplit hx hlater
  obtain ⟨_, rfl⟩ | ⟨front, rfl, hhistory⟩ := concat_eq_append_cons hsplit
  · rw [he] at hx
    cases hx
  · rw [List.forall_mem_append] at hlater
    exact List.mem_append_left _ (h earlier x front hhistory hx hlater.1)

omit [DecidableEq ι] [DecidableEq γ] in
theorem served_enqueue (r : ι) (history : List (Event ι γ)) :
    Served r (history ++ [.enqueue r]) := by
  intro earlier x later hsplit hx _
  obtain ⟨_, rfl⟩ | ⟨front, rfl, _⟩ := concat_eq_append_cons hsplit
  · cases hx
  · exact List.mem_append_right _ (List.mem_singleton_self _)

omit [DecidableEq ι] [DecidableEq γ] in
theorem served_nil (r : ι) : Served r ([] : List (Event ι γ)) := by
  intro earlier x later hsplit
  simp at hsplit

end History

/-- The task that a woken loop is about to enqueue. -/
def LoopPhase.pending : LoopPhase → Nat
  | .sending => 1
  | _ => 0

/-- What is known of a loop after a history: it has enqueued a task for no more versions than it
has seen since it subscribed, and when it waits with nothing unseen the last trigger was served. -/
structure Tracked (r : ι) (history : List (Event ι γ)) (s : State ι γ) (loop : Loop)
    (since : Nat) : Prop where
  subscribed : .subscribe r ∈ history
  enqueued : since + history.count (.enqueue r) + loop.phase.pending ≤ loop.seen
  seen : loop.seen ≤ s.version
  triggered : s.version ≤ since + (afterSubscribing r history).countP Event.isTrigger
  served : loop.phase = .waiting → loop.seen = s.version → Served r (afterSubscribing r history)

/-- What is known of every registration. -/
def Tracks (r : ι) (history : List (Event ι γ)) (s : State ι γ) : Prop :=
  (s.loops r = none ∧ .subscribe r ∉ history ∧ .enqueue r ∉ history) ∨
    ∃ loop since, s.loops r = some loop ∧ Tracked r history s loop since

section Invariant

variable {history : List (Event ι γ)} {s t : State ι γ} {e : Event ι γ} {r : ι} {loop : Loop}
  {since : Nat}

/-- A step that does not raise the version. -/
theorem Tracked.renew (h : Tracked r history s loop since) {next : Loop}
    (hversion : t.version = s.version)
    (henqueued : since + (history ++ [e]).count (.enqueue r) + next.phase.pending ≤ next.seen)
    (hseen : next.seen ≤ s.version)
    (hserved : next.phase = .waiting → next.seen = s.version →
      Served r (afterSubscribing r history ++ [e])) :
    Tracked r (history ++ [e]) t next since where
  subscribed := List.mem_append_left _ h.subscribed
  enqueued := henqueued
  seen := by
    rw [hversion]
    exact hseen
  triggered := by
    rw [hversion, afterSubscribing_append h.subscribed, List.countP_append]
    have htriggered := h.triggered
    omega
  served := by
    rw [hversion, afterSubscribing_append h.subscribed]
    exact hserved

theorem count_enqueue_concat (hne : e ≠ .enqueue r) :
    (history ++ [e]).count (.enqueue r) = history.count (.enqueue r) := by
  have habsent : Event.enqueue r ∉ [e] := by simpa using Ne.symm hne
  rw [List.count_append, List.count_eq_zero.mpr habsent, Nat.add_zero]

/-- A step that leaves the loop, the version and the triggers alone. -/
theorem Tracks.quiet (h : Tracks r history s) (hloop : t.loops r = s.loops r)
    (hversion : t.version = s.version) (htrigger : e.isTrigger = false)
    (hsubscribe : e ≠ .subscribe r) (henqueue : e ≠ .enqueue r) :
    Tracks r (history ++ [e]) t := by
  obtain ⟨hnone, hsub, henq⟩ | ⟨loop, since, hsome, htracked⟩ := h
  · refine .inl ⟨hloop.trans hnone, ?_, ?_⟩
    · simp [hsub, Ne.symm hsubscribe]
    · simp [henq, Ne.symm henqueue]
  · refine .inr ⟨loop, since, hloop.trans hsome, htracked.renew hversion ?_ htracked.seen ?_⟩
    · rw [count_enqueue_concat henqueue]
      exact htracked.enqueued
    · exact fun hphase hseen => (htracked.served hphase hseen).concat htrigger

/-- A step of the loop itself, which is there. -/
theorem Tracks.own (h : Tracks r history s) (hloop : s.loops r = some loop) :
    ∃ since, Tracked r history s loop since := by
  obtain ⟨hnone, _⟩ | ⟨loop', since, hsome, htracked⟩ := h
  · rw [hnone] at hloop
    cases hloop
  · rw [hloop] at hsome
    cases hsome
    exact ⟨since, htracked⟩

/-- Every step keeps what is known of every registration. -/
theorem Tracks.step (h : Tracks r history s) (hstep : Step s e t) :
    Tracks r (history ++ [e]) t := by
  cases hstep with
  | read fresh open_ => exact h.quiet rfl rfl rfl (by simp) (by simp)
  | @send c current reads heard =>
      obtain ⟨hnone, hsub, henq⟩ | ⟨loop, since, hsome, htracked⟩ := h
      · exact .inl ⟨hnone, by simp [hsub], by simp [henq]⟩
      · refine .inr ⟨loop, since, hsome, ?_⟩
        have hseen := htracked.seen
        have htriggered := htracked.triggered
        constructor
        · exact List.mem_append_left _ htracked.subscribed
        · rw [count_enqueue_concat (by simp)]
          exact htracked.enqueued
        · exact Nat.le_succ_of_le hseen
        · rw [afterSubscribing_append htracked.subscribed, List.countP_append]
          show s.version + 1 ≤ since + (_ + 1)
          omega
        · -- The version has just moved away from the one that the loop saw.
          intro _ hmoved
          have hversion : loop.seen = s.version + 1 := hmoved
          omega
  | @unheard c current reads unheard =>
      obtain ⟨hnone, hsub, henq⟩ | ⟨loop, since, hsome, htracked⟩ := h
      · exact .inl ⟨hnone, by simp [hsub], by simp [henq]⟩
      · refine .inr ⟨loop, since, hsome, htracked.renew rfl ?_ htracked.seen ?_⟩
        · rw [count_enqueue_concat (by simp)]
          exact htracked.enqueued
        · -- A loop that waits would have heard the trigger.
          intro hphase _
          refine absurd ⟨r, loop, hsome, ?_⟩ unheard
          rw [hphase]
          decide
  | @subscribe r' fresh open_ =>
      by_cases hsame : r = r'
      · subst hsame
        obtain ⟨_, hsub, henq⟩ | ⟨loop, since, hsome, _⟩ := h
        · refine .inr ⟨⟨s.version, .waiting⟩, s.version, Function.update_self .., ?_⟩
          constructor
          · exact List.mem_append_right _ (List.mem_singleton_self _)
          · rw [count_enqueue_concat (by simp), List.count_eq_zero.mpr henq]
            exact Nat.le_refl _
          · exact Nat.le_refl _
          · exact Nat.le_add_right _ _
          · intro _ _
            rw [afterSubscribing_concat hsub]
            exact served_nil r
        · rw [fresh] at hsome
          cases hsome
      · exact h.quiet (Function.update_of_ne hsame _ _) rfl rfl (by simpa using Ne.symm hsame)
          (by simp)
  | @wake r' seen loop moved =>
      by_cases hsame : r = r'
      · subst hsame
        obtain ⟨since, htracked⟩ := h.own loop
        have henqueued : since + history.count (.enqueue r) + 0 ≤ seen := htracked.enqueued
        have hseen : seen ≤ s.version := htracked.seen
        refine .inr ⟨_, since, Function.update_self .., htracked.renew rfl ?_ (Nat.le_refl _) ?_⟩
        · rw [count_enqueue_concat (by simp)]
          show since + _ + 1 ≤ s.version
          omega
        · intro hphase
          cases hphase
      · exact h.quiet (Function.update_of_ne hsame _ _) rfl rfl (by simp) (by simp)
  | @enqueue r' seen loop room =>
      by_cases hsame : r = r'
      · subst hsame
        obtain ⟨since, htracked⟩ := h.own loop
        have henqueued : since + history.count (.enqueue r) + 1 ≤ seen := htracked.enqueued
        refine .inr ⟨_, since, Function.update_self .., htracked.renew rfl ?_ htracked.seen ?_⟩
        · rw [List.count_append, List.count_singleton_self]
          show since + (_ + 1) + 0 ≤ seen
          omega
        · exact fun _ _ => served_enqueue r _
      · exact h.quiet (Function.update_of_ne hsame _ _) rfl rfl (by simp)
          (by simpa using Ne.symm hsame)
  | close idle open_ => exact h.quiet rfl rfl rfl (by simp) (by simp)
  | @leave r' loop closed =>
      by_cases hsame : r = r'
      · subst hsame
        obtain ⟨since, htracked⟩ := h.own loop
        refine .inr ⟨_, since, Function.update_self .., htracked.renew rfl ?_ (Nat.le_refl _) ?_⟩
        · rw [count_enqueue_concat (by simp)]
          exact htracked.enqueued
        · intro hphase
          cases hphase
      · exact h.quiet (Function.update_of_ne hsame _ _) rfl rfl (by simp) (by simp)
  | other room => exact h.quiet rfl rfl rfl (by simp) (by simp)
  | receive idle queue => exact h.quiet rfl rfl rfl (by simp) (by simp)
  | finish busy => exact h.quiet rfl rfl rfl (by simp) (by simp)

theorem tracks (h : Run Step new history s) (r : ι) : Tracks r history s := by
  induction h with
  | start => exact .inl ⟨rfl, List.not_mem_nil, List.not_mem_nil⟩
  | step _ next ih => exact ih.step next

end Invariant

/-- In every run, a registration enqueues at most as many tasks as there were triggers after it
subscribed; and whenever its loop waits with nothing unseen, a task of its was enqueued after
the most recent of these triggers. -/
theorem triggers_are_served {history : List (Event ι γ)} {s : State ι γ}
    (h : Run Step new history s) (r : ι) :
    history.count (.enqueue r) ≤ (afterSubscribing r history).countP Event.isTrigger ∧
      (s.loops r = some ⟨s.version, .waiting⟩ → Served r (afterSubscribing r history)) := by
  obtain ⟨hnone, _, henqueue⟩ | ⟨loop, since, hsome, htracked⟩ := tracks h r
  · refine ⟨?_, fun hloop => ?_⟩
    · rw [List.count_eq_zero.mpr henqueue]
      exact Nat.zero_le _
    · rw [hnone] at hloop
      cases hloop
  · refine ⟨?_, fun hloop => ?_⟩
    · have henqueued := htracked.enqueued
      have hseen := htracked.seen
      have htriggered := htracked.triggered
      omega
    · rw [hsome] at hloop
      cases hloop
      exact htracked.served rfl rfl

/-- The second trigger comes while the loop enqueues the task of the first. -/
def overlapping : List (Event Unit Unit) :=
  [.subscribe (), .read (), .send (), .wake (), .read (), .send (), .enqueue (), .receive,
    .wake (), .enqueue ()]

theorem triggers_are_served_overlapping :
    ∃ s : State Unit Unit, Run Step new overlapping s ∧ s.loops () = some ⟨s.version, .waiting⟩ ∧
      overlapping.count (.enqueue ()) ≤
        (afterSubscribing () overlapping).countP Event.isTrigger ∧
      Served () (afterSubscribing () overlapping) := by
  have hrun : ∃ s : State Unit Unit, Run Step new overlapping s ∧
      s.loops () = some ⟨s.version, .waiting⟩ := by
    refine ⟨_, .head (.subscribe rfl rfl) <| .head (.read rfl rfl) <|
      .head (.send rfl ⟨(), _, rfl, by decide⟩) <| .head (.wake rfl (by decide)) <|
      .head (.read rfl rfl) <| .head (.send rfl ⟨(), _, rfl, by decide⟩) <|
      .head (.enqueue rfl (by decide)) <| .head (.receive rfl rfl) <|
      .head (.wake rfl (by decide)) <| .single (.enqueue rfl (by decide)), rfl⟩
  obtain ⟨s, hhistory, hloop⟩ := hrun
  obtain ⟨hcount, hserved⟩ := triggers_are_served hhistory ()
  exact ⟨s, hhistory, hloop, hcount, hserved hloop⟩

end Manual

end Maintenance

end BlobStorage
