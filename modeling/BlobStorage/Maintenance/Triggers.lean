import BlobStorage.Maintenance.Serving

/-!
# No trigger is missed

In the system of the builder, the owners of handles and the worker: while the store is in use, a
trigger of a `Manual` is followed by a task of each registration that was there, or the loop of
the registration is on its way to send one.
-/

namespace BlobStorage

namespace Maintenance

namespace Strategies

open Transition

/-- A trigger since the loop of task `i` was spawned, after which no task was sent. -/
def Unserved (i : Nat) (history : List Event) : Prop :=
  ∃ earlier later, history = earlier ++ .trigger i :: later ∧ .schedule i ∈ earlier ∧
    ∀ e ∈ later, e.enqueues i = false

/-- The event spawns the loop of task `i`, or triggers it. -/
def Event.addresses (i : Nat) : Event → Bool
  | .schedule j => j = i
  | .trigger j => j = i
  | _ => false

/-- The loop is on its way to send a task. -/
def Loop.Sends (loop : Loop) (version : Nat) : Prop :=
  loop.phase = .sending ∨ loop.phase = .waiting ∨
    loop.phase = .listening ∧ loop.seen ≠ version

/-- What is known of the loop of a `Manual` after a history. -/
structure Heeds (history : List Event) (s : State) (i : Nat) : Prop where
  spawned : .schedule i ∈ history → s.loops i ≠ none
  seen : ∀ loop, s.loops i = some loop → loop.seen ≤ s.version i
  sends : Unserved i history → ∃ loop, s.loops i = some loop ∧ loop.Sends (s.version i)

section Steps

variable {strategies : Nat → Builtin} {top : Nat} {tasks : List Nat} {history : List Event}
  {s t : State} {e : Event} {i j : Nat} {loop next : Loop}

theorem Unserved.of_concat (h : Unserved i (history ++ [e])) :
    e.enqueues i = false ∧ (Unserved i history ∨ e = .trigger i ∧ .schedule i ∈ history) := by
  obtain ⟨earlier, later, hsplit, hscheduled, hnone⟩ := h
  obtain ⟨rfl, rfl⟩ | ⟨front, rfl, hfront⟩ := concat_eq_append_cons hsplit
  · obtain rfl := List.append_inj_left' hsplit rfl
    exact ⟨rfl, .inr ⟨rfl, hscheduled⟩⟩
  · rw [List.forall_mem_append] at hnone
    exact ⟨hnone.2 e (List.mem_singleton_self e),
      .inl ⟨earlier, front, hfront, hscheduled, hnone.1⟩⟩

/-- A step that neither spawns the loop nor triggers it, nor lets it move. -/
theorem Heeds.quiet (h : Heeds history s i) (hloop : t.loops i = s.loops i)
    (hversion : t.version i = s.version i) (hother : e.addresses i = false) :
    Heeds (history ++ [e]) t i where
  spawned := by
    intro hmem
    rw [hloop]
    refine h.spawned ((List.mem_append.mp hmem).resolve_right fun hlast => ?_)
    rw [← List.mem_singleton.mp hlast] at hother
    simp [Event.addresses] at hother
  seen := by
    rw [hloop, hversion]
    exact h.seen
  sends := by
    intro hunserved
    rw [hloop, hversion]
    refine h.sends (hunserved.of_concat.2.resolve_right fun hlast => ?_)
    rw [hlast.1] at hother
    simp [Event.addresses] at hother

/-- A loop moves on, and sends if it was on its way to and did not just now. -/
theorem Heeds.move (h : Heeds history s i) (hloop : s.loops j = some loop)
    (b : Maintenance.State) (hother : e.addresses i = false)
    (hseen : j = i → next.seen ≤ s.version j)
    (hsends : j = i → e.enqueues i = false → loop.Sends (s.version j) →
      next.Sends (s.version j)) :
    Heeds (history ++ [e]) ((s.withBase b).setLoop j next) i := by
  by_cases hsame : j = i
  · subst hsame
    have hnext : ((s.withBase b).setLoop j next).loops j = some next := by
      rw [State.setLoop_loops, Function.update_self]
    constructor
    · intro _
      rw [hnext]
      exact Option.some_ne_none _
    · intro other hloop'
      rw [hnext] at hloop'
      cases hloop'
      exact hseen rfl
    · intro hunserved
      obtain ⟨hsilent, hbefore⟩ := hunserved.of_concat
      have hunserved' : Unserved j history := by
        refine hbefore.resolve_right fun hlast => ?_
        rw [hlast.1] at hother
        simp [Event.addresses] at hother
      obtain ⟨before, hbefore, hsent⟩ := h.sends hunserved'
      rw [hloop] at hbefore
      cases hbefore
      exact ⟨next, hnext, hsends rfl hsilent hsent⟩
  · refine h.quiet ?_ rfl hother
    rw [State.setLoop_loops, Function.update_of_ne (Ne.symm hsame)]
    rfl

theorem Builtin.has_manual {phase : LoopPhase} (h : Builtin.manual.has phase = true) :
    phase = .sending ∨ phase = .waiting ∨ phase = .listening ∨ phase = .leaving ∨
      phase = .ended := by
  cases phase <;> simp_all [Builtin.has]

/-- A trigger puts the loop on its way. -/
theorem Heeds.trigger (h : Heeds history s i) (hagrees : Agrees strategies tasks s)
    (hgoesOn : GoesOn strategies s i) (hmanual : strategies i = .manual)
    (hopen : s.closed i = false) :
    Heeds (history ++ [.trigger i])
      { s with version := Function.update s.version i (s.version i + 1) } i := by
  have hsends : ∀ loop, s.loops i = some loop → loop.Sends (s.version i + 1) := by
    intro loop hloop
    have hgone : ¬(loop.phase = .leaving ∨ loop.phase = .ended) := by
      intro hover
      obtain honStart | ⟨_, hclosed⟩ := hgoesOn loop hloop hover
      · rw [hmanual] at honStart
        cases honStart
      · rw [hopen] at hclosed
        cases hclosed
    have hseen := h.seen loop hloop
    have hhas := hagrees.has i loop hloop
    rw [hmanual] at hhas
    obtain hphase | hphase | hphase | hover := Builtin.has_manual hhas
    · exact .inl hphase
    · exact .inr (.inl hphase)
    · exact .inr (.inr ⟨hphase, by omega⟩)
    · exact absurd hover hgone
  constructor
  · intro hmem
    refine h.spawned ((List.mem_append.mp hmem).resolve_right fun hlast => ?_)
    cases List.mem_singleton.mp hlast
  · intro loop hloop
    change loop.seen ≤ Function.update s.version i (s.version i + 1) i
    rw [Function.update_self]
    exact Nat.le_succ_of_le (h.seen loop hloop)
  · intro hunserved
    have hthere : s.loops i ≠ none := by
      obtain hbefore | ⟨_, hscheduled⟩ := hunserved.of_concat.2
      · obtain ⟨loop, hloop, _⟩ := h.sends hbefore
        rw [hloop]
        exact Option.some_ne_none _
      · exact h.spawned hscheduled
    obtain ⟨loop, hloop⟩ := Option.ne_none_iff_exists'.mp hthere
    refine ⟨loop, hloop, ?_⟩
    change loop.Sends (Function.update s.version i (s.version i + 1) i)
    rw [Function.update_self]
    exact hsends loop hloop

/-- The loop of a `Manual` is spawned, and listens from now on. -/
theorem Heeds.schedule (h : Heeds history s i) (hagrees : Agrees strategies tasks s)
    (hmanual : strategies i = .manual) {b : Maintenance.State}
    (hstep : Maintenance.Step top s.base (.schedule i) b) :
    Heeds (history ++ [.schedule i])
      ((s.withBase b).setLoop i ((strategies i).spawned (s.version i))) i := by
  have hnext : ((s.withBase b).setLoop i ((strategies i).spawned (s.version i))).loops i =
      some ⟨.listening, s.version i⟩ := by
    rw [State.setLoop_loops, Function.update_self, hmanual]
    rfl
  constructor
  · intro _
    rw [hnext]
    exact Option.some_ne_none _
  · intro loop hloop
    rw [hnext] at hloop
    cases hloop
    exact Nat.le_refl _
  · intro hunserved
    obtain hbefore | ⟨hlast, _⟩ := hunserved.of_concat.2
    · obtain ⟨loop, hloop, _⟩ := h.sends hbefore
      rw [hagrees.unscheduled hstep] at hloop
      cases hloop
    · cases hlast

theorem Heeds.step (h : Heeds history s i) (hagrees : Agrees strategies tasks s)
    (hunneeded : Unneeded s.base) (hgoesOn : GoesOn strategies s i)
    (huncancelled : t.base.cancelled = false) (hmanual : strategies i = .manual)
    (hstep : Step strategies top s e t) : Heeds (history ++ [e]) t i := by
  have hs := uncancelled_of_step hstep huncancelled
  have hseen : ∀ {j phase seen}, s.loops j = some ⟨phase, seen⟩ → j = i →
      seen ≤ s.version j := by
    rintro j phase seen hloop rfl
    exact h.seen _ hloop
  cases hstep with
  | system own step => exact h.quiet rfl rfl rfl
  | @schedule j b step =>
      by_cases hsame : j = i
      · subst hsame
        exact h.schedule hagrees hmanual step
      · refine h.quiet ?_ rfl (by simp [Event.addresses, hsame])
        rw [State.setLoop_loops, Function.update_of_ne (Ne.symm hsame)]
        rfl
  | heed loop heeds cancelled =>
      rw [hs] at cancelled
      cases cancelled
  | abandon loop onStart cancelled step =>
      rw [hs] at cancelled
      cases cancelled
  | refused loop triggers stopped =>
      refine absurd stopped (not_stopped hagrees hunneeded hs loop ?_)
      obtain rfl | rfl := LoopPhase.triggers_cases triggers <;> rfl
  | refusedWaiting loop stopped step =>
      exact absurd stopped (not_stopped hagrees hunneeded hs loop rfl)
  | @trigger j open_ =>
      by_cases hsame : j = i
      · subst hsame
        exact h.trigger hagrees hgoesOn hmanual open_
      · refine h.quiet rfl ?_ (by simp [Event.addresses, hsame])
        exact Function.update_of_ne (Ne.symm hsame) ..
  | close open_ => exact h.quiet rfl rfl rfl
  | pass loop uncancelled =>
      refine h.move loop s.base rfl (hseen loop) fun _ _ hsends => ?_
      simp [Loop.Sends] at hsends
  | send loop triggers step =>
      refine h.move loop _ rfl (hseen loop) fun hsame hsilent _ => ?_
      simp [Event.enqueues, hsame] at hsilent
  | block loop triggers step =>
      exact h.move loop _ rfl (hseen loop) fun _ _ _ => .inr (.inl rfl)
  | unblock loop step =>
      refine h.move loop _ rfl (hseen loop) fun hsame hsilent _ => ?_
      simp [Event.enqueues, hsame] at hsilent
  | elapse loop =>
      refine h.move loop s.base rfl (hseen loop) fun _ _ hsends => ?_
      simp [Loop.Sends] at hsends
  | proceed loop uncancelled =>
      exact h.move loop s.base rfl (hseen loop) fun _ _ _ => .inl rfl
  | wake loop moved =>
      exact h.move loop s.base rfl (fun _ => Nat.le_refl _) fun _ _ _ => .inl rfl
  | senderGone loop closed =>
      refine h.move loop s.base rfl (hseen loop) fun _ _ hsends => ?_
      simp [Loop.Sends] at hsends
  | leave loop step =>
      refine h.move loop _ rfl (hseen loop) fun _ _ hsends => ?_
      simp [Loop.Sends] at hsends

end Steps

/-- While a handle to the store exists, each trigger of a `Manual` has been followed by a task of
each registration whose loop was there, or the loop is on its way to send one: it is about to, or
waits for a slot, or is about to see that the version has changed. -/
theorem no_trigger_is_missed (strategies : Nat → Builtin) (layers : List LayerKind)
    {history earlier later : List Event} {s : State} {i : Nat}
    (h : Run (Step strategies layers.length) (start layers) history s)
    (hhandles : 0 < s.base.handles) (hmanual : strategies i = .manual)
    (hsplit : history = earlier ++ .trigger i :: later) (hscheduled : .schedule i ∈ earlier) :
    (∃ e ∈ later, e.enqueues i = true) ∨
      ∃ loop, s.loops i = some loop ∧ loop.Sends (s.version i) := by
  have hinvariant := h.history (fun history s =>
    Settled strategies (collectTasks 1 layers) layers.length s ∧ Unneeded s.base ∧
      (s.base.cancelled = false → GoesOn strategies s i ∧ Heeds history s i)) ?_ ?_
  · have huncancelled : s.base.cancelled = false := by
      by_contra hcancelled
      rw [Bool.not_eq_false] at hcancelled
      have hnot := (hinvariant.1.uncancelled hcancelled).1
      exact hnot (hinvariant.1.sound.handles.mp hhandles)
    by_cases hserved : ∃ e ∈ later, e.enqueues i = true
    · exact .inl hserved
    · refine .inr ((hinvariant.2.2 huncancelled).2.sends ?_)
      refine ⟨earlier, later, hsplit, hscheduled, fun e he => ?_⟩
      rw [← Bool.not_eq_true]
      exact fun hsent => hserved ⟨e, he, hsent⟩
  · intro history s e t hbefore hstep
    obtain ⟨hsettled, hunneeded, hrest⟩ := hbefore
    refine ⟨hsettled.step hstep, hstep.keeps (fun _ _ _ => Unneeded.step) hunneeded, ?_⟩
    intro huncancelled
    obtain ⟨hgoesOn, hheeds⟩ := hrest (uncancelled_of_step hstep huncancelled)
    have hnonzero : strategies i ≠ .periodic 0 := by
      rw [hmanual]
      simp
    exact ⟨hgoesOn.step hsettled.agrees hunneeded huncancelled hnonzero hstep,
      hheeds.step hsettled.agrees hunneeded hgoesOn huncancelled hmanual hstep⟩
  · have hserving := @serving_start strategies layers
    refine ⟨hserving.settled, hserving.unneeded, fun huncancelled =>
      ⟨hserving.goesOn huncancelled i, ?_, ?_, ?_⟩⟩
    · intro hmem
      cases hmem
    · intro loop hloop
      cases hloop
    · rintro ⟨earlier, later, hnil, _⟩
      simp at hnil

/-- A rekeying layer that is triggered by hand, twice before its loop wakes. -/
def triggerEvents : List Event :=
  [.schedule 1, .system .scheduled, .system .built, .trigger 1, .trigger 1, .wake 1]

theorem no_trigger_is_missed_twice :
    ∃ s, Run (Step (fun _ => .manual) 1) (start [.encryption true]) triggerEvents s ∧
      0 < s.base.handles ∧
      ((∃ e ∈ [Event.trigger 1, .wake 1], e.enqueues 1 = true) ∨
        ∃ loop, s.loops 1 = some loop ∧ loop.Sends (s.version 1)) := by
  have hrun : ∃ s, Run (Step (fun _ => .manual) 1) (start [.encryption true]) triggerEvents s ∧
      0 < s.base.handles := by
    refine ⟨_, .head (.schedule (.schedule rfl)) <| .head (.system rfl (.scheduled rfl)) <|
      .head (.system rfl (.built rfl)) <| .head (.trigger rfl) <| .head (.trigger rfl) <|
      .single (@Step.wake _ _ _ 1 0 rfl (by decide)), by decide⟩
  have hsplit : triggerEvents = [Event.schedule 1, .system .scheduled, .system .built] ++
      .trigger 1 :: [.trigger 1, .wake 1] := rfl
  obtain ⟨s, hrun, hhandles⟩ := hrun
  exact ⟨s, hrun, hhandles, no_trigger_is_missed (fun _ => .manual) [.encryption true] hrun
    hhandles rfl hsplit List.mem_cons_self⟩

end Strategies

end Maintenance

end BlobStorage
