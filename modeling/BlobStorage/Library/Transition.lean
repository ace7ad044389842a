import Mathlib.Algebra.BigOperators.Group.List.Basic
import Mathlib.Algebra.GroupWithZero.Nat
import Mathlib.Data.List.Basic

/-!
# Labelled transition systems

A system that takes one labelled step after another. What one step keeps, a run keeps; where
every state that a step leads to has a property and no step with some label is possible in it,
that label never occurs again.
-/

namespace Transition

variable {S E : Type*} {step : S → E → S → Prop} {s t u : S} {events later : List E} {e : E}

/-- A run with the labels of its steps, the oldest first. -/
inductive Run (step : S → E → S → Prop) (s : S) : List E → S → Prop where
  | start : Run step s [] s
  | step {events : List E} {t u : S} {e : E} (before : Run step s events t) (next : step t e u) :
      Run step s (events ++ [e]) u

/-- A label counts when it is the last one. -/
theorem countP_concat (p : E → Bool) (events : List E) (e : E) :
    (events ++ [e]).countP p = events.countP p + (p e).toNat := by
  rw [List.countP_append, List.countP_singleton]
  cases p e <;> rfl

/-- The last label of a history is the one in question, or comes after it. -/
theorem concat_eq_append_cons {history earlier : List E} {x : E}
    (h : history ++ [e] = earlier ++ x :: later) :
    (later = [] ∧ x = e) ∨ ∃ front, later = front ++ [e] ∧ history = earlier ++ x :: front := by
  obtain rfl | ⟨front, last, rfl⟩ := List.eq_nil_or_concat later
  · have hlast := List.append_inj' h rfl
    exact .inl ⟨rfl, (List.cons.inj hlast.2).1.symm⟩
  · rw [List.concat_eq_append, ← List.cons_append, ← List.append_assoc] at h
    obtain ⟨hfront, hlast⟩ := List.append_inj' h rfl
    obtain rfl := (List.cons.inj hlast).1
    exact .inr ⟨front, by rw [List.concat_eq_append], hfront⟩

namespace Run

theorem single (h : step s e t) : Run step s [e] t := .step .start h

theorem append (h : Run step s events t) (h' : Run step t later u) :
    Run step s (events ++ later) u := by
  induction h' with
  | start =>
      rw [List.append_nil]
      exact h
  | step _ next ih =>
      rw [← List.append_assoc]
      exact .step ih next

theorem head (h : step s e t) (h' : Run step t later u) : Run step s (e :: later) u :=
  (single h).append h'

/-- A run passes through a state after each of its labels. -/
theorem split (h : Run step s (events ++ later) u) :
    ∃ t, Run step s events t ∧ Run step t later u := by
  generalize hall : events ++ later = all at h
  induction h generalizing later with
  | start =>
      obtain ⟨rfl, rfl⟩ := List.append_eq_nil_iff.mp hall
      exact ⟨s, .start, .start⟩
  | @step _ t u e before next ih =>
      obtain rfl | ⟨front, last, rfl⟩ := List.eq_nil_or_concat later
      · rw [List.append_nil] at hall
        exact ⟨u, hall ▸ .step before next, .start⟩
      · rw [List.concat_eq_append] at hall ⊢
        rw [← List.append_assoc] at hall
        obtain ⟨hfront, hlast⟩ := List.append_inj' hall rfl
        obtain rfl := List.singleton_inj.mp hlast
        obtain ⟨t, hfirst, hsecond⟩ := ih hfront
        exact ⟨t, hfirst, .step hsecond next⟩

/-- The run before a label, its step, and the run after it. -/
theorem split_at (h : Run step s (events ++ e :: later) u) :
    ∃ t t', Run step s events t ∧ step t e t' ∧ Run step t' later u := by
  have h' : Run step s ((events ++ [e]) ++ later) u := by
    rw [List.append_assoc]
    exact h
  obtain ⟨t', hfirst, hsecond⟩ := h'.split
  generalize hall : events ++ [e] = all at hfirst
  cases hfirst with
  | start => simp at hall
  | step before next =>
      obtain ⟨rfl, hlast⟩ := List.append_inj' hall rfl
      obtain rfl := List.singleton_inj.mp hlast
      exact ⟨_, t', before, next, hsecond⟩

/-- An invariant of the steps holds wherever a run leads. -/
theorem invariant (h : Run step s events t) (I : S → Prop)
    (hstep : ∀ s e t, I s → step s e t → I t) (hs : I s) : I t := by
  induction h with
  | start => exact hs
  | step _ next ih => exact hstep _ _ _ ih next

/-- What each step makes of the labels so far and of the state, a run makes of them. -/
theorem history (h : Run step s events t) (I : List E → S → Prop)
    (hstep : ∀ events t e u, I events t → step t e u → I (events ++ [e]) u) (hs : I [] s) :
    I events t := by
  induction h with
  | start => exact hs
  | step _ next ih => exact hstep _ _ _ _ ih next

/-- If every step uses of `measure` what its label costs, except that the label may pay for some
of it, then so does a run. -/
theorem amortized (h : Run step s events t) (I : S → Prop) (measure : S → Nat)
    (costs pays : E → Nat) (hkeeps : ∀ s e t, I s → step s e t → I t)
    (hstep : ∀ s e t, I s → step s e t → costs e + measure t ≤ measure s + pays e) (hs : I s) :
    (events.map costs).sum + measure t ≤ measure s + (events.map pays).sum := by
  induction h with
  | start => simp
  | @step events t u e before next ih =>
      have hlast := hstep _ _ _ (before.invariant I hkeeps hs) next
      rw [List.map_append, List.map_append, List.sum_append, List.sum_append, List.map_singleton,
        List.map_singleton, List.sum_singleton, List.sum_singleton]
      omega

/-- A label that an invariant rules out does not occur. -/
theorem not_mem (h : Run step s events t) (I : S → Prop)
    (hstep : ∀ s e t, I s → step s e t → I t) (hnot : ∀ s t, I s → ¬step s e t) (hs : I s) :
    e ∉ events := by
  induction h with
  | start => exact List.not_mem_nil
  | step before next ih =>
      rw [List.mem_append, List.mem_singleton, not_or]
      refine ⟨ih, ?_⟩
      rintro rfl
      exact hnot _ _ (before.invariant I hstep hs) next

end Run

end Transition
