import BlobStorage.Library.Fallible

/-!
# Confined computations

A computation is confined to a part of the state when it sees no more of the state than that
part and leaves the rest alone: from two states that agree on the part it returns the same and
leaves states that agree on it again. `Agrees P` stands for agreement on the part that belongs
to the names in `P`.
-/

namespace Confinement

open Fallible

universe u v

variable {K : Type v} {σ ε α β S : Type u}

/-- Agreement on parts of the state: an equivalence for each part, and the stronger the larger
the part. -/
structure Separation (Agrees : (K → Prop) → σ → σ → Prop) : Prop where
  refl : ∀ P s, Agrees P s s
  symm : ∀ {P s t}, Agrees P s t → Agrees P t s
  trans : ∀ {P s t u}, Agrees P s t → Agrees P t u → Agrees P s u
  mono : ∀ {P Q s t}, (∀ k, P k → Q k) → Agrees Q s t → Agrees P s t

/-- The names that are not in `P`. -/
def outside (P : K → Prop) : K → Prop := fun k => ¬P k

variable {Agrees : (K → Prop) → σ → σ → Prop} {P Q : K → Prop}

structure Confined (Agrees : (K → Prop) → σ → σ → Prop) (P : K → Prop)
    (x : ExceptT ε (StateM σ) α) : Prop where
  result : ∀ {s t}, Agrees P s t → (exec x s).1 = (exec x t).1
  state : ∀ {s t}, Agrees P s t → Agrees P (exec x s).2 (exec x t).2
  frame : ∀ s, Agrees (outside P) s (exec x s).2

/-- The same, where a local state is in scope. -/
structure ConfinedLocal (Agrees : (K → Prop) → σ → σ → Prop) (P : K → Prop)
    (x : ExceptT ε (StateT S (StateM σ)) α) : Prop where
  result : ∀ {s t} l, Agrees P s t → (execLocal x l s).1 = (execLocal x l t).1
  state : ∀ {s t} l, Agrees P s t → Agrees P (execLocal x l s).2 (execLocal x l t).2
  frame : ∀ l s, Agrees (outside P) s (execLocal x l s).2

namespace Confined

/-- A computation that gives one answer in all states and leaves them as they are. -/
theorem of_answer (h : Separation Agrees) {x : ExceptT ε (StateM σ) α} {answer : Except ε α}
    (hx : ∀ s, exec x s = (answer, s)) : Confined Agrees P x where
  result _ := by rw [hx, hx]
  state hagrees := by
    rw [hx, hx]
    exact hagrees
  frame s := by
    rw [hx]
    exact h.refl _ s

theorem pure (h : Separation Agrees) (a : α) :
    Confined Agrees P (Pure.pure a : ExceptT ε (StateM σ) α) :=
  .of_answer h fun _ => rfl

theorem throw (h : Separation Agrees) (e : ε) :
    Confined Agrees P (MonadExcept.throw e : ExceptT ε (StateM σ) α) :=
  .of_answer h fun _ => rfl

/-- The second part has to be confined for the results that the first can have. -/
theorem bind (h : Separation Agrees) {x : ExceptT ε (StateM σ) α}
    {f : α → ExceptT ε (StateM σ) β} (hx : Confined Agrees P x)
    (hf : ∀ a, (∃ s, (exec x s).1 = .ok a) → Confined Agrees P (f a)) :
    Confined Agrees P (x >>= f) := by
  have hboth : ∀ {s t}, Agrees P s t → (exec (x >>= f) s).1 = (exec (x >>= f) t).1 ∧
      Agrees P (exec (x >>= f) s).2 (exec (x >>= f) t).2 := by
    intro s t hagrees
    have hresult := hx.result hagrees
    have hstate := hx.state hagrees
    rw [exec_bind, exec_bind]
    cases hs : exec x s with
    | mk r s' =>
        cases ht : exec x t with
        | mk r' t' =>
            rw [hs, ht] at hresult hstate
            obtain rfl : r = r' := hresult
            cases r with
            | ok a =>
                have hnext := hf a ⟨s, by rw [hs]⟩
                exact ⟨hnext.result hstate, hnext.state hstate⟩
            | error e => exact ⟨rfl, hstate⟩
  refine ⟨fun hagrees => (hboth hagrees).1, fun hagrees => (hboth hagrees).2, fun s => ?_⟩
  have hframe := hx.frame s
  rw [exec_bind]
  cases hs : exec x s with
  | mk r s' =>
      rw [hs] at hframe
      cases r with
      | ok a => exact h.trans hframe ((hf a ⟨s, by rw [hs]⟩).frame s')
      | error e => exact hframe

/-- A block with a local state of its own. -/
theorem scopeLocal {x : ExceptT ε (StateT S (StateM σ)) α} (hx : ConfinedLocal Agrees P x)
    (l : S) : Confined Agrees P (Fallible.scopeLocal l x) where
  result hagrees := by
    rw [exec_scopeLocal, exec_scopeLocal, hx.result l hagrees]
  state hagrees := by
    rw [exec_scopeLocal, exec_scopeLocal]
    exact hx.state l hagrees
  frame s := by
    rw [exec_scopeLocal]
    exact hx.frame l s

end Confined

namespace ConfinedLocal

theorem pure (h : Separation Agrees) (a : α) :
    ConfinedLocal Agrees P (Pure.pure a : ExceptT ε (StateT S (StateM σ)) α) where
  result _ _ := rfl
  state _ hagrees := hagrees
  frame _ s := h.refl _ s

theorem getLocal (h : Separation Agrees) :
    ConfinedLocal Agrees P (Fallible.getLocal : ExceptT ε (StateT S (StateM σ)) S) where
  result _ _ := rfl
  state _ hagrees := hagrees
  frame _ s := h.refl _ s

theorem setLocal (h : Separation Agrees) (k : S) :
    ConfinedLocal Agrees P (Fallible.setLocal k : ExceptT ε (StateT S (StateM σ)) PUnit) where
  result _ _ := rfl
  state _ hagrees := hagrees
  frame _ s := h.refl _ s

theorem withLocal {x : ExceptT ε (StateM σ) α} (hx : Confined Agrees P x) :
    ConfinedLocal Agrees P (Fallible.withLocal x : ExceptT ε (StateT S (StateM σ)) α) where
  result l hagrees := by
    rw [execLocal_withLocal, execLocal_withLocal, hx.result hagrees]
  state _ hagrees := hx.state hagrees
  frame _ s := hx.frame s

theorem performLocal {x : StateM σ α} (hx : Confined Agrees P (perform x : ExceptT ε (StateM σ) α)) :
    ConfinedLocal Agrees P (Fallible.performLocal x : ExceptT ε (StateT S (StateM σ)) α) where
  result l hagrees := by
    have hresult := hx.result hagrees
    rw [exec_perform, exec_perform] at hresult
    rw [execLocal_performLocal, execLocal_performLocal]
    exact congrArg (fun r => (r, l)) hresult
  state _ hagrees := hx.state hagrees
  frame _ s := hx.frame s

theorem bind (h : Separation Agrees) {x : ExceptT ε (StateT S (StateM σ)) α}
    {f : α → ExceptT ε (StateT S (StateM σ)) β} (hx : ConfinedLocal Agrees P x)
    (hf : ∀ a, ConfinedLocal Agrees P (f a)) : ConfinedLocal Agrees P (x >>= f) := by
  have hboth : ∀ {s t} l, Agrees P s t →
      (execLocal (x >>= f) l s).1 = (execLocal (x >>= f) l t).1 ∧
        Agrees P (execLocal (x >>= f) l s).2 (execLocal (x >>= f) l t).2 := by
    intro s t l hagrees
    have hresult := hx.result l hagrees
    have hstate := hx.state l hagrees
    rw [execLocal_bind, execLocal_bind]
    cases hs : execLocal x l s with
    | mk r s' =>
        cases ht : execLocal x l t with
        | mk r' t' =>
            rw [hs, ht] at hresult hstate
            obtain rfl : r = r' := hresult
            obtain ⟨r, k⟩ := r
            cases r with
            | ok a => exact ⟨(hf a).result k hstate, (hf a).state k hstate⟩
            | error e => exact ⟨rfl, hstate⟩
  refine ⟨fun l hagrees => (hboth l hagrees).1, fun l hagrees => (hboth l hagrees).2,
    fun l s => ?_⟩
  have hframe := hx.frame l s
  rw [execLocal_bind]
  cases hs : execLocal x l s with
  | mk r s' =>
      rw [hs] at hframe
      obtain ⟨r, k⟩ := r
      cases r with
      | ok a => exact h.trans hframe ((hf a).frame k s')
      | error e => exact hframe

end ConfinedLocal

end Confinement
