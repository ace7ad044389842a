import Mathlib.Data.Subtype

/-!
# What a computation ensures of its result

Over any monad, a computation ensures a property of its result when it is the image of one
whose results carry the property. Computations that go on with such a result may be exchanged
where they agree on the results that have the property, whatever the effects are.
-/

universe u v

variable {m : Type u → Type v} {α β : Type u} {P : α → Prop} {x : m α}

/-- Every result of `x` satisfies `P`. -/
def Ensures [Functor m] (P : α → Prop) (x : m α) : Prop :=
  ∃ y : m {a // P a}, Subtype.val <$> y = x

namespace Ensures

/-- What is made of the results may be changed outside `P`. -/
theorem map_congr [Functor m] [LawfulFunctor m] (h : Ensures P x) {f g : α → β}
    (hfg : ∀ a, P a → f a = g a) : f <$> x = g <$> x := by
  obtain ⟨y, rfl⟩ := h
  rw [← comp_map, ← comp_map]
  congr 1
  funext a
  exact hfg a.1 a.2

theorem mono [Functor m] [LawfulFunctor m] {Q : α → Prop} (h : Ensures P x)
    (hPQ : ∀ a, P a → Q a) : Ensures Q x := by
  obtain ⟨y, rfl⟩ := h
  refine ⟨(fun a => ⟨a.1, hPQ a.1 a.2⟩) <$> y, ?_⟩
  rw [← comp_map]
  rfl

theorem of_forall [Functor m] [LawfulFunctor m] (h : ∀ a, P a) : Ensures P x := by
  refine ⟨(fun a => ⟨a, h a⟩) <$> x, ?_⟩
  rw [← comp_map]
  exact id_map x

end Ensures

/-- Over a state, it is a matter of the results from each state. -/
theorem ensures_stateM_iff {σ : Type u} {x : StateM σ α} :
    Ensures P x ↔ ∀ s, P (x s).1 := by
  constructor
  · rintro ⟨y, rfl⟩ s
    exact (y s).1.2
  · intro h
    exact ⟨fun s => (⟨(x s).1, h s⟩, (x s).2), rfl⟩
