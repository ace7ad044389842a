import Mathlib.Data.List.Count
import Mathlib.Logic.Function.Basic

/-!
# A chain of reference-counted objects

Objects `0` to `top`, of which each owns one reference to the object below it until it is
destroyed itself, and of which the topmost has an owner outside. Further references are held by
threads: one that has upgraded a weak reference, or one that is about to give a reference up.
An object is destroyed when its last reference is given up, and whoever gave it up then gives up
the reference that the object owned.
-/

namespace Ownership

/-- The references to an object that its owner in the chain, or outside it, holds. -/
def fromAbove (top : Nat) (owned : Bool) (strong : Nat → Nat) (i : Nat) : Nat :=
  if i = top then owned.toNat else if 0 < strong (i + 1) then 1 else 0

/-- Every strong count is the number of its holders. `held` lists the references of threads. -/
structure Balanced (top : Nat) (owned : Bool) (strong : Nat → Nat) (held : List Nat) : Prop where
  counts : ∀ i, i ≤ top → strong i = fromAbove top owned strong i + held.count i
  beyond : ∀ i, top < i → strong i = 0
  within : ∀ i ∈ held, i ≤ top

variable {top : Nat} {owned : Bool} {strong : Nat → Nat} {held : List Nat} {i : Nat}

/-- An object is owned from above as long as the object there is alive. -/
theorem fromAbove_update {n : Nat} (hsame : 0 < n ↔ 0 < strong i) (j : Nat) :
    fromAbove top owned (Function.update strong i n) j = fromAbove top owned strong j := by
  unfold fromAbove
  by_cases hj : j + 1 = i
  · subst hj
    rw [Function.update_self]
    simp only [hsame]
  · rw [Function.update_of_ne hj]

namespace Balanced

theorem initial (top : Nat) :
    Balanced top true (fun i => if i ≤ top then 1 else 0) [] where
  counts := by
    intro i hi
    unfold fromAbove
    rw [if_pos hi, List.count_nil]
    by_cases htop : i = top
    · rw [if_pos htop]
      rfl
    · have hbelow : i + 1 ≤ top := by omega
      simp [htop, hbelow]
  beyond := by
    intro i hi
    rw [if_neg (by omega)]
  within := by simp

/-- A held reference keeps its object alive. -/
theorem pos_of_mem (h : Balanced top owned strong held) (hi : i ∈ held) : 0 < strong i := by
  have hcount := List.count_pos_iff.mpr hi
  rw [h.counts i (h.within i hi)]
  omega

theorem le_top (h : Balanced top owned strong held) (hi : 0 < strong i) : i ≤ top := by
  by_contra hbeyond
  have hzero := h.beyond i (by omega)
  omega

/-- Only the references that are held count, not the order in which they are listed. -/
theorem perm {held' : List Nat} (h : Balanced top owned strong held) (hperm : held.Perm held') :
    Balanced top owned strong held' where
  counts j hj := by rw [← hperm.count_eq j, h.counts j hj]
  beyond := h.beyond
  within j hj := h.within j (hperm.mem_iff.mpr hj)

/-- Another reference to a living object. -/
theorem acquire (h : Balanced top owned strong held) (hi : 0 < strong i) :
    Balanced top owned (Function.update strong i (strong i + 1)) (i :: held) where
  counts := by
    intro j hj
    rw [fromAbove_update (by omega)]
    by_cases hsame : j = i
    · subst hsame
      rw [Function.update_self, List.count_cons_self, h.counts j hj]
      omega
    · rw [Function.update_of_ne hsame, List.count_cons_of_ne (Ne.symm hsame), h.counts j hj]
  beyond := by
    intro j hj
    have hle := h.le_top hi
    rw [Function.update_of_ne (by omega), h.beyond j hj]
  within := by
    intro j hj
    obtain rfl | hmem := List.mem_cons.mp hj
    · exact h.le_top hi
    · exact h.within j hmem

/-- A reference is given up that is not the last one. -/
theorem release_shared (h : Balanced top owned strong (i :: held)) (hi : strong i ≠ 1) :
    Balanced top owned (Function.update strong i (strong i - 1)) held where
  counts := by
    intro j hj
    have hpos := h.pos_of_mem (List.mem_cons_self ..)
    rw [fromAbove_update (by omega)]
    have hcount := h.counts j hj
    by_cases hsame : j = i
    · subst hsame
      rw [List.count_cons_self] at hcount
      rw [Function.update_self]
      omega
    · rw [List.count_cons_of_ne (Ne.symm hsame)] at hcount
      rw [Function.update_of_ne hsame, hcount]
  beyond := by
    intro j hj
    have hle := h.within i (List.mem_cons_self ..)
    rw [Function.update_of_ne (by omega), h.beyond j hj]
  within := fun j hj => h.within j (List.mem_cons_of_mem i hj)

/-- The last reference to an object is given up, and with it the one that the object owned. -/
theorem release_last (h : Balanced top owned strong (i :: held)) (hi : strong i = 1) :
    Balanced top owned (Function.update strong i 0) (if i = 0 then held else (i - 1) :: held) where
  counts := by
    intro j hj
    have hle := h.within i (List.mem_cons_self ..)
    have hcount := h.counts j hj
    -- Only the object below loses its owner, and gains the thread that destroyed it.
    by_cases hsame : j = i
    · subst hsame
      have habove : fromAbove top owned (Function.update strong j 0) j =
          fromAbove top owned strong j := by
        unfold fromAbove
        rw [Function.update_of_ne (by omega)]
      rw [List.count_cons_self] at hcount
      rw [Function.update_self, habove]
      have hbelow : (if j = 0 then held else (j - 1) :: held).count j = held.count j := by
        split
        · rfl
        · exact List.count_cons_of_ne (by omega)
      omega
    · rw [List.count_cons_of_ne (Ne.symm hsame)] at hcount
      rw [Function.update_of_ne hsame]
      by_cases hbelow : j + 1 = i
      · subst hbelow
        have hbefore : fromAbove top owned strong j = 1 := by
          unfold fromAbove
          rw [if_neg (by omega), if_pos (by omega)]
        have hafter : fromAbove top owned (Function.update strong (j + 1) 0) j = 0 := by
          unfold fromAbove
          rw [if_neg (by omega), Function.update_self, if_neg (by omega)]
        rw [hafter, if_neg (by omega), Nat.add_sub_cancel, List.count_cons_self]
        omega
      · have hothers : fromAbove top owned (Function.update strong i 0) j =
            fromAbove top owned strong j := by
          unfold fromAbove
          rw [Function.update_of_ne hbelow]
        have hlist : (if i = 0 then held else (i - 1) :: held).count j = held.count j := by
          split
          · rfl
          · exact List.count_cons_of_ne (by omega)
        omega
  beyond := by
    intro j hj
    have hle := h.within i (List.mem_cons_self ..)
    rw [Function.update_of_ne (by omega), h.beyond j hj]
  within := by
    intro j hj
    have hle := h.within i (List.mem_cons_self ..)
    split at hj
    · exact h.within j (List.mem_cons_of_mem i hj)
    · obtain rfl | hmem := List.mem_cons.mp hj
      · omega
      · exact h.within j (List.mem_cons_of_mem i hmem)

/-- The owner outside is about to give up its reference. -/
theorem disown (h : Balanced top true strong held) : Balanced top false strong (top :: held) where
  counts := by
    intro j hj
    have hcount := h.counts j hj
    unfold fromAbove at hcount ⊢
    by_cases htop : j = top
    · subst htop
      rw [if_pos rfl] at hcount ⊢
      rw [List.count_cons_self]
      simp only [Bool.toNat_true, Bool.toNat_false] at hcount ⊢
      omega
    · rw [if_neg htop] at hcount ⊢
      rw [List.count_cons_of_ne (Ne.symm htop)]
      exact hcount
  beyond := h.beyond
  within := by
    intro j hj
    obtain rfl | hmem := List.mem_cons.mp hj
    · exact Nat.le_refl j
    · exact h.within j hmem

/-- An object that is owned from above is alive. -/
theorem pos_of_fromAbove (h : Balanced top owned strong held) (hi : i ≤ top)
    (habove : 0 < fromAbove top owned strong i) : 0 < strong i := by
  rw [h.counts i hi]
  omega

/-- What lies below a living object is alive. -/
theorem alive_below (h : Balanced top owned strong held) (hi : 0 < strong i) {j : Nat}
    (hj : j ≤ i) : 0 < strong j := by
  obtain ⟨distance, rfl⟩ := Nat.exists_eq_add_of_le hj
  induction distance with
  | zero => exact hi
  | succ distance ih =>
      have hle := h.le_top hi
      refine ih (h.pos_of_fromAbove (by omega) ?_) (by omega)
      rw [fromAbove, if_neg (by omega), if_pos (by rwa [Nat.add_assoc])]
      exact Nat.one_pos

/-- While the owner outside is there, every object is alive. -/
theorem alive_of_owned (h : Balanced top true strong held) {j : Nat} (hj : j ≤ top) :
    0 < strong j := by
  refine h.alive_below (h.pos_of_fromAbove (Nat.le_refl top) ?_) hj
  rw [fromAbove, if_pos rfl]
  exact Nat.one_pos

/-- Without an owner and without references of threads, no object is left. -/
theorem dead (h : Balanced top false strong []) (j : Nat) : strong j = 0 := by
  by_cases hj : j ≤ top
  · obtain ⟨distance, hdistance⟩ := Nat.exists_eq_add_of_le hj
    -- From the top downwards: nothing owns an object whose owner is dead.
    induction distance generalizing j with
    | zero =>
        have htop : j = top := by omega
        rw [h.counts j hj, fromAbove, if_pos htop]
        rfl
    | succ distance ih =>
        have habove := ih (j + 1) (by omega) (by omega)
        rw [h.counts j hj, fromAbove, if_neg (by omega), habove]
        rfl
  · exact h.beyond j (by omega)

end Balanced

end Ownership
