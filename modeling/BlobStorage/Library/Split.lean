import Mathlib.Data.List.Basic

/-!
# Splitting a list at a separator

Facts about `List.splitOn` that relate prefixes and suffixes of a list to the
list of its pieces. They apply to any separator, so to paths, lines and words alike.
-/

namespace Splitting

variable {α : Type*} [BEq α] [LawfulBEq α] {sep : α}

/-- No piece contains the separator. -/
theorem not_mem_of_mem_splitOn {xs piece : List α} (h : piece ∈ xs.splitOn sep) :
    sep ∉ piece := by
  induction xs generalizing piece with
  | nil =>
      rw [List.splitOn_nil, List.mem_singleton] at h
      simp [h]
  | cons x xs ih =>
      rw [List.splitOn_cons_eq_if_modifyHead] at h
      split at h
      · rcases List.mem_cons.mp h with rfl | h
        · simp
        · exact ih h
      · rename_i hx
        cases hs : xs.splitOn sep with
        | nil => exact absurd hs (List.splitOn_ne_nil sep xs)
        | cons first rest =>
            rw [hs, List.modifyHead_cons] at h
            rcases List.mem_cons.mp h with rfl | h
            · have hfirst : sep ∉ first := ih (by simp [hs])
              have hne : sep ≠ x := by
                rintro rfl
                simp at hx
              simp [hne, hfirst]
            · exact ih (by simp [hs, h])

omit [BEq α] [LawfulBEq α] in
/-- Apart from the separators, a joined list has what its pieces have. -/
theorem mem_intercalate_iff {x : α} (hsep : x ≠ sep) {pieces : List (List α)} :
    x ∈ [sep].intercalate pieces ↔ ∃ piece ∈ pieces, x ∈ piece := by
  induction pieces with
  | nil => simp
  | cons piece rest ih =>
      cases rest with
      | nil => simp
      | cons second rest =>
          rw [List.intercalate_cons_cons, List.mem_append, List.mem_append, List.mem_singleton, ih,
            or_iff_left hsep]
          exact (List.exists_mem_cons_iff _ piece (second :: rest)).symm

/-- The pieces determine the list. -/
theorem splitOn_injective : Function.Injective (fun xs : List α => xs.splitOn sep) := by
  intro xs ys h
  have hxs : [sep].intercalate (xs.splitOn sep) = xs := List.intercalate_splitOn sep
  have hys : [sep].intercalate (ys.splitOn sep) = ys := List.intercalate_splitOn sep
  rw [← hxs, ← hys]
  exact congrArg _ h

theorem splitOn_append_sep (xs ys : List α) :
    (xs ++ sep :: ys).splitOn sep = xs.splitOn sep ++ ys.splitOn sep :=
  List.splitOn_append_cons_self xs ys

variable (sep) in
omit [LawfulBEq α] in
/-- Gluing two lists without a separator between them fuses the last piece of the
first with the first piece of the second. -/
theorem splitOn_append (xs ys : List α) :
    ∃ front last first back, xs.splitOn sep = front ++ [last] ∧
      ys.splitOn sep = first :: back ∧
      (xs ++ ys).splitOn sep = front ++ (last ++ first) :: back := by
  induction xs with
  | nil =>
      cases hs : ys.splitOn sep with
      | nil => exact absurd hs (List.splitOn_ne_nil sep ys)
      | cons first back => exact ⟨[], [], first, back, by simp, rfl, by simp [hs]⟩
  | cons x xs ih =>
      obtain ⟨front, last, first, back, hxs, hys, happ⟩ := ih
      by_cases hx : (x == sep) = true
      · refine ⟨[] :: front, last, first, back, ?_, hys, ?_⟩
        · rw [List.splitOn_cons_eq_if_modifyHead, if_pos hx, hxs, List.cons_append]
        · rw [List.cons_append, List.splitOn_cons_eq_if_modifyHead, if_pos hx, happ,
            List.cons_append]
      · cases front with
        | nil =>
            refine ⟨[], x :: last, first, back, ?_, hys, ?_⟩
            · rw [List.splitOn_cons_eq_if_modifyHead, if_neg hx, hxs]
              rfl
            · rw [List.cons_append, List.splitOn_cons_eq_if_modifyHead, if_neg hx, happ]
              rfl
        | cons head front =>
            refine ⟨(x :: head) :: front, last, first, back, ?_, hys, ?_⟩
            · rw [List.splitOn_cons_eq_if_modifyHead, if_neg hx, hxs]
              rfl
            · rw [List.cons_append, List.splitOn_cons_eq_if_modifyHead, if_neg hx, happ]
              rfl

theorem splitOn_prefix_of_append_sep_prefix {xs ys : List α} (h : xs ++ [sep] <+: ys) :
    ∃ rest, rest ≠ [] ∧ ys.splitOn sep = xs.splitOn sep ++ rest := by
  obtain ⟨tail, rfl⟩ := h
  refine ⟨tail.splitOn sep, List.splitOn_ne_nil sep tail, ?_⟩
  rw [List.append_assoc, List.singleton_append, splitOn_append_sep]

/-- A list followed by the separator is a prefix of another exactly when its
pieces are a proper prefix of the other's pieces. -/
theorem append_sep_prefix_iff {xs ys : List α} :
    xs ++ [sep] <+: ys ↔
      ∃ rest, rest ≠ [] ∧ ys.splitOn sep = xs.splitOn sep ++ rest := by
  constructor
  · exact splitOn_prefix_of_append_sep_prefix
  · rintro ⟨rest, hrest, hs⟩
    have hmem : ∀ piece ∈ rest, sep ∉ piece := by
      intro piece hp
      have hpiece : piece ∈ ys.splitOn sep := by
        rw [hs]
        exact List.mem_append_right _ hp
      exact not_mem_of_mem_splitOn hpiece
    have htail : ([sep].intercalate rest).splitOn sep = rest :=
      List.splitOn_intercalate sep hmem hrest
    refine ⟨[sep].intercalate rest, @splitOn_injective _ _ _ sep _ _ ?_⟩
    change (xs ++ [sep] ++ [sep].intercalate rest).splitOn sep = ys.splitOn sep
    rw [List.append_assoc, List.singleton_append, splitOn_append_sep, htail, hs]

end Splitting
