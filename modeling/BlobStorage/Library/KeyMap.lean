import Mathlib.Data.List.Basic
import Mathlib.Logic.Function.Basic
import Mathlib.Order.Basic

/-!
# Plain maps

A map from keys to values as a function, with the four operations that say what a
store is for: insert a batch, remove a batch, look a key up, and list the keys that
a predicate selects. The second half pulls a map back along an injection of keys,
which is what renaming every key of a store does to the map it implements.
-/

namespace KeyMap

variable {K K' V : Type*}

/-- Entries are inserted in order, so the last entry for a key is the one that stays. -/
def insertAll [DecidableEq K] (M : K → Option V) (entries : List (K × V)) : K → Option V :=
  entries.foldl (fun M entry => Function.update M entry.1 (some entry.2)) M

def removeAll [DecidableEq K] (M : K → Option V) (keys : List K) : K → Option V :=
  fun key => if key ∈ keys then none else M key

/-- The keys of the map that satisfy `p`, in order and without repetition. -/
def IsListing [LT K] (M : K → Option V) (p : K → Prop) (keys : List K) : Prop :=
  keys.Pairwise (· < ·) ∧ ∀ key, key ∈ keys ↔ (M key).isSome ∧ p key

section Batch

variable [DecidableEq K]

@[simp] theorem insertAll_nil (M : K → Option V) : insertAll M [] = M := rfl

@[simp] theorem insertAll_cons (M : K → Option V) (entry : K × V) (rest : List (K × V)) :
    insertAll M (entry :: rest) = insertAll (Function.update M entry.1 (some entry.2)) rest :=
  rfl

theorem removeAll_of_mem {M : K → Option V} {keys : List K} {key : K} (h : key ∈ keys) :
    removeAll M keys key = none := by
  simp [removeAll, h]

theorem removeAll_of_not_mem {M : K → Option V} {keys : List K} {key : K} (h : key ∉ keys) :
    removeAll M keys key = M key := by
  simp [removeAll, h]

theorem ne_none_of_removeAll {M : K → Option V} {keys : List K} {key : K}
    (h : removeAll M keys key ≠ none) : M key ≠ none := by
  intro hM
  unfold removeAll at h
  split at h
  · exact h rfl
  · exact h hM

theorem insertAll_of_not_mem {M : K → Option V} {entries : List (K × V)} {key : K}
    (h : key ∉ entries.map Prod.fst) : insertAll M entries key = M key := by
  induction entries generalizing M with
  | nil => rfl
  | cons entry rest ih =>
      rw [List.map_cons, List.mem_cons, not_or] at h
      rw [insertAll_cons, ih h.2, Function.update_of_ne h.1]

theorem exists_insertAll_of_mem {entries : List (K × V)} {key : K}
    (h : key ∈ entries.map Prod.fst) (M : K → Option V) :
    ∃ v, insertAll M entries key = some v := by
  induction entries generalizing M with
  | nil => cases h
  | cons entry rest ih =>
      rw [insertAll_cons]
      by_cases hrest : key ∈ rest.map Prod.fst
      · exact ih hrest _
      · rw [List.map_cons, List.mem_cons] at h
        rw [insertAll_of_not_mem hrest, h.resolve_right hrest, Function.update_self]
        exact ⟨_, rfl⟩

theorem insertAll_append (M : K → Option V) (entries others : List (K × V)) :
    insertAll M (entries ++ others) = insertAll (insertAll M entries) others :=
  List.foldl_append

/-- What a key held before it was inserted makes no difference. -/
theorem insertAll_update {entries : List (K × V)} {key : K} (h : key ∈ entries.map Prod.fst)
    (M : K → Option V) (v : Option V) :
    insertAll (Function.update M key v) entries = insertAll M entries := by
  induction entries generalizing M with
  | nil => cases h
  | cons entry rest ih =>
      rw [insertAll_cons, insertAll_cons]
      by_cases hkey : key = entry.1
      · rw [hkey, Function.update_idem]
      · rw [Function.update_comm hkey]
        exact ih ((List.mem_cons.mp h).resolve_left hkey) _

end Batch

section Rename

variable [DecidableEq K] [DecidableEq K'] {rename : K' → K}

theorem insertAll_rename (hinj : Function.Injective rename) (M : K → Option V)
    (entries : List (K' × V)) (key : K') :
    insertAll M (entries.map fun entry => (rename entry.1, entry.2)) (rename key) =
      insertAll (fun key => M (rename key)) entries key := by
  induction entries generalizing M with
  | nil => rfl
  | cons entry rest ih =>
      rw [List.map_cons, insertAll_cons, insertAll_cons, ih]
      congr 1
      funext key
      by_cases hkey : key = entry.1
      · rw [hkey, Function.update_self, Function.update_self]
      · rw [Function.update_of_ne hkey, Function.update_of_ne (hinj.ne hkey)]

theorem removeAll_rename (hinj : Function.Injective rename) (M : K → Option V)
    (keys : List K') (key : K') :
    removeAll M (keys.map rename) (rename key) =
      removeAll (fun key => M (rename key)) keys key := by
  simp [removeAll, hinj.eq_iff]

end Rename

end KeyMap
