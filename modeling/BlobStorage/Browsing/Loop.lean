import BlobStorage.Browsing.Agreement

/-!
# Backends that enumerate in a loop

Both backends list, visit and list with metadata in one loop over what they come by, page
by page or directory by directory. Handing over the items one after another is all that
the loop does, so what it comes by decides what the backend shows.
-/

namespace BlobStorage

open Fallible

variable {σ S α : Type}

section Hand

/-- What a loop does with an item. With `false` it ends the loop. -/
abbrev OnItem (σ S α : Type) := α → Fallible (StateT S (StateM σ)) Bool

/-- Hand items to a callback, one after another, and then go on with `after`. -/
def handEach (onItem : OnItem σ S α) (after : Fallible (StateT S (StateM σ)) Unit) :
    List α → Fallible (StateT S (StateM σ)) Unit
  | [] => after
  | item :: rest => do
      let more ← onItem item
      if more then handEach onItem after rest else pure ()

theorem handEach_append (onItem : OnItem σ S α) (after : Fallible (StateT S (StateM σ)) Unit)
    (items others : List α) :
    handEach onItem after (items ++ others) =
      handEach onItem (handEach onItem after others) items := by
  induction items with
  | nil => rfl
  | cons item rest ih =>
      rw [List.cons_append, handEach, handEach, ih]

/-- Called in the state `s`, the callback does not change it. -/
def OnItem.QuietAt (onItem : OnItem σ S α) (s : σ) : Prop :=
  ∀ item l, (execLocal (onItem item) l s).2 = s

variable {s : σ}

/-- Two ways to go on after a call that leaves the state alone. -/
theorem execLocal_ifMore_congr {x : Fallible (StateT S (StateM σ)) Bool} {l : S}
    {f g : Bool → Fallible (StateT S (StateM σ)) Unit}
    (hquiet : (execLocal x l s).2 = s)
    (h : ∀ more k, execLocal (f more) k s = execLocal (g more) k s) :
    execLocal (x >>= f) l s = execLocal (x >>= g) l s := by
  rw [execLocal_bind, execLocal_bind]
  cases hcall : execLocal x l s with
  | mk result t =>
      rw [hcall] at hquiet
      obtain rfl : t = s := hquiet
      obtain ⟨answer, k⟩ := result
      cases answer with
      | error e => rfl
      | ok more => exact h more k

theorem execLocal_handEach_congr {onItem : OnItem σ S α} (hquiet : onItem.QuietAt s)
    {after after' : Fallible (StateT S (StateM σ)) Unit}
    (h : ∀ l, execLocal after l s = execLocal after' l s) (items : List α) (l : S) :
    execLocal (handEach onItem after items) l s = execLocal (handEach onItem after' items) l s := by
  induction items generalizing l with
  | nil => exact h l
  | cons item rest ih =>
      rw [handEach, handEach]
      apply execLocal_ifMore_congr (hquiet item l)
      intro more k
      cases more with
      | false => rfl
      | true => exact ih k

/-- How a loop ends where no callback ends it. -/
def ending : Option BlobStorageError → Fallible (StateT S (StateM σ)) Unit
  | none => pure ()
  | some e => throw e

/-- The records that the filter selects. It is asked without metadata. -/
def selected (filter : ListFilter) (found : List BlobMeta) : List BlobMeta :=
  found.filter fun info => filter.matchesBlob info.key none

/-- A loop that gathers something of each selected item. -/
theorem execLocal_handEach_gather {β : Type} {onItem : OnItem σ (List β) α} {filter : ListFilter}
    {record : α → BlobMeta} {gathered : BlobMeta → β} {items : List α}
    (h : ∀ item ∈ items, ∀ l, execLocal (onItem item) l s =
      ((.ok true, if filter.matchesBlob (record item).key none then l ++ [gathered (record item)]
        else l), s))
    (failure : Option BlobStorageError) (l : List β) :
    execLocal (handEach onItem (ending failure) items) l s =
      ((walkEnd failure, l ++ (selected filter (items.map record)).map gathered), s) := by
  induction items generalizing l with
  | nil =>
      rw [selected, List.map_nil, List.filter_nil, List.map_nil, List.append_nil]
      cases failure <;> rfl
  | cons item rest ih =>
      rw [List.forall_mem_cons] at h
      rw [handEach, execLocal_bind, h.1 l]
      refine (ih h.2 _).trans ?_
      rw [selected, selected, List.map_cons, List.filter_cons]
      by_cases hmatch : filter.matchesBlob (record item).key none = true
      · rw [if_pos hmatch, if_pos hmatch, List.map_cons, List.append_assoc]
        rfl
      · rw [if_neg hmatch, if_neg hmatch]

/-- A loop that calls a visitor for each selected item. -/
theorem execLocal_handEach_visit {onItem : OnItem σ S α} {filter : ListFilter}
    {record : α → BlobMeta} {visitor : BlobVisitor (StateM σ) S} (hquiet : visitor.QuietAt s)
    {items : List α} (h : ∀ item ∈ items, ∀ l, execLocal (onItem item) l s =
      if filter.matchesBlob (record item).key none then
        execLocal (visitor.visit (record item).key (some (record item))) l s
      else ((.ok true, l), s)) (failure : Option BlobStorageError) (l : S) :
    execLocal (handEach onItem (ending failure) items) l s =
      execLocal (walkEach visitor failure
        ((selected filter (items.map record)).map fun info => (info.key, some info))) l s := by
  induction items generalizing l with
  | nil => cases failure <;> rfl
  | cons item rest ih =>
      rw [List.forall_mem_cons] at h
      rw [handEach, execLocal_bind, h.1 l, selected, List.map_cons, List.filter_cons]
      by_cases hmatch : filter.matchesBlob (record item).key none = true
      · have hstay := hquiet (record item).key (some (record item)) l
        rw [if_pos hmatch, if_pos hmatch, List.map_cons, walkEach, execLocal_bind]
        cases hcall : execLocal (visitor.visit (record item).key (some (record item))) l s with
        | mk result t =>
            rw [hcall] at hstay
            obtain rfl : t = s := hstay
            obtain ⟨answer, k⟩ := result
            cases answer with
            | error e => rfl
            | ok more =>
                cases more with
                | false => rfl
                | true => exact ih h.2 k
      · rw [if_neg hmatch, if_neg hmatch]
        exact ih h.2 l

/-- A loop with a local list, of which the operation returns something in the end. -/
theorem exec_scopeLocal_walkEnd {β γ : Type} {x : Fallible (StateT (List β) (StateM σ)) Unit}
    {failure : Option BlobStorageError} {gathered : List β}
    (h : execLocal x [] s = ((walkEnd failure, gathered), s)) (f : List β → γ) :
    exec (do let (_, all) ← scopeLocal [] x; pure (f all)) s =
      ((walkEnd failure).map fun _ => f gathered, s) := by
  rw [exec_bind, exec_scopeLocal, h]
  cases failure <;> rfl

end Hand

/-- What a backend shows that comes by the records `found`, and may end in an error. -/
def Shown.enumerating (get : Key → Except BlobStorageError Reader)
    (existsBlob : Key → Except BlobStorageError Bool)
    (getWithMetadata : Key → Except BlobStorageError (BlobMeta × Reader))
    (found : ListFilter → List BlobMeta × Option BlobStorageError) : Shown where
  get := get
  existsBlob := existsBlob
  getWithMetadata := getWithMetadata
  list filter := (walkEnd (found filter).2).map fun _ =>
    sortKeys ((selected filter (found filter).1).map BlobMeta.key)
  walk filter :=
    ((selected filter (found filter).1).map fun info => (info.key, some info), (found filter).2)
  listWithMetadata filter := (walkEnd (found filter).2).map fun _ =>
    sortByKey (selected filter (found filter).1)

/-- The walk is the listing, in the order of the loop. -/
theorem Shown.enumerating_agrees (get : Key → Except BlobStorageError Reader)
    (existsBlob : Key → Except BlobStorageError Bool)
    (getWithMetadata : Key → Except BlobStorageError (BlobMeta × Reader))
    (found : ListFilter → List BlobMeta × Option BlobStorageError) :
    (Shown.enumerating get existsBlob getWithMetadata found).AgreesWhen True := by
  have hlisted : ∀ {filter : ListFilter} {keys : List Key},
      (Shown.enumerating get existsBlob getWithMetadata found).list filter = .ok keys →
      (found filter).2 = none ∧
        sortKeys ((selected filter (found filter).1).map BlobMeta.key) = keys := by
    intro filter keys hlist
    change (walkEnd (found filter).2).map _ = .ok keys at hlist
    cases hfailure : (found filter).2 with
    | none =>
        rw [hfailure] at hlist
        exact ⟨rfl, Except.ok.inj hlist⟩
    | some e =>
        rw [hfailure] at hlist
        cases hlist
  constructor
  · intro filter keys _ _ hlist
    exact iff_of_true (hlisted hlist).1 trivial
  · intro filter keys _ _ hlist _
    obtain ⟨_, rfl⟩ := hlisted hlist
    have hkeys : (Shown.enumerating get existsBlob getWithMetadata found).walkKeys filter =
        (selected filter (found filter).1).map BlobMeta.key := by
      unfold Reads.walkKeys
      change List.map Prod.fst (List.map _ _) = _
      rw [List.map_map]
      rfl
    rw [hkeys]
    exact (sortKeys_perm _).symm

end BlobStorage
