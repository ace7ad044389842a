import BlobStorage.Failure.ReadFaults
import BlobStorage.Refinement.Prefix
import BlobStorage.Stack

/-!
# What a store shows of itself

All the answers a store gives to reads in one state, as plain functions, and for each
layer the answers it makes of those of the store below. A walk is the list of entries it
hands out with the error it may end in, so that a visitor between the walk and the
caller's visitor is a function from walks to walks.
-/

namespace BlobStorage

open Fallible

variable {σ S : Type}

/-- The answers of a store to all its reading operations. -/
structure Shown extends Reads where
  listWithMetadata : ListFilter → Except BlobStorageError (List BlobMeta)

/-- In the state `s` the store enumerates its blobs so and stays as it is, also during a walk
whose visitor leaves it alone. -/
structure Enumerates (store : BlobStore (StateM σ)) (s : σ) (shown : Shown) : Prop where
  existsBlob : ∀ key, exec (store.existsBlob key) s = (shown.existsBlob key, s)
  list : ∀ filter, exec (store.list filter) s = (shown.list filter, s)
  visit : ∀ {S : Type} filter (visitor : BlobVisitor (StateM σ) S) l, visitor.QuietAt s →
    execLocal (store.visit filter visitor) l s =
      execLocal (walkEach visitor (shown.walk filter).2 (shown.walk filter).1) l s

/-- It gives all its answers so. -/
structure Browses (store : BlobStore (StateM σ)) (s : σ) (shown : Shown) : Prop extends
    Enumerates store s shown where
  get : ∀ key, exec (store.get key) s = (shown.get key, s)
  getWithMetadata : ∀ key, exec (store.getWithMetadata key) s = (shown.getWithMetadata key, s)
  listWithMetadata : ∀ filter,
    exec (store.listWithMetadata filter) s = (shown.listWithMetadata filter, s)

theorem Browses.answers {store : BlobStore (StateM σ)} {s : σ} {shown : Shown}
    (h : Browses store s shown) : Answers store s shown.toReads where
  get := h.get
  existsBlob := h.existsBlob
  getWithMetadata := h.getWithMetadata
  list := h.list
  visit := h.visit

theorem pureVisitor_quietAt (call : Key → Option BlobMeta → S → Except BlobStorageError Bool × S)
    (s : σ) : (pureVisitor call).QuietAt s := fun _ _ _ => rfl

/-- The visitor that notes every key it is called with and goes on. -/
def collector : BlobVisitor (StateM σ) (List Key) :=
  pureVisitor fun key _ delivered => (.ok true, delivered ++ [key])

/-- The keys of the entries that a walk hands out. -/
def Reads.walkKeys (reads : Reads) (filter : ListFilter) : List Key :=
  (reads.walk filter).1.map Prod.fst

/-- Where nobody stops it a walk ends as it does by itself. -/
def walkEnd : Option BlobStorageError → Except BlobStorageError Unit
  | none => .ok ()
  | some e => .error e

theorem execLocal_walkEach_collector (failure : Option BlobStorageError)
    (entries : List (Key × Option BlobMeta)) (delivered : List Key) (s : σ) :
    execLocal (walkEach collector failure entries) delivered s =
      ((walkEnd failure, delivered ++ entries.map Prod.fst), s) := by
  induction entries generalizing delivered with
  | nil =>
      rw [List.map_nil, List.append_nil]
      cases failure <;> rfl
  | cons entry rest ih =>
      obtain ⟨key, info⟩ := entry
      rw [walkEach, execLocal_bind]
      refine (ih (delivered ++ [key])).trans ?_
      rw [List.append_assoc]
      rfl

theorem Enumerates.visit_collector {store : BlobStore (StateM σ)} {s : σ} {shown : Shown}
    (h : Enumerates store s shown) (filter : ListFilter) :
    execLocal (store.visit filter collector) [] s =
      ((walkEnd (shown.walk filter).2, shown.walkKeys filter), s) := by
  rw [h.visit filter collector [] (pureVisitor_quietAt _ s)]
  exact execLocal_walkEach_collector _ _ [] s

section Relay

/-- What a visitor that stands between the walk and the caller's makes of an entry. -/
inductive Relay where
  | skip
  | pass (key : Key) (info : Option BlobMeta)
  | fail (e : BlobStorageError)

/-- A walk as it looks behind such a visitor. -/
def relayed (relay : Key → Option BlobMeta → Relay) (failure : Option BlobStorageError) :
    List (Key × Option BlobMeta) → List (Key × Option BlobMeta) × Option BlobStorageError
  | [] => ([], failure)
  | (key, info) :: rest =>
      match relay key info with
      | .skip => relayed relay failure rest
      | .pass logical seen =>
          ((logical, seen) :: (relayed relay failure rest).1, (relayed relay failure rest).2)
      | .fail e => ([], some e)

/-- The entry that the caller's visitor gets to see. -/
def Relay.entry : Relay → Option (Key × Option BlobMeta)
  | .pass key info => some (key, info)
  | _ => none

/-- A walk on which nothing fails loses the entries that are skipped, and no others. -/
theorem relayed_eq_filterMap {relay : Key → Option BlobMeta → Relay}
    {failure : Option BlobStorageError} {entries : List (Key × Option BlobMeta)}
    (h : ∀ entry ∈ entries, ∀ e, relay entry.1 entry.2 ≠ .fail e) :
    relayed relay failure entries =
      (entries.filterMap fun entry => (relay entry.1 entry.2).entry, failure) := by
  induction entries with
  | nil => rfl
  | cons entry rest ih =>
      obtain ⟨key, info⟩ := entry
      rw [List.forall_mem_cons] at h
      rw [relayed, ih h.2, List.filterMap_cons]
      have hfirst := h.1
      dsimp only at hfirst ⊢
      cases hrelay : relay key info with
      | skip => rfl
      | pass logical seen => rfl
      | fail e => exact absurd hrelay (hfirst e)

theorem relayed_snd_eq_none_iff {relay : Key → Option BlobMeta → Relay}
    {failure : Option BlobStorageError} {entries : List (Key × Option BlobMeta)} :
    (relayed relay failure entries).2 = none ↔
      failure = none ∧ ∀ entry ∈ entries, ∀ e, relay entry.1 entry.2 ≠ .fail e := by
  induction entries with
  | nil => simp [relayed]
  | cons entry rest ih =>
      obtain ⟨key, info⟩ := entry
      rw [relayed, List.forall_mem_cons]
      dsimp only
      cases relay key info with
      | skip => simpa using ih
      | pass logical seen => simpa using ih
      | fail e => simp

/-- In the state `s` the visitor does with each entry what `relay` says. -/
def RelaysAt (s : σ) (visitor outer : BlobVisitor (StateM σ) S)
    (relay : Key → Option BlobMeta → Relay) : Prop :=
  ∀ key info l, execLocal (visitor.visit key info) l s =
    match relay key info with
    | .skip => ((.ok true, l), s)
    | .pass logical seen => execLocal (outer.visit logical seen) l s
    | .fail e => ((.error e, l), s)

variable {s : σ} {visitor outer : BlobVisitor (StateM σ) S}
  {relay : Key → Option BlobMeta → Relay}

theorem RelaysAt.quietAt (h : RelaysAt s visitor outer relay) (houter : outer.QuietAt s) :
    visitor.QuietAt s := by
  intro key info l
  rw [h key info l]
  cases relay key info with
  | skip => rfl
  | pass logical seen => exact houter logical seen l
  | fail e => rfl

/-- Walking with the visitor in between is walking what it lets through. -/
theorem RelaysAt.walkEach (h : RelaysAt s visitor outer relay) (houter : outer.QuietAt s)
    (failure : Option BlobStorageError) (entries : List (Key × Option BlobMeta)) (l : S) :
    execLocal (walkEach visitor failure entries) l s =
      execLocal (walkEach outer (relayed relay failure entries).2
        (relayed relay failure entries).1) l s := by
  induction entries generalizing l with
  | nil => rfl
  | cons entry rest ih =>
      obtain ⟨key, info⟩ := entry
      rw [BlobStorage.walkEach, relayed, execLocal_bind, h key info l]
      cases relay key info with
      | skip => exact ih l
      | fail e => rfl
      | pass logical seen =>
          have hstay := houter logical seen l
          dsimp only
          rw [BlobStorage.walkEach, execLocal_bind]
          cases hcall : execLocal (outer.visit logical seen) l s with
          | mk result t =>
              rw [hcall] at hstay
              obtain rfl : t = s := hstay
              obtain ⟨r, k⟩ := result
              cases r with
              | error e => rfl
              | ok more =>
                  cases more with
                  | false => rfl
                  | true => exact ih k

end Relay

/-- A sequence of requests that are all answered from one state. -/
theorem exec_bind_answer {α β : Type} {s : σ} {x : Fallible (StateM σ) α}
    {f : α → Fallible (StateM σ) β} {answer : Except BlobStorageError α}
    {next : α → Except BlobStorageError β} (hx : exec x s = (answer, s))
    (hf : ∀ a, exec (f a) s = (next a, s)) : exec (x >>= f) s = (answer >>= next, s) := by
  rw [exec_bind, hx]
  cases answer with
  | error e => rfl
  | ok a => exact hf a

theorem exec_map_answer {α β : Type} {s : σ} {x : Fallible (StateM σ) α}
    {answer : Except BlobStorageError α} (hx : exec x s = (answer, s)) (g : α → β) :
    exec (do let a ← x; pure (g a)) s = (answer.map g, s) := by
  refine (exec_bind_answer hx fun a => exec_pure s (g a)).trans ?_
  cases answer <;> rfl

theorem exec_checkKey (key : Key) (s : σ) :
    exec (checkKey key : Fallible (StateM σ) Unit) s = (validateBlobKey key, s) := by
  unfold checkKey
  cases validateBlobKey key <;> rfl

/-- The walk of the trait's own `visit`, which lists first. -/
def listedWalk : Except BlobStorageError (List Key) →
    List (Key × Option BlobMeta) × Option BlobStorageError
  | .ok keys => (keys.map fun key => (key, none), none)
  | .error e => ([], some e)

/-- What a store with the trait's own `visit` shows. -/
def Shown.withDefaultVisit (shown : Shown) : Shown :=
  { shown with walk := fun filter => listedWalk (shown.list filter) }

theorem Enumerates.withDefaultVisit {store : BlobStore (StateM σ)} {s : σ} {shown : Shown}
    (hexists : ∀ key, exec (store.existsBlob key) s = (shown.existsBlob key, s))
    (hlist : ∀ filter, exec (store.list filter) s = (shown.list filter, s)) :
    Enumerates { store with visit := defaultVisit store.list } s shown.withDefaultVisit where
  existsBlob := hexists
  list := hlist
  visit filter visitor l _ := by
    change execLocal (defaultVisit store.list filter visitor) l s =
      execLocal (walkEach visitor (listedWalk (shown.list filter)).2
        (listedWalk (shown.list filter)).1) l s
    rw [defaultVisit, execLocal_bind, execLocal_withLocal, hlist]
    cases shown.list filter with
    | error e => rfl
    | ok keys =>
        dsimp only [listedWalk]
        rw [walkEach_none]

section PrefixLayer

/-- `prefixed`, as a function. -/
def prefixedKey (keyPrefix key : Key) : Except BlobStorageError Key := do
  validateBlobKey key
  validateBlobKey (keyPrefix ++ key)
  pure (keyPrefix ++ key)

theorem exec_prefixed_eq (self : PrefixBlobStore (StateM σ)) (key : Key) (s : σ) :
    exec (self.prefixed key) s = (prefixedKey self.keyPrefix key, s) :=
  exec_bind_answer (exec_checkKey key s) fun _ =>
    exec_bind_answer (exec_checkKey _ s) fun _ => rfl

/-- `PrefixVisitor::visit`, as far as the caller's visitor can tell. -/
def prefixRelay (keyPrefix : Key) (filter : ListFilter) (key : Key) (info : Option BlobMeta) :
    Relay :=
  match stripKeyPrefix keyPrefix key with
  | none => .skip
  | some logical =>
      let seen := info.map fun record =>
        { record with key := (stripKeyPrefix keyPrefix record.key).getD [] }
      if filter.matchesBlob logical seen then .pass logical seen else .skip

/-- The records that a listing of the prefix layer keeps, under their logical keys. -/
def prefixRecord (keyPrefix : Key) (filter : ListFilter) (info : BlobMeta) : Option BlobMeta :=
  match stripKeyPrefix keyPrefix info.key with
  | none => none
  | some logical =>
      let record := { info with key := logical }
      if filter.matchesBlob logical (some record) then some record else none

/-- What a prefix layer shows over a store that shows `shown`. -/
def Shown.prefixed (shown : Shown) (keyPrefix : Key) : Shown where
  get key := do
    let physical ← prefixedKey keyPrefix key
    (shown.get physical).mapError (PrefixBlobStore.mapError key)
  existsBlob key := do
    let physical ← prefixedKey keyPrefix key
    (shown.existsBlob physical).mapError (PrefixBlobStore.mapError key)
  getWithMetadata key := do
    let physical ← prefixedKey keyPrefix key
    let pair ← (shown.getWithMetadata physical).mapError (PrefixBlobStore.mapError key)
    pure (pair.1.stripped keyPrefix, pair.2)
  list filter := (shown.list (combinedPrefixFilter keyPrefix filter)).map fun keys =>
    (keys.filterMap (stripKeyPrefix keyPrefix)).filter fun key => filter.matchesBlob key none
  walk filter :=
    relayed (prefixRelay keyPrefix filter)
      (shown.walk (combinedPrefixFilter keyPrefix filter)).2
      (shown.walk (combinedPrefixFilter keyPrefix filter)).1
  listWithMetadata filter :=
    (shown.listWithMetadata (combinedPrefixFilter keyPrefix filter)).map fun infos =>
      infos.filterMap (prefixRecord keyPrefix filter)

theorem prefixVisitor_relaysAt (keyPrefix : Key) (filter : ListFilter)
    (outer : BlobVisitor (StateM σ) S) (s : σ) :
    RelaysAt s (PrefixBlobStore.visitor keyPrefix filter outer) outer
      (prefixRelay keyPrefix filter) := by
  intro key info l
  unfold PrefixBlobStore.visitor prefixRelay
  dsimp only
  cases stripKeyPrefix keyPrefix key with
  | none => rfl
  | some logical =>
      dsimp only
      split <;> rfl

variable {inner : BlobStore (StateM σ)} {s : σ} {shown : Shown}

theorem exec_mapErr_answer {α : Type} {f : BlobStorageError → BlobStorageError}
    {x : Fallible (StateM σ) α} {answer : Except BlobStorageError α}
    (h : exec x s = (answer, s)) :
    exec (PrefixBlobStore.mapErr f x) s = (answer.mapError f, s) := by
  rw [exec_mapErr, h]

/-- The prefix layer over a store that shows `shown`. -/
theorem Enumerates.prefixed (h : Enumerates inner s shown) (keyPrefix : Key) :
    Enumerates (PrefixBlobStore.toBlobStore { inner, keyPrefix }) s
      (shown.prefixed keyPrefix) where
  existsBlob key := exec_bind_answer (exec_prefixed_eq _ key s) fun physical =>
    exec_mapErr_answer (h.existsBlob physical)
  list filter := exec_map_answer (h.list _) _
  visit filter visitor l hquiet := by
    have hrelay := prefixVisitor_relaysAt keyPrefix filter visitor s
    refine (h.visit _ _ l (hrelay.quietAt hquiet)).trans ?_
    exact hrelay.walkEach hquiet _ _ l

theorem Browses.prefixed (h : Browses inner s shown) (keyPrefix : Key) :
    Browses (PrefixBlobStore.toBlobStore { inner, keyPrefix }) s (shown.prefixed keyPrefix) where
  toEnumerates := h.toEnumerates.prefixed keyPrefix
  get key := exec_bind_answer (exec_prefixed_eq _ key s) fun physical =>
    exec_mapErr_answer (h.get physical)
  getWithMetadata key := exec_bind_answer (exec_prefixed_eq _ key s) fun physical =>
    exec_bind_answer (exec_mapErr_answer (h.getWithMetadata physical)) fun _ => rfl
  listWithMetadata _filter := exec_map_answer (h.listWithMetadata _) _

end PrefixLayer

end BlobStorage
