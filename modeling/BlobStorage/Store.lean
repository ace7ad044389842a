import BlobStorage.ListFilter
import BlobStorage.Validate
import BlobStorage.Library.Fallible
import Mathlib.Data.Char
import Mathlib.Data.List.Lex
import Mathlib.Data.List.Sort

/-!
# The `BlobStore` trait

`blob_store.rs` and `visitor.rs`. A store is the record of its methods over any
monad `m` of effects: a state monad for a store that runs alone, the requests of
`Library.Program` for one whose calls interleave with others. A layer is then a
function from stores to stores, exactly as in the source.

A visitor is a method with a mutable local state of its own, of any type `S`.
-/

namespace BlobStorage

open Fallible

/-- The `Result` of an `async fn`. -/
abbrev Fallible (m : Type → Type) := ExceptT BlobStorageError m

/-- The clock behind `Utc::now()`. -/
class Clock (m : Type → Type) where
  utcNow : m DateTime

structure BlobVisitor (m : Type → Type) (S : Type) where
  visit : Key → Option BlobMeta → Fallible (StateT S m) Bool

structure BlobStore (m : Type → Type) where
  put : List BlobInput → Fallible m PutResult
  get : Key → Fallible m Reader
  delete : List Key → Fallible m Unit
  list : ListFilter → Fallible m (List Key)
  /-- `exists`. -/
  existsBlob : Key → Fallible m Bool
  getWithMetadata : Key → Fallible m (BlobMeta × Reader)
  visit : {S : Type} → ListFilter → BlobVisitor m S → Fallible (StateT S m) Unit
  listWithMetadata : ListFilter → Fallible m (List BlobMeta)

/-- `keys.sort()`. -/
def sortKeys (keys : List Key) : List Key := keys.insertionSort (· ≤ ·)

/-- `metas.sort_by(|a, b| a.key.cmp(&b.key))`, which is stable. -/
def sortByKey (infos : List BlobMeta) : List BlobMeta :=
  infos.insertionSort fun a b => a.key ≤ b.key

theorem sortKeys_perm (keys : List Key) : (sortKeys keys).Perm keys :=
  List.perm_insertionSort _ keys

@[simp] theorem mem_sortKeys {key : Key} {keys : List Key} : key ∈ sortKeys keys ↔ key ∈ keys :=
  (sortKeys_perm keys).mem_iff

theorem sortKeys_sorted (keys : List Key) : (sortKeys keys).Pairwise (· ≤ ·) :=
  List.pairwise_insertionSort _ keys

section Trait

variable {m : Type → Type} [Monad m]

/-- Call the visitor for one entry after another, until it returns `false` or fails. -/
def visitEach {S : Type} (visitor : BlobVisitor m S) :
    List (Key × Option BlobMeta) → Fallible (StateT S m) Unit
  | [] => pure ()
  | (key, info) :: rest => do
      let more ← visitor.visit key info
      if more then visitEach visitor rest else pure ()

/-- Only what a visitor does with the entries matters. -/
theorem visitEach_congr {S : Type} {visitor other : BlobVisitor m S}
    {entries : List (Key × Option BlobMeta)}
    (h : ∀ entry ∈ entries, visitor.visit entry.1 entry.2 = other.visit entry.1 entry.2) :
    visitEach visitor entries = visitEach other entries := by
  induction entries with
  | nil => rfl
  | cons entry rest ih =>
      rw [List.forall_mem_cons] at h
      rw [visitEach, visitEach, h.1, ih h.2]

/-- The trait's own `visit`: list, then call the visitor without metadata. -/
def defaultVisit {S : Type} (list : ListFilter → Fallible m (List Key)) (filter : ListFilter)
    (visitor : BlobVisitor m S) : Fallible (StateT S m) Unit := do
  let keys ← withLocal (list filter)
  visitEach visitor (keys.map fun key => (key, none))

/-- The trait's own `get_with_metadata`, which invents the metadata. -/
def defaultGetWithMetadata [Clock m] (get : Key → Fallible m Reader) (key : Key) :
    Fallible m (BlobMeta × Reader) := do
  let reader ← get key
  let now ← perform Clock.utcNow
  pure (BlobMeta.forKey key now, reader)

/-- The trait's own `list_with_metadata`, which invents the metadata. -/
def defaultListWithMetadata [Clock m] (list : ListFilter → Fallible m (List Key))
    (filter : ListFilter) : Fallible m (List BlobMeta) := do
  let keys ← list filter
  let now ← perform Clock.utcNow
  pure (keys.map fun key => BlobMeta.forKey key now)

/-- `validate_blob_key(..)?`. -/
def checkKey (key : Key) : Fallible m Unit :=
  match validateBlobKey key with
  | .ok _ => pure ()
  | .error e => throw e

theorem checkKey_of_valid {key : Key} (h : ValidKey key) :
    (checkKey key : Fallible m Unit) = pure () := by
  rw [checkKey, validateBlobKey_ok h]

theorem checkKey_of_not_valid {key : Key} (h : ¬ValidKey key) :
    ∃ e, e.IsInvalidInput ∧ (checkKey key : Fallible m Unit) = throw e := by
  obtain ⟨hv, _⟩ | ⟨_, e, he, hi⟩ := validateBlobKey_cases key
  · exact absurd hv h
  · exact ⟨e, hi, by rw [checkKey, he]⟩

/-- `for key in keys { validate_blob_key(key)?; }`. -/
def checkKeys : List Key → Fallible m Unit
  | [] => pure ()
  | key :: rest => do
      checkKey key
      checkKeys rest

end Trait

section Exec

variable {σ : Type} (s : σ)

theorem exec_checkKey_of_valid {key : Key} (h : ValidKey key) :
    exec (checkKey key : Fallible (StateM σ) Unit) s = (.ok (), s) := by
  unfold checkKey
  rw [validateBlobKey_ok h]
  rfl

theorem exec_checkKey_of_not_valid {key : Key} (h : ¬ValidKey key) :
    ∃ e, e.IsInvalidInput ∧
      exec (checkKey key : Fallible (StateM σ) Unit) s = (.error e, s) := by
  obtain ⟨hv, _⟩ | ⟨_, e, he, hi⟩ := validateBlobKey_cases key
  · exact absurd hv h
  · refine ⟨e, hi, ?_⟩
    unfold checkKey
    rw [he]
    rfl

theorem exec_checkKeys_of_valid {keys : List Key} (h : ∀ key ∈ keys, ValidKey key) :
    exec (checkKeys keys : Fallible (StateM σ) Unit) s = (.ok (), s) := by
  induction keys with
  | nil => rfl
  | cons key rest ih =>
      rw [List.forall_mem_cons] at h
      rw [checkKeys, exec_bind_ok (exec_checkKey_of_valid s h.1)]
      exact ih h.2

/-- The first invalid key ends the batch before anything else happens. -/
theorem exec_checkKeys_of_not_valid {keys : List Key} (h : ¬∀ key ∈ keys, ValidKey key) :
    ∃ e, e.IsInvalidInput ∧
      exec (checkKeys keys : Fallible (StateM σ) Unit) s = (.error e, s) := by
  induction keys with
  | nil => simp at h
  | cons key rest ih =>
      by_cases hkey : ValidKey key
      · rw [List.forall_mem_cons, not_and] at h
        obtain ⟨e, hi, he⟩ := ih (h hkey)
        refine ⟨e, hi, ?_⟩
        rw [checkKeys, exec_bind_ok (exec_checkKey_of_valid s hkey)]
        exact he
      · obtain ⟨e, hi, he⟩ := exec_checkKey_of_not_valid s hkey
        exact ⟨e, hi, by rw [checkKeys, exec_bind_error he]⟩

end Exec

end BlobStorage
