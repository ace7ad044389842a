import BlobStorage.Store
import Mathlib.Data.List.AList

/-!
# A backend that is a map

The simplest store that meets the contract of the trait: a finite map from valid
keys to blobs, with the metadata it reports. It stands for the inner store where a
result is about a layer, and for the bucket of an object store. `useHint` says
whether a listing restricts itself to the filter's prefix hint, as the trait
permits.
-/

namespace BlobStorage

open Fallible

structure StoredBlob where
  content : Bytes
  modifiedAt : DateTime
  etag : Option String
  deriving DecidableEq, Repr

/-- The metadata a store reports for a blob. -/
def StoredBlob.info (key : Key) (blob : StoredBlob) : BlobMeta :=
  { key, storedSize := blob.content.length, modifiedAt := blob.modifiedAt, etag := blob.etag }

structure MapState where
  objects : AList (fun _ : Key => StoredBlob)
  clock : DateTime

instance : Clock (StateM MapState) where
  utcNow := fun s => (s.clock, s)

namespace MapState

def empty : MapState := { objects := ∅, clock := 0 }

def find (s : MapState) (key : Key) : Option StoredBlob := s.objects.lookup key

def write (s : MapState) (key : Key) (content : Bytes) : MapState :=
  { s with objects := s.objects.insert key { content, modifiedAt := s.clock, etag := none } }

def erase (s : MapState) (key : Key) : MapState :=
  { s with objects := s.objects.erase key }

@[simp] theorem find_empty (key : Key) : empty.find key = none := AList.lookup_empty key

@[simp] theorem find_write_self (s : MapState) (key : Key) (content : Bytes) :
    (s.write key content).find key =
      some { content, modifiedAt := s.clock, etag := none } :=
  AList.lookup_insert s.objects

theorem find_write_of_ne (s : MapState) {key other : Key} (content : Bytes)
    (h : other ≠ key) : (s.write key content).find other = s.find other :=
  AList.lookup_insert_ne h

@[simp] theorem find_erase_self (s : MapState) (key : Key) : (s.erase key).find key = none :=
  AList.lookup_erase key s.objects

theorem find_erase_of_ne (s : MapState) {key other : Key} (h : other ≠ key) :
    (s.erase key).find other = s.find other :=
  AList.lookup_erase_ne h

theorem find_eraseAll (s : MapState) (keys : List Key) (key : Key) :
    (keys.foldl MapState.erase s).find key = if key ∈ keys then none else s.find key := by
  induction keys generalizing s with
  | nil => rfl
  | cons first rest ih =>
      rw [List.foldl_cons, ih]
      by_cases hrest : key ∈ rest
      · simp [hrest]
      · by_cases hsame : key = first
        · simp [hsame]
        · rw [if_neg hrest, find_erase_of_ne s hsame]
          simp [hrest, hsame]

/-- The keys that a listing looks at. -/
def candidates (useHint : Bool) (s : MapState) (filter : ListFilter) : List Key :=
  if useHint then
    s.objects.keys.filter fun key => decide (filter.prefixHint.getD [] <+: key)
  else
    s.objects.keys

theorem mem_keys_iff {s : MapState} {key : Key} :
    key ∈ s.objects.keys ↔ (s.find key).isSome := by
  rw [find, AList.lookup_isSome, AList.mem_keys]

theorem mem_candidates {useHint : Bool} {s : MapState} {filter : ListFilter} {key : Key} :
    key ∈ candidates useHint s filter ↔
      (s.find key).isSome ∧ (useHint = true → filter.prefixHint.getD [] <+: key) := by
  unfold candidates
  cases useHint <;> simp [mem_keys_iff, List.mem_filter]

theorem nodup_candidates (useHint : Bool) (s : MapState) (filter : ListFilter) :
    (candidates useHint s filter).Nodup := by
  unfold candidates
  split
  · exact s.objects.nodupKeys.filter _
  · exact s.objects.nodupKeys

end MapState

/-- The map from keys to blobs as a store. -/
structure MapBlobStore where
  useHint : Bool

namespace MapBlobStore

open MapState

/-- Store one blob after another; a stream that breaks off ends the batch. -/
def putBlobs : List BlobInput → Fallible (StateM MapState) (List BlobMeta)
  | [] => pure []
  | blob :: rest =>
      match blob.data.readToEnd with
      | .error e => throw (.ofIo e)
      | .ok content => do
          let s ← getState
          setState (s.write blob.key content)
          let others ← putBlobs rest
          pure ({ key := blob.key, storedSize := content.length, modifiedAt := s.clock,
                  etag := none } :: others)

def put (blobs : List BlobInput) : Fallible (StateM MapState) PutResult := do
  checkKeys (blobs.map BlobInput.key)
  let infos ← putBlobs blobs
  pure { blobs := infos }

def getWithMetadata (key : Key) : Fallible (StateM MapState) (BlobMeta × Reader) := do
  checkKey key
  let s ← getState
  match s.find key with
  | none => throw (.notFound key)
  | some blob => pure (blob.info key, Reader.ofBytes blob.content)

def get (key : Key) : Fallible (StateM MapState) Reader := do
  let (_, reader) ← getWithMetadata key
  pure reader

def delete (keys : List Key) : Fallible (StateM MapState) Unit := do
  checkKeys keys
  let s ← getState
  setState (keys.foldl MapState.erase s)

def existsBlob (key : Key) : Fallible (StateM MapState) Bool := do
  checkKey key
  let s ← getState
  pure (s.find key).isSome

def list (self : MapBlobStore) (filter : ListFilter) : Fallible (StateM MapState) (List Key) := do
  let s ← getState
  pure (sortKeys ((candidates self.useHint s filter).filter fun key =>
    filter.matchesBlob key none))

/-- The blobs a filter selects by key, each with its metadata. -/
def infos (self : MapBlobStore) (s : MapState) (filter : ListFilter) : List BlobMeta :=
  ((candidates self.useHint s filter).filter fun key =>
    filter.matchesBlob key none).filterMap fun key =>
      (s.find key).map (StoredBlob.info key)

def visit {S : Type} (self : MapBlobStore) (filter : ListFilter)
    (visitor : BlobVisitor (StateM MapState) S) :
    Fallible (StateT S (StateM MapState)) Unit := do
  let s ← withLocal getState
  visitEach visitor ((self.infos s filter).map fun info => (info.key, some info))

def listWithMetadata (self : MapBlobStore) (filter : ListFilter) :
    Fallible (StateM MapState) (List BlobMeta) := do
  let s ← getState
  pure (sortByKey (self.infos s filter))

def toBlobStore (self : MapBlobStore) : BlobStore (StateM MapState) where
  put := put
  get := get
  delete := delete
  list := self.list
  existsBlob := existsBlob
  getWithMetadata := getWithMetadata
  visit := self.visit
  listWithMetadata := self.listWithMetadata

theorem mem_infos_iff {self : MapBlobStore} {s : MapState} {filter : ListFilter}
    {info : BlobMeta} :
    info ∈ self.infos s filter ↔ ∃ key blob, s.find key = some blob ∧ info = blob.info key ∧
      filter.matchesBlob key none = true ∧
      (self.useHint = true → filter.prefixHint.getD [] <+: key) := by
  simp only [infos, List.mem_filterMap, List.mem_filter, MapState.mem_candidates,
    Option.map_eq_some_iff]
  constructor
  · rintro ⟨key, ⟨⟨_, hhint⟩, hmatch⟩, blob, hfind, rfl⟩
    exact ⟨key, blob, hfind, rfl, hmatch, hhint⟩
  · rintro ⟨key, blob, hfind, rfl, hmatch, hhint⟩
    exact ⟨key, ⟨⟨by rw [hfind]; rfl, hhint⟩, hmatch⟩, blob, hfind, rfl⟩

end MapBlobStore

end BlobStorage
