import BlobStorage.Store

/-!
# The prefix layer

`prefix.rs`: every key is validated, prefixed and validated again on the way in,
and stripped on the way out. The caller's filter sees logical keys; the inner
store sees the combined prefix as a filter of its own.
-/

namespace BlobStorage

open Fallible

/-- `CombinedPrefixFilter`: the store's prefix followed by the caller's hint. -/
def combinedPrefixFilter (storePrefix : Key) (filter : ListFilter) : ListFilter :=
  prefixFilter (storePrefix ++ filter.prefixHint.getD [])

structure PrefixBlobStore (m : Type → Type) where
  inner : BlobStore m
  keyPrefix : Key

/-- `strip_prefix`. -/
def stripKeyPrefix (keyPrefix key : Key) : Option Key :=
  if keyPrefix <+: key then some (key.drop keyPrefix.length) else none

/-- The key of a record, stripped where it carries the prefix. -/
def BlobMeta.stripped (keyPrefix : Key) (info : BlobMeta) : BlobMeta :=
  { info with key := (stripKeyPrefix keyPrefix info.key).getD info.key }

namespace PrefixBlobStore

/-- `map_error`: a `NotFound` names the key the caller asked for. -/
def mapError (logicalKey : Key) : BlobStorageError → BlobStorageError
  | .notFound _ => .notFound logicalKey
  | other => other

/-- `map_batch_error`: keys outside the prefix are dropped from `succeeded` and
kept as they are in `errors`. -/
def mapBatchError (keyPrefix : Key) : BlobStorageError → BlobStorageError
  | .batch error => .batch
      { succeeded := error.succeeded.filterMap (stripKeyPrefix keyPrefix)
        errors := error.errors.map fun failed =>
          { failed with key := (stripKeyPrefix keyPrefix failed.key).getD failed.key } }
  | other => other

variable {m : Type → Type} [Monad m]

/-- `.map_err(f)`. -/
def mapErr {α : Type} (f : BlobStorageError → BlobStorageError) (x : Fallible m α) :
    Fallible m α := do
  match ← attempt x with
  | .ok a => pure a
  | .error e => throw (f e)

def prefixed (self : PrefixBlobStore m) (key : Key) : Fallible m Key := do
  checkKey key
  checkKey (self.keyPrefix ++ key)
  pure (self.keyPrefix ++ key)

/-- `prefixed` on a whole batch, `?` at the first key that fails. -/
def prefixedAll (self : PrefixBlobStore m) : List Key → Fallible m (List Key)
  | [] => pure []
  | key :: rest => do
      let first ← self.prefixed key
      let others ← self.prefixedAll rest
      pure (first :: others)

def put (self : PrefixBlobStore m) (blobs : List BlobInput) : Fallible m PutResult := do
  let keys ← self.prefixedAll (blobs.map BlobInput.key)
  let result ← self.inner.put
    (List.zipWith (fun key (blob : BlobInput) => { blob with key := key }) keys blobs)
  pure { blobs := result.blobs.map (BlobMeta.stripped self.keyPrefix) }

def get (self : PrefixBlobStore m) (key : Key) : Fallible m Reader := do
  let physical ← self.prefixed key
  mapErr (mapError key) (self.inner.get physical)

def delete (self : PrefixBlobStore m) (keys : List Key) : Fallible m Unit := do
  let physical ← self.prefixedAll keys
  mapErr (mapBatchError self.keyPrefix) (self.inner.delete physical)

def list (self : PrefixBlobStore m) (filter : ListFilter) : Fallible m (List Key) := do
  let keys ← self.inner.list (combinedPrefixFilter self.keyPrefix filter)
  pure ((keys.filterMap (stripKeyPrefix self.keyPrefix)).filter
    fun key => filter.matchesBlob key none)

def existsBlob (self : PrefixBlobStore m) (key : Key) : Fallible m Bool := do
  let physical ← self.prefixed key
  mapErr (mapError key) (self.inner.existsBlob physical)

def getWithMetadata (self : PrefixBlobStore m) (key : Key) :
    Fallible m (BlobMeta × Reader) := do
  let physical ← self.prefixed key
  let (info, reader) ← mapErr (mapError key) (self.inner.getWithMetadata physical)
  pure (info.stripped self.keyPrefix, reader)

/-- `PrefixVisitor`. A record whose key lacks the prefix loses its key. -/
def visitor {S : Type} (keyPrefix : Key) (filter : ListFilter) (outer : BlobVisitor m S) :
    BlobVisitor m S where
  visit key info :=
    match stripKeyPrefix keyPrefix key with
    | none => pure true
    | some logical =>
        let info := info.map fun record =>
          { record with key := (stripKeyPrefix keyPrefix record.key).getD [] }
        if filter.matchesBlob logical info then outer.visit logical info else pure true

def visit {S : Type} (self : PrefixBlobStore m) (filter : ListFilter)
    (outer : BlobVisitor m S) : Fallible (StateT S m) Unit :=
  self.inner.visit (combinedPrefixFilter self.keyPrefix filter)
    (visitor self.keyPrefix filter outer)

def listWithMetadata (self : PrefixBlobStore m) (filter : ListFilter) :
    Fallible m (List BlobMeta) := do
  let infos ← self.inner.listWithMetadata (combinedPrefixFilter self.keyPrefix filter)
  pure (infos.filterMap fun info =>
    match stripKeyPrefix self.keyPrefix info.key with
    | none => none
    | some logical =>
        let record := { info with key := logical }
        if filter.matchesBlob logical (some record) then some record else none)

/-- `impl BlobStore for PrefixBlobStore`. -/
def toBlobStore (self : PrefixBlobStore m) : BlobStore m where
  put := self.put
  get := self.get
  delete := self.delete
  list := self.list
  existsBlob := self.existsBlob
  getWithMetadata := self.getWithMetadata
  visit := self.visit
  listWithMetadata := self.listWithMetadata

variable [LawfulMonad m]

theorem prefixed_of_valid (self : PrefixBlobStore m) {key : Key} (hkey : ValidKey key)
    (hphysical : ValidKey (self.keyPrefix ++ key)) :
    self.prefixed key = pure (self.keyPrefix ++ key) := by
  rw [prefixed, checkKey_of_valid hkey, checkKey_of_valid hphysical, pure_bind, pure_bind]

theorem prefixedAll_of_valid (self : PrefixBlobStore m) {keys : List Key}
    (h : ∀ key ∈ keys, ValidKey key ∧ ValidKey (self.keyPrefix ++ key)) :
    self.prefixedAll keys = pure (keys.map (self.keyPrefix ++ ·)) := by
  induction keys with
  | nil => rfl
  | cons key rest ih =>
      rw [List.forall_mem_cons] at h
      rw [prefixedAll, self.prefixed_of_valid h.1.1 h.1.2, ih h.2, pure_bind, pure_bind,
        List.map_cons]

end PrefixBlobStore

@[simp] theorem stripKeyPrefix_append (keyPrefix key : Key) :
    stripKeyPrefix keyPrefix (keyPrefix ++ key) = some key := by
  simp [stripKeyPrefix]

theorem stripKeyPrefix_eq_some_iff {keyPrefix key logical : Key} :
    stripKeyPrefix keyPrefix key = some logical ↔ key = keyPrefix ++ logical := by
  unfold stripKeyPrefix
  constructor
  · intro h
    split at h
    · rename_i hp
      obtain ⟨rest, rfl⟩ := hp
      rw [List.drop_left] at h
      rw [Option.some.inj h]
    · cases h
  · rintro rfl
    simp

theorem combinedPrefixFilter_sound (storePrefix : Key) (filter : ListFilter) :
    (combinedPrefixFilter storePrefix filter).SoundHint :=
  prefixFilter_sound _

theorem combinedPrefixFilter_metadataIndependent (storePrefix : Key) (filter : ListFilter) :
    (combinedPrefixFilter storePrefix filter).MetadataIndependent := fun _ _ _ => rfl

end BlobStorage
