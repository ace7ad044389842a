import BlobStorage.Store

/-!
# The cleanup layer

`cleanup.rs` and `cleanup/visitor.rs`. Every method of the trait is passed through;
`cleanup` walks the inner store with a visitor that deletes in batches while the
walk goes on.
-/

namespace BlobStorage

open Fallible

/-- `CleanupPredicate`. -/
abbrev CleanupPredicate := Key → BlobMeta → Bool

structure BlobCleanup (m : Type → Type) where
  inner : BlobStore m
  predicate : CleanupPredicate
  batchSize : Nat

/-- How a `cleanup` that gives no error ends. -/
inductive CleanupOutcome where
  | done (result : CleanupResult)
  | panicked
  deriving DecidableEq, Repr

/-- The mutable fields of `CleanupVisitor`. -/
structure CleanupProgress where
  batch : List Key
  deletedCount : Nat
  deriving DecidableEq, Repr

namespace BlobCleanup

/-- `DEFAULT_BATCH_SIZE`. -/
def defaultBatchSize : Nat := 1000

/-- `isize::MAX` over the size of a `String`: the longest vector of keys there can be. -/
def maxCapacity : Nat := 0x7FFFFFFFFFFFFFFF / 24

variable {m : Type → Type} [Monad m]

/-- `CleanupVisitor::flush`. A failed delete keeps the batch and the count. -/
def flush (self : BlobCleanup m) : Fallible (StateT CleanupProgress m) Unit := do
  let progress ← getLocal
  if progress.batch = [] then pure ()
  else do
    withLocal (self.inner.delete progress.batch)
    setLocal { batch := [], deletedCount := progress.deletedCount + progress.batch.length }

/-- `CleanupVisitor::visit`. Where the walk brings no metadata the predicate judges
the placeholder record instead. -/
def visitor [Clock m] (self : BlobCleanup m) : BlobVisitor m CleanupProgress where
  visit key info := do
    let now ← performLocal Clock.utcNow
    if self.predicate key (info.getD (BlobMeta.forKey key now)) then do
      let progress ← getLocal
      setLocal { progress with batch := progress.batch ++ [key] }
      if self.batchSize ≤ progress.batch.length + 1 then do
        self.flush
        pure true
      else pure true
    else pure true

/-- The walk of `cleanup`, once the batch has been allocated. -/
def sweep [Clock m] (self : BlobCleanup m) : Fallible m CleanupResult := do
  let (_, progress) ← scopeLocal { batch := [], deletedCount := 0 } do
    self.inner.visit (prefixFilter []) self.visitor
    self.flush
  pure { deletedCount := progress.deletedCount }

def cleanup [Clock m] (self : BlobCleanup m) : Fallible m CleanupOutcome := do
  if self.batchSize ≤ maxCapacity then do
    let result ← self.sweep
    pure (.done result)
  -- `Vec::with_capacity(self.batch_size)` panics, before the first request.
  else pure .panicked

/-- `impl BlobStore for BlobCleanup`. -/
def toBlobStore (self : BlobCleanup m) : BlobStore m where
  put := self.inner.put
  get := self.inner.get
  delete := self.inner.delete
  list := self.inner.list
  existsBlob := self.inner.existsBlob
  getWithMetadata := self.inner.getWithMetadata
  visit := self.inner.visit
  listWithMetadata := self.inner.listWithMetadata

section Execution

variable {σ : Type} [Clock (StateM σ)] {self : BlobCleanup (StateM σ)}

theorem exec_cleanup_of_le (hbatchSize : self.batchSize ≤ maxCapacity) (s : σ) :
    exec self.cleanup s = (exec self.sweep s).map (Except.map CleanupOutcome.done) id := by
  rw [cleanup, if_pos hbatchSize, exec_bind]
  generalize exec self.sweep s = out
  obtain ⟨r, t⟩ := out
  cases r <;> rfl

theorem exec_cleanup_of_lt (hbatchSize : maxCapacity < self.batchSize) (s : σ) :
    exec self.cleanup s = (.ok .panicked, s) := by
  rw [cleanup, if_neg (Nat.not_le.mpr hbatchSize)]
  rfl

/-- A cleanup changes the store as its walk does, or not at all. -/
theorem exec_cleanup_state (s : σ) :
    (exec self.cleanup s).2 = (exec self.sweep s).2 ∨ (exec self.cleanup s).2 = s := by
  obtain hbatchSize | hbatchSize := Nat.lt_or_ge maxCapacity self.batchSize
  · exact .inr (by rw [exec_cleanup_of_lt hbatchSize])
  · exact .inl (by rw [exec_cleanup_of_le hbatchSize]; rfl)

end Execution

end BlobCleanup

end BlobStorage
