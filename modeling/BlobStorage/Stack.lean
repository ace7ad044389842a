import BlobStorage.Cleanup
import BlobStorage.Encrypt.Store
import BlobStorage.Prefix

/-!
# Layer stacks

The part of `builder.rs` that decides what store a caller holds: `LayerKind::wrap`
and the loop of `do_build`. Layers are applied in the order in which they were
added, so the last one is the one the caller talks to.
-/

namespace BlobStorage

/-- `LayerKind`. The builder itself only makes encryption layers with the default
header suffix. -/
inductive Layer (m : Type → Type) where
  | keyPrefix (start : Key)
  | encryption (provider : EncryptionProvider m) (headerSuffix : Key)
  | cleanup (predicate : CleanupPredicate) (batchSize : Nat)

variable {m : Type → Type} [Monad m]

/-- `LayerKind::wrap`. -/
def Layer.wrap (inner : BlobStore m) : Layer m → BlobStore m
  | .keyPrefix start => PrefixBlobStore.toBlobStore { inner, keyPrefix := start }
  | .encryption provider headerSuffix =>
      EncryptedBlobStore.toBlobStore { inner, encryption := provider, headerSuffix }
  | .cleanup predicate batchSize =>
      BlobCleanup.toBlobStore { inner, predicate, batchSize }

/-- `ShutdownGuard`, whose methods all delegate to the store it guards. -/
def shutdownGuard (inner : BlobStore m) : BlobStore m where
  put := inner.put
  get := inner.get
  delete := inner.delete
  list := inner.list
  existsBlob := inner.existsBlob
  getWithMetadata := inner.getWithMetadata
  visit := inner.visit
  listWithMetadata := inner.listWithMetadata

/-- The loop of `do_build` over the layers. -/
def applyLayers (backend : BlobStore m) (layers : List (Layer m)) : BlobStore m :=
  layers.foldl (fun store layer => layer.wrap store) backend

/-- `do_build`, as far as the store is concerned. -/
def doBuild (backend : BlobStore m) (layers : List (Layer m)) : BlobStore m :=
  shutdownGuard (applyLayers backend layers)

@[simp] theorem applyLayers_nil (backend : BlobStore m) : applyLayers backend [] = backend := rfl

@[simp] theorem applyLayers_cons (backend : BlobStore m) (layer : Layer m)
    (layers : List (Layer m)) :
    applyLayers backend (layer :: layers) = applyLayers (layer.wrap backend) layers := rfl

@[simp] theorem doBuild_eq (backend : BlobStore m) (layers : List (Layer m)) :
    doBuild backend layers = applyLayers backend layers := rfl

end BlobStorage
