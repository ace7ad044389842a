import BlobStorage.Types

/-!
# Errors

`error.rs` and the error type of the encryption trait crate. The boxed `source` of
an error is kept as the value that was boxed; the aliases `Result<T>` of the source
are `Except BlobStorageError`.
-/

namespace BlobStorage

/-- What an `EncryptionProvider` method may return as its error. -/
inductive EncryptionError where
  | operation (message : String)
  | invalidHeader (message : String)
  | io (e : IoError)
  deriving DecidableEq, Repr

/-- The underlying cause that an error carries in its `source`. -/
inductive ErrorSource where
  | io (e : IoError)
  | encryption (e : EncryptionError)
  /-- A spawned task panicked or was cancelled. -/
  | join
  /-- A `tokio::time::timeout` elapsed. -/
  | elapsed
  /-- A request of the S3 client failed, with the service's error code if it sent one. -/
  | sdk (code : Option String)
  deriving DecidableEq, Repr

/-- Why one key of a batch failed. -/
inductive PerKeyError where
  | notFound
  | permissionDenied (message : String)
  | unknown (message : String)
  deriving DecidableEq, Repr

structure KeyError where
  key : Key
  error : PerKeyError
  deriving DecidableEq, Repr

/-- Every key of a failed batch, sorted into those that went through and those
that did not. -/
structure BatchError where
  succeeded : List Key
  errors : List KeyError
  deriving DecidableEq, Repr

inductive BlobStorageError where
  | notFound (key : Key)
  | alreadyExists (message : String)
  | notSupported (message : String)
  | backendMisconfigured (message : String)
  | invalidInput (message : String)
  | storage (message : String) (source : Option ErrorSource)
  | encryption (message : String) (source : Option ErrorSource)
  | permissionDenied (message : String)
  | batch (error : BatchError)
  deriving DecidableEq, Repr

namespace BlobStorageError

/-- `impl From<std::io::Error>`, applied by every `?` on an I/O result. -/
def ofIo (e : IoError) : BlobStorageError := .storage "I/O error" (some (.io e))

def IsInvalidInput : BlobStorageError → Prop
  | .invalidInput _ => True
  | _ => False

def IsNotFound : BlobStorageError → Prop
  | .notFound _ => True
  | _ => False

instance : DecidablePred IsInvalidInput := fun e => by
  cases e <;> unfold IsInvalidInput <;> infer_instance

instance : DecidablePred IsNotFound := fun e => by
  cases e <;> unfold IsNotFound <;> infer_instance

end BlobStorageError

end BlobStorage
