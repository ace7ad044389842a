import BlobStorage.Cleanup

/-!
# Calls and what they show

All the methods of the trait as calls. What a call shows is its result, and for a walk
also what the visitor recorded. Two results agree up to wording when they differ in the text of
error messages only.
-/

namespace BlobStorage

open Fallible

inductive StoreCall (σ : Type) : Type 1 where
  | put (blobs : List BlobInput)
  | delete (keys : List Key)
  | get (key : Key)
  | existsBlob (key : Key)
  | getWithMetadata (key : Key)
  | list (filter : ListFilter)
  | visit {S : Type} (filter : ListFilter) (visitor : BlobVisitor (StateM σ) S) (l : S)
  | listWithMetadata (filter : ListFilter)

inductive Observation : Type 1 where
  | put (result : Except BlobStorageError PutResult)
  | delete (result : Except BlobStorageError Unit)
  | get (result : Except BlobStorageError Reader)
  | existsBlob (result : Except BlobStorageError Bool)
  | getWithMetadata (result : Except BlobStorageError (BlobMeta × Reader))
  | list (result : Except BlobStorageError (List Key))
  | visit {S : Type} (result : Except BlobStorageError Unit) (l : S)
  | listWithMetadata (result : Except BlobStorageError (List BlobMeta))
  | cleanup (result : Except BlobStorageError CleanupOutcome)

variable {σ : Type}

def StoreCall.run (store : BlobStore (StateM σ)) (s : σ) : StoreCall σ → Observation × σ
  | .put blobs => (exec (store.put blobs) s).map Observation.put id
  | .delete keys => (exec (store.delete keys) s).map Observation.delete id
  | .get key => (exec (store.get key) s).map Observation.get id
  | .existsBlob key => (exec (store.existsBlob key) s).map Observation.existsBlob id
  | .getWithMetadata key => (exec (store.getWithMetadata key) s).map Observation.getWithMetadata id
  | .list filter => (exec (store.list filter) s).map Observation.list id
  | .visit filter visitor l =>
      (execLocal (store.visit filter visitor) l s).map (fun r => Observation.visit r.1 r.2) id
  | .listWithMetadata filter =>
      (exec (store.listWithMetadata filter) s).map Observation.listWithMetadata id

/-- One call after another: what each shows, and the state in the end. -/
def observeCalls (store : BlobStore (StateM σ)) : List (StoreCall σ) → σ → List Observation × σ
  | [], s => ([], s)
  | call :: rest, s =>
      let (shown, t) := call.run store s
      let (others, u) := observeCalls store rest t
      (shown :: others, u)

theorem observeCalls_cons (store : BlobStore (StateM σ)) (call : StoreCall σ)
    (rest : List (StoreCall σ)) (s : σ) :
    observeCalls store (call :: rest) s =
      ((call.run store s).1 :: (observeCalls store rest (call.run store s).2).1,
        (observeCalls store rest (call.run store s).2).2) := rfl

/-- The error without its message. -/
def BlobStorageError.unworded : BlobStorageError → BlobStorageError
  | .notFound key => .notFound key
  | .alreadyExists _ => .alreadyExists ""
  | .notSupported _ => .notSupported ""
  | .backendMisconfigured _ => .backendMisconfigured ""
  | .invalidInput _ => .invalidInput ""
  | .storage _ source => .storage "" source
  | .encryption _ source => .encryption "" source
  | .permissionDenied _ => .permissionDenied ""
  | .batch error => .batch error

/-- The stream, where it breaks off, without the message. -/
def Reader.unworded (reader : Reader) : Reader :=
  { reader with failure := reader.failure.map fun e => { e with message := "" } }

/-- A result without the messages of its error, or of the error of its stream. -/
def unwordedResult {α : Type} (f : α → α) : Except BlobStorageError α → Except BlobStorageError α
  | .ok a => .ok (f a)
  | .error e => .error e.unworded

def Observation.unworded : Observation → Observation
  | .put result => .put (unwordedResult id result)
  | .delete result => .delete (unwordedResult id result)
  | .get result => .get (unwordedResult Reader.unworded result)
  | .existsBlob result => .existsBlob (unwordedResult id result)
  | .getWithMetadata result => .getWithMetadata (unwordedResult (Prod.map id Reader.unworded) result)
  | .list result => .list (unwordedResult id result)
  | .visit result l => .visit (unwordedResult id result) l
  | .listWithMetadata result => .listWithMetadata (unwordedResult id result)
  | .cleanup result => .cleanup (unwordedResult id result)

theorem BlobStorageError.IsInvalidInput.unworded_eq {e e' : BlobStorageError}
    (h : e.IsInvalidInput) (h' : e'.IsInvalidInput) : e.unworded = e'.unworded := by
  cases e <;> cases e' <;> first | rfl | exact absurd h not_false | exact absurd h' not_false

end BlobStorage
