import BlobStorage.Encrypt.Store
import BlobStorage.Library.Program
import BlobStorage.Refinement.Contract

/-!
# The requests of the encrypted layer

The layer as a program over an inner store that is somewhere else: each call of the
inner store and of the provider is a request, and a batch deletes key by key, as both
backends do. `contents` is what the inner store holds after a history of requests.
-/

namespace BlobStorage

open Fallible Program

/-- A delete can fail for its key alone or end the batch, and what ends a batch is not
itself the report of one. -/
inductive DeleteFailure where
  | key (e : PerKeyError)
  | request (e : BlobStorageError) (whole : ∀ report, e ≠ .batch report)
  deriving DecidableEq, Repr

inductive Request where
  | put (blobs : List BlobInput)
  | get (key : Key)
  | delete (key : Key)
  | list (filter : ListFilter)
  | existsBlob (key : Key)
  | getWithMetadata (key : Key)
  | listWithMetadata (filter : ListFilter)
  | enumerate (filter : ListFilter)
  | encryptStream (input : Reader)
  | decryptStream (input : Reader) (headerBytes : Bytes)
  | rekeyHeader (headerBytes : Bytes)

/-- What comes back. The response to a put also tells what it left in the store,
which its caller does not see. -/
abbrev Request.Response : Request → Type
  | .put _ => Except BlobStorageError PutResult × List (Key × Bytes)
  | .get _ => Except BlobStorageError Reader
  | .delete _ => Except DeleteFailure Unit
  | .list _ => Except BlobStorageError (List Key)
  | .existsBlob _ => Except BlobStorageError Bool
  | .getWithMetadata _ => Except BlobStorageError (BlobMeta × Reader)
  | .listWithMetadata _ => Except BlobStorageError (List BlobMeta)
  | .enumerate _ => Except BlobStorageError (List (Key × Option BlobMeta))
  | .encryptStream _ => EncryptRun
  | .decryptStream _ _ => DecryptRun
  | .rekeyHeader _ => Except EncryptionError (Option Bytes)

abbrev StoreProgram := Program Request.Response

def send (q : Request) : StoreProgram q.Response := ask q

/-- A request whose response is the result of a method. -/
def askFor {α : Type} (q : Request) (result : q.Response → Except BlobStorageError α) :
    Fallible StoreProgram α :=
  ExceptT.mk (send q >>= fun response => pure (result response))

/-- The loop over the keys of a batch: those that went and those that did not. -/
def deleteEach : List Key → Fallible StoreProgram (List Key × List KeyError)
  | [] => pure ([], [])
  | key :: rest => do
      let response : Except DeleteFailure Unit ← perform (send (.delete key))
      match response with
      | .ok _ => do
          let (succeeded, errors) ← deleteEach rest
          pure (key :: succeeded, errors)
      | .error (.key e) => do
          let (succeeded, errors) ← deleteEach rest
          pure (succeeded, { key, error := e } :: errors)
      | .error (.request e _) => throw e

/-- The inner store, as the layer calls it. A walk that breaks off is, for the
objects of the store, one that found fewer. -/
def requestStore : BlobStore StoreProgram where
  put blobs := askFor (.put blobs) Prod.fst
  get key := askFor (.get key) id
  delete keys := do
    let (succeeded, errors) ← deleteEach keys
    if errors = [] then pure () else throw (.batch { succeeded, errors })
  list filter := askFor (.list filter) id
  existsBlob key := askFor (.existsBlob key) id
  getWithMetadata key := askFor (.getWithMetadata key) id
  visit filter visitor := do
    let entries ← withLocal (askFor (.enumerate filter) id)
    visitEach visitor entries
  listWithMetadata filter := askFor (.listWithMetadata filter) id

def requestProvider : EncryptionProvider StoreProgram where
  encryptStream input := send (.encryptStream input)
  decryptStream input headerBytes := send (.decryptStream input headerBytes)
  rekeyHeader headerBytes := send (.rekeyHeader headerBytes)

/-- The encrypted layer over such a store. -/
def requestLayer (headerSuffix : Key) : EncryptedBlobStore StoreProgram where
  inner := requestStore
  encryption := requestProvider
  headerSuffix := headerSuffix

abbrev StoreExchange := Exchange Request.Response

/-- What an exchange does to the objects of the inner store. -/
def applyExchange (M : PlainMap) : StoreExchange → PlainMap
  | ⟨.put _, (_, written)⟩ => KeyMap.insertAll M written
  | ⟨.delete key, .ok _⟩ => Function.update M key none
  | _ => M

section Contents

variable {ι : Type}

abbrev StoreEvent (ι : Type) := Event ι Request.Response

/-- The objects of the inner store after a history that began with `initial`. -/
def contents (initial : PlainMap) (history : List (StoreEvent ι)) : PlainMap :=
  history.foldl (fun M event => applyExchange M event.exchange) initial

@[simp] theorem contents_nil (initial : PlainMap) :
    contents initial ([] : List (StoreEvent ι)) = initial := rfl

theorem contents_append (initial : PlainMap) (h k : List (StoreEvent ι)) :
    contents initial (h ++ k) = contents (contents initial h) k :=
  List.foldl_append

@[simp] theorem contents_cons (initial : PlainMap) (event : StoreEvent ι)
    (h : List (StoreEvent ι)) :
    contents initial (event :: h) = contents (applyExchange initial event.exchange) h := rfl

/-- The exchange may have changed the object under `key`. -/
def Touches (key : Key) : StoreExchange → Prop
  | ⟨.put _, (_, written)⟩ => key ∈ written.map Prod.fst
  | ⟨.delete other, .ok _⟩ => key = other
  | _ => False

instance (key : Key) : DecidablePred (Touches key) := fun x => by
  unfold Touches
  split <;> infer_instance

theorem applyExchange_of_not_touches {key : Key} {x : StoreExchange} (h : ¬Touches key x)
    (M : PlainMap) : applyExchange M x key = M key := by
  unfold Touches at h
  unfold applyExchange
  split at h
  · exact KeyMap.insertAll_of_not_mem h
  · exact Function.update_of_ne h _ _
  · rfl

/-- Requests that leave an object alone leave its contents alone. -/
theorem contents_of_not_touches {key : Key} {initial : PlainMap} {history : List (StoreEvent ι)}
    (h : ∀ event ∈ history, ¬Touches key event.exchange) :
    contents initial history key = initial key := by
  induction history generalizing initial with
  | nil => rfl
  | cons event history ih =>
      rw [List.forall_mem_cons] at h
      rw [contents_cons, ih h.2, applyExchange_of_not_touches h.1]

/-- Every object that is there was last touched by one of the requests, or was there
from the beginning. -/
theorem last_touch (key : Key) (history : List (StoreEvent ι)) :
    (∀ event ∈ history, ¬Touches key event.exchange) ∨
      ∃ earlier event later, history = earlier ++ event :: later ∧ Touches key event.exchange ∧
        ∀ event' ∈ later, ¬Touches key event'.exchange := by
  induction history with
  | nil => exact .inl (by simp)
  | cons event history ih =>
      rcases ih with hnone | ⟨earlier, last, later, rfl, htouch, hlater⟩
      · by_cases htouch : Touches key event.exchange
        · exact .inr ⟨[], event, history, rfl, htouch, hnone⟩
        · exact .inl (List.forall_mem_cons.mpr ⟨htouch, hnone⟩)
      · exact .inr ⟨event :: earlier, last, later, rfl, htouch, hlater⟩

/-- The write of an object. -/
def WritesTo (key : Key) : StoreExchange → Prop
  | ⟨.put _, (_, written)⟩ => key ∈ written.map Prod.fst
  | _ => False

theorem WritesTo.touches {key : Key} {x : StoreExchange} (h : WritesTo key x) :
    Touches key x := by
  unfold WritesTo at h
  split at h
  · exact h
  · exact absurd h not_false

/-- An object that was written, and only touched by writes, is there. -/
theorem object_of_writes {initial : PlainMap} {h : List (StoreEvent ι)} {key : Key}
    (hwrite : ∃ event ∈ h, WritesTo key event.exchange)
    (hall : ∀ event ∈ h, Touches key event.exchange → WritesTo key event.exchange) :
    ∃ content, contents initial h key = some content := by
  obtain ⟨event, hmem, hwrites⟩ := hwrite
  rcases last_touch key h with hnone | ⟨earlier, last, later, rfl, htouch, hlater⟩
  · exact absurd hwrites.touches (hnone event hmem)
  · have hlast := hall last (by simp) htouch
    rw [contents_append, contents_cons, contents_of_not_touches hlater]
    obtain ⟨thread, request, response⟩ := last
    cases request with
    | put blobs =>
        obtain ⟨result, written⟩ := response
        exact KeyMap.exists_insertAll_of_mem hlast _
    | _ => exact absurd hlast not_false

/-- An inner store whose requests are atomic. A write happens as a whole or fails and
changes nothing; a read returns the whole object, tells that there is none, or fails. -/
def AtomicServes (initial : PlainMap) (history : List (StoreEvent ι)) : StoreExchange → Prop
  | ⟨.put blobs, (.ok _, written)⟩ => written = entriesOf blobs
  | ⟨.put _, (.error _, written)⟩ => written = []
  | ⟨.get key, .ok reader⟩ =>
      ∃ content, contents initial history key = some content ∧ reader.readToEnd = .ok content
  | ⟨.get key, .error e⟩ => e.IsNotFound → contents initial history key = none
  | ⟨.enumerate filter, .ok entries⟩ =>
      ∀ entry ∈ entries, filter.matchesBlob entry.1 entry.2 = true
  | _ => True

end Contents

end BlobStorage
