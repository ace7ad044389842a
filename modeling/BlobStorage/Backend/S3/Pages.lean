import BlobStorage.Backend.S3
import BlobStorage.Browsing.Loop

/-!
# Listings over S3

The three listing operations share the loop over pages. However the service splits its
objects into pages, the loop hands over what `listed` names, so that the backend shows a
plain function of the service's answers.
-/

namespace BlobStorage

open Fallible

namespace S3BlobStore

variable {σ S : Type}

/-- Reading requests leave the service as it is. -/
structure ReadsQuietly (store : S3BlobStore (StateM σ)) (s : σ) : Prop where
  getObject : ∀ key, (store.send (.getObject key) s).2 = s
  headObject : ∀ key, (store.send (.headObject key) s).2 = s
  listObjectsV2 : ∀ start token, (store.send (.listObjectsV2 start token) s).2 = s

variable (self : S3BlobStore (StateM σ)) (s : σ)

/-- The objects of a page that have a key. -/
def keyed (contents : List S3Object) : List (Key × S3Object) :=
  contents.filterMap fun object => object.key.map fun key => (key, object)

/-- The objects that the loop comes by, and the error that it ends in. -/
def listed (start : Option Key) : Nat → Option String →
    List (Key × S3Object) × Option BlobStorageError
  | 0, _ => ([], some (.storage "listing did not end" none))
  | fuel + 1, token =>
      match (self.send (.listObjectsV2 start token) s).1 with
      | .error e => ([], some (self.requestError "S3 list failed" e))
      | .ok output =>
          match output.nextContinuationToken with
          | none => (keyed output.contents, none)
          | some next =>
              (keyed output.contents ++ (listed start fuel (some next)).1,
                (listed start fuel (some next)).2)

/-- The callback of a listing, for an object that has a key. -/
def onListed (onObject : OnObject (StateM σ) S) : OnItem σ S (Key × S3Object) :=
  fun object => onObject object.1 object.2

def recordOf (object : Key × S3Object) : BlobMeta := objectMeta object.1 object.2

@[simp] theorem recordOf_key (object : Key × S3Object) : (recordOf object).key = object.1 := rfl

/-- What the listing of a filter comes by. -/
def found (filter : ListFilter) : List BlobMeta × Option BlobStorageError :=
  ((self.listed s (requestPrefix filter) self.maxPages none).1.map recordOf,
    (self.listed s (requestPrefix filter) self.maxPages none).2)

section Loop

variable {self : S3BlobStore (StateM σ)} {s : σ} {onObject : OnObject (StateM σ) S}
  (hquiet : (onListed onObject).QuietAt s)

include hquiet

theorem execLocal_eachObject (contents : List S3Object)
    {after : Bool → Fallible (StateT S (StateM σ)) Unit} (hstop : after false = pure ()) (l : S) :
    execLocal (eachObject onObject contents >>= after) l s =
      execLocal (handEach (onListed onObject) (after true) (keyed contents)) l s := by
  induction contents generalizing l with
  | nil => rfl
  | cons object rest ih =>
      rw [eachObject, keyed, List.filterMap_cons]
      cases object.key with
      | none => exact ih l
      | some key =>
          dsimp only [Option.map_some]
          rw [handEach, bind_assoc]
          apply execLocal_ifMore_congr (hquiet (key, object) l)
          intro more k
          cases more with
          | false =>
              change execLocal (pure false >>= after) k s = _
              rw [pure_bind, hstop]
              rfl
          | true => exact ih k

theorem execLocal_eachPage (hreads : self.ReadsQuietly s) (start : Option Key) (fuel : Nat)
    (token : Option String) (l : S) :
    execLocal (self.eachPage start onObject fuel token) l s =
      execLocal (handEach (onListed onObject) (ending (self.listed s start fuel token).2)
        (self.listed s start fuel token).1) l s := by
  induction fuel generalizing token l with
  | zero => rfl
  | succ fuel ih =>
      have hstay := hreads.listObjectsV2 start token
      have hrequest : exec (self.request (.listObjectsV2 start token) "S3 list failed") s =
          ((self.send (.listObjectsV2 start token) s).1.mapError
            (self.requestError "S3 list failed"), s) := by
        refine Eq.trans ?_ (congrArg (Prod.mk _) hstay)
        rfl
      rw [eachPage, execLocal_bind, execLocal_withLocal, hrequest, listed]
      cases (self.send (.listObjectsV2 start token) s).1 with
      | error e => rfl
      | ok output =>
          dsimp only [Except.mapError]
          cases hnext : output.nextContinuationToken with
          | none =>
              dsimp only
              exact execLocal_eachObject hquiet output.contents rfl l
          | some next =>
              dsimp only
              rw [handEach_append]
              refine (execLocal_eachObject hquiet output.contents rfl l).trans ?_
              apply execLocal_handEach_congr hquiet
              intro k
              exact ih (some next) k

end Loop

section Answers

variable (key : Key)

def outputAnswer : Except BlobStorageError GetObjectOutput :=
  match (self.send (.getObject key) s).1 with
  | .ok output => .ok output
  | .error e =>
      if e.isMisconfigured then .error (self.requestError "" e)
      else if e.isNotFound then .error (.notFound key)
      else .error (self.requestError s!"S3 get failed for key '{String.ofList key}'" e)

def headAnswer : Except BlobStorageError Bool :=
  match (self.send (.headObject key) s).1 with
  | .ok _ => .ok true
  | .error e =>
      if e.isMisconfigured then .error (self.requestError "" e)
      else if e.isNotFound then .ok false
      else .error (self.requestError s!"S3 head failed for key '{String.ofList key}'" e)

def getAnswer : Except BlobStorageError Reader := do
  validateBlobKey key
  let output ← self.outputAnswer s key
  pure output.body

def getWithMetadataAnswer : Except BlobStorageError (BlobMeta × Reader) := do
  validateBlobKey key
  let output ← self.outputAnswer s key
  pure ({ key, storedSize := toUnsigned (output.contentLength.getD 0),
          modifiedAt := output.lastModified.getD 0, etag := output.eTag }, output.body)

def existsAnswer : Except BlobStorageError Bool := do
  validateBlobKey key
  self.headAnswer s key

variable {self s} (hreads : self.ReadsQuietly s)

include hreads

theorem exec_getObjectOutput :
    exec (self.getObjectOutput key) s = (self.outputAnswer s key, s) := by
  have hstay := hreads.getObject key
  unfold getObjectOutput outputAnswer
  rw [exec_bind, exec_perform, hstay]
  dsimp only
  cases (self.send (.getObject key) s).1 with
  | ok output => rfl
  | error e =>
      dsimp only
      split
      · rfl
      · split <;> rfl

theorem exec_existsBlob : exec (self.existsBlob key) s = (self.existsAnswer s key, s) := by
  apply exec_bind_answer (exec_checkKey key s)
  intro _
  have hstay := hreads.headObject key
  rw [exec_bind, exec_perform, hstay]
  unfold headAnswer
  dsimp only
  cases (self.send (.headObject key) s).1 with
  | ok output => rfl
  | error e =>
      dsimp only
      split
      · rfl
      · split <;> rfl

theorem exec_get : exec (self.get key) s = (self.getAnswer s key, s) :=
  exec_bind_answer (exec_checkKey key s) fun _ =>
    exec_bind_answer (exec_getObjectOutput key hreads) fun _ => rfl

theorem exec_getWithMetadata :
    exec (self.getWithMetadata key) s = (self.getWithMetadataAnswer s key, s) :=
  exec_bind_answer (exec_checkKey key s) fun _ =>
    exec_bind_answer (exec_getObjectOutput key hreads) fun _ => rfl

end Answers

section Shown

/-- What the backend shows in the state `s`. -/
def shown : Shown :=
  .enumerating (self.getAnswer s) (self.existsAnswer s) (self.getWithMetadataAnswer s)
    (self.found s)

variable {self s} (hreads : self.ReadsQuietly s)

include hreads

theorem exec_list (filter : ListFilter) :
    exec (self.list filter) s = ((self.shown s).list filter, s) := by
  apply exec_scopeLocal_walkEnd
  unfold walk
  rw [execLocal_eachPage _ hreads, @execLocal_handEach_gather _ _ s Key _ filter recordOf BlobMeta.key]
  · rfl
  · intro object _ l
    rw [recordOf_key]
    unfold onListed
    dsimp only
    split <;> rfl
  · intro object l
    unfold onListed
    dsimp only
    split <;> rfl

theorem exec_listWithMetadata (filter : ListFilter) :
    exec (self.listWithMetadata filter) s = ((self.shown s).listWithMetadata filter, s) := by
  apply exec_scopeLocal_walkEnd
  unfold walk
  rw [execLocal_eachPage _ hreads,
    @execLocal_handEach_gather _ _ s BlobMeta _ filter recordOf id]
  · rw [List.nil_append, List.map_id]
    rfl
  · intro object _ l
    rw [recordOf_key]
    unfold onListed
    dsimp only
    split <;> rfl
  · intro object l
    unfold onListed
    dsimp only
    split <;> rfl

theorem execLocal_visit (filter : ListFilter) {visitor : BlobVisitor (StateM σ) S}
    (hquiet : visitor.QuietAt s) (l : S) :
    execLocal (self.visit filter visitor) l s =
      execLocal (walkEach visitor ((self.shown s).walk filter).2 ((self.shown s).walk filter).1) l
        s := by
  unfold visit walk
  rw [execLocal_eachPage _ hreads]
  · apply @execLocal_handEach_visit _ _ _ s _ filter recordOf _ hquiet
    intro object _ l
    rw [recordOf_key]
    unfold onListed
    dsimp only
    split <;> rfl
  · intro object l
    unfold onListed
    dsimp only
    split
    · exact hquiet object.1 _ l
    · rfl

/-- The S3 backend enumerates the objects that the service lists, and shows them so. -/
theorem browses [Clock (StateM σ)] : Browses self.toBlobStore s (self.shown s) where
  existsBlob key := exec_existsBlob key hreads
  list := exec_list hreads
  visit filter _ l hquiet := execLocal_visit hreads filter hquiet l
  get key := exec_get key hreads
  getWithMetadata key := exec_getWithMetadata key hreads
  listWithMetadata := exec_listWithMetadata hreads

end Shown

end S3BlobStore

end BlobStorage
