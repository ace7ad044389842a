import BlobStorage.Refinement.Backend
import BlobStorage.Refinement.Encrypt
import BlobStorage.Refinement.Prefix

/-!
# Every stack of layers implements a map

The contract of a backend is carried up through the layers one by one, whatever
they are and in whatever order. What a caller sees of a run is then compared, call
by call, with a single map from logical keys to bytes.
-/

namespace BlobStorage

open Fallible

variable {σ : Type}

namespace Layer

/-- The keys a layer admits over a store that admits `Admits`. -/
def AdmitsKey (Admits : Key → Prop) : Layer (StateM σ) → Key → Prop
  | .keyPrefix start => PrefixBlobStore.AdmitsKey start Admits
  | .encryption _ headerSuffix => EncryptedBlobStore.AdmitsKey headerSuffix Admits
  | .cleanup _ _ => Admits

/-- The map a layer implements over a store that `Holds` a map. -/
def HoldsMap (Admits : Key → Prop) (Holds : σ → PlainMap → Prop) :
    Layer (StateM σ) → σ → PlainMap → Prop
  | .keyPrefix start => PrefixBlobStore.HoldsMap start Admits Holds
  | .encryption provider headerSuffix =>
      EncryptedBlobStore.HoldsMap provider headerSuffix Admits Holds
  | .cleanup _ _ => Holds

/-- The provider of an encryption layer undoes what it does. -/
def Lawful (Keeps : σ → σ → Prop) : Layer (StateM σ) → Prop
  | .encryption provider _ => LawfulProvider Keeps provider
  | _ => True

theorem mapContract {Keeps : σ → σ → Prop} {inner : BlobStore (StateM σ)} {Admits : Key → Prop}
    {Holds : σ → PlainMap → Prop} (C : MapContract Keeps inner Admits Holds)
    (layer : Layer (StateM σ)) (hlawful : layer.Lawful Keeps) :
    MapContract Keeps (layer.wrap inner) (layer.AdmitsKey Admits)
      (layer.HoldsMap Admits Holds) := by
  cases layer with
  | keyPrefix start => exact PrefixBlobStore.mapContract C start
  | encryption provider headerSuffix =>
      exact EncryptedBlobStore.mapContract { inner, encryption := provider, headerSuffix } C hlawful
  | cleanup _ _ => exact ⟨C.keeps, C.admitted, C.put, C.get_some, C.get_none, C.delete,
      C.existsBlob, C.list⟩

/-- Over an empty store a layer is empty. -/
theorem holdsMap_empty {Admits : Key → Prop} {Holds : σ → PlainMap → Prop} {s : σ}
    (h : Holds s fun _ => none) (layer : Layer (StateM σ)) :
    layer.HoldsMap Admits Holds s fun _ => none := by
  cases layer with
  | keyPrefix start => exact ⟨_, h, fun _ => rfl, fun _ h => absurd rfl h, fun _ h => absurd rfl h⟩
  | encryption provider headerSuffix =>
      refine ⟨_, h, ⟨?_, ?_, ?_⟩⟩
      · intro key plaintext hkey
        cases hkey
      · exact fun h => absurd rfl h
      · exact fun h => absurd rfl h
  | cleanup _ _ => exact h

end Layer

/-- The keys that every layer of the stack admits. -/
def StackAdmits (Admits : Key → Prop) : List (Layer (StateM σ)) → Key → Prop
  | [] => Admits
  | layer :: layers => StackAdmits (layer.AdmitsKey Admits) layers

/-- The map that the top of the stack implements. -/
def StackHolds (Admits : Key → Prop) (Holds : σ → PlainMap → Prop) :
    List (Layer (StateM σ)) → σ → PlainMap → Prop
  | [] => Holds
  | layer :: layers => StackHolds (layer.AdmitsKey Admits) (layer.HoldsMap Admits Holds) layers

theorem applyLayers_mapContract {Keeps : σ → σ → Prop} {backend : BlobStore (StateM σ)}
    {Admits : Key → Prop} {Holds : σ → PlainMap → Prop}
    (C : MapContract Keeps backend Admits Holds) (layers : List (Layer (StateM σ)))
    (hlawful : ∀ layer ∈ layers, layer.Lawful Keeps) :
    MapContract Keeps (applyLayers backend layers) (StackAdmits Admits layers)
      (StackHolds Admits Holds layers) := by
  induction layers generalizing backend Admits Holds with
  | nil => exact C
  | cons layer layers ih =>
      rw [List.forall_mem_cons] at hlawful
      exact ih (layer.mapContract C hlawful.1) hlawful.2

theorem stackHolds_empty {Admits : Key → Prop} {Holds : σ → PlainMap → Prop} {s : σ}
    (h : Holds s fun _ => none) (layers : List (Layer (StateM σ))) :
    StackHolds Admits Holds layers s fun _ => none := by
  induction layers generalizing Admits Holds with
  | nil => exact h
  | cons layer layers ih => exact ih (layer.holdsMap_empty h)

/-- One call through the top of a stack. -/
inductive Call where
  | put (blobs : List BlobInput)
  | delete (keys : List Key)
  | get (key : Key)
  | existsBlob (key : Key)
  | list (filter : ListFilter)

/-- What a call returned. -/
inductive Outcome where
  | put (result : Except BlobStorageError PutResult)
  | delete (result : Except BlobStorageError Unit)
  | get (result : Except BlobStorageError Reader)
  | existsBlob (result : Except BlobStorageError Bool)
  | list (result : Except BlobStorageError (List Key))

namespace Call

def run (store : BlobStore (StateM σ)) (s : σ) : Call → Outcome × σ
  | .put blobs => (exec (store.put blobs) s).map .put id
  | .delete keys => (exec (store.delete keys) s).map .delete id
  | .get key => (exec (store.get key) s).map .get id
  | .existsBlob key => (exec (store.existsBlob key) s).map .existsBlob id
  | .list filter => (exec (store.list filter) s).map .list id

/-- The keys and filters a caller may use. -/
def Admissible (Admits : Key → Prop) : Call → Prop
  | .put blobs => ∀ blob ∈ blobs, Admits blob.key
  | .delete keys => ∀ key ∈ keys, Admits key
  | .get key => Admits key
  | .existsBlob key => Admits key
  | .list filter => filter.MetadataIndependent

/-- A listing that is given a hint is given a true one. -/
def SoundHint : Call → Prop
  | .list filter => filter.SoundHint
  | _ => True

/-- The effect of a call on a single map from logical keys to bytes. -/
def apply (M : PlainMap) : Call → PlainMap
  | .put blobs => KeyMap.insertAll M (entriesOf blobs)
  | .delete keys => KeyMap.removeAll M keys
  | _ => M

/-- What the call returns when it is the single map that answers it. -/
def Answers (M : PlainMap) : Call → Outcome → Prop
  | .put blobs, .put (.ok result) => result.blobs.map BlobMeta.key = blobs.map BlobInput.key
  | .delete _, .delete (.ok ()) => True
  | .get key, .get result =>
      match M key with
      | some content => ∃ reader, result = .ok reader ∧ reader.readToEnd = .ok content
      | none => result = .error (.notFound key)
  | .existsBlob key, .existsBlob result => result = .ok (M key).isSome
  | .list filter, .list (.ok keys) =>
      KeyMap.IsListing M (fun key => filter.matchesBlob key none = true) keys
  | _, _ => False

end Call

/-- A put that failed. -/
def Outcome.PutFailed : Outcome → Prop
  | .put (.error _) => True
  | _ => False

instance : DecidablePred Outcome.PutFailed := fun outcome => by
  unfold Outcome.PutFailed
  split <;> infer_instance

/-- The calls one after another, with what each returned. -/
def runCalls (store : BlobStore (StateM σ)) : List Call → σ → List Outcome
  | [], _ => []
  | call :: calls, s => (call.run store s).1 :: runCalls store calls (call.run store s).2

/-- Every call was answered as by a single map that all of them act on. -/
def AnsweredBy (M : PlainMap) : List Call → List Outcome → Prop
  | [], [] => True
  | call :: calls, outcome :: outcomes =>
      call.Answers M outcome ∧ AnsweredBy (call.apply M) calls outcomes
  | _, _ => False

/-- One call on a store that implements a map acts as on that map. -/
theorem MapContract.answers {Keeps : σ → σ → Prop} {store : BlobStore (StateM σ)}
    {Admits : Key → Prop} {Holds : σ → PlainMap → Prop}
    (C : MapContract Keeps store Admits Holds) {s : σ} {M : PlainMap} (hHolds : Holds s M)
    {call : Call} (hcall : call.Admissible Admits) (hhint : call.SoundHint)
    (hput : ¬(call.run store s).1.PutFailed) :
    call.Answers M (call.run store s).1 ∧ Holds (call.run store s).2 (call.apply M) := by
  cases call with
  | put blobs =>
      cases hexec : exec (store.put blobs) s with
      | mk result t =>
          rw [Call.run, hexec] at hput ⊢
          cases result with
          | error e => exact absurd trivial hput
          | ok result =>
              obtain ⟨hHolds', hkeys⟩ := C.put hHolds hcall hexec
              exact ⟨hkeys, hHolds'⟩
  | delete keys =>
      obtain ⟨t, hexec, hHolds'⟩ := C.delete hHolds hcall
      rw [Call.run, hexec]
      exact ⟨trivial, hHolds'⟩
  | get key =>
      rw [Call.run]
      cases hM : M key with
      | some content =>
          obtain ⟨reader, t, hexec, hHolds', hbytes, hfailure⟩ := C.get_some hHolds hcall hM
          rw [hexec]
          refine ⟨?_, hHolds'⟩
          show match M key with | some _ => _ | none => _
          rw [hM]
          exact ⟨reader, rfl, Reader.readToEnd_eq_ok_iff.mpr ⟨hfailure, hbytes⟩⟩
      | none =>
          obtain ⟨t, hexec, hHolds'⟩ := C.get_none hHolds hcall hM
          rw [hexec]
          refine ⟨?_, hHolds'⟩
          show match M key with | some _ => _ | none => _
          rw [hM]
  | existsBlob key =>
      obtain ⟨t, hexec, hHolds'⟩ := C.existsBlob hHolds hcall
      rw [Call.run, hexec]
      exact ⟨rfl, hHolds'⟩
  | list filter =>
      obtain ⟨keys, t, hexec, hHolds', hkeys⟩ := C.list hHolds hhint hcall
      rw [Call.run, hexec]
      exact ⟨hkeys, hHolds'⟩

/-- A run of calls on a store that implements a map is answered by that map. -/
theorem MapContract.answeredBy {Keeps : σ → σ → Prop} {store : BlobStore (StateM σ)}
    {Admits : Key → Prop} {Holds : σ → PlainMap → Prop}
    (C : MapContract Keeps store Admits Holds) {s : σ} {M : PlainMap} (hHolds : Holds s M)
    {calls : List Call} (hcalls : ∀ call ∈ calls, call.Admissible Admits ∧ call.SoundHint)
    (hput : ∀ outcome ∈ runCalls store calls s, ¬outcome.PutFailed) :
    AnsweredBy M calls (runCalls store calls s) := by
  induction calls generalizing s M with
  | nil => trivial
  | cons call calls ih =>
      rw [List.forall_mem_cons] at hcalls
      rw [runCalls, List.forall_mem_cons] at hput
      obtain ⟨hanswer, hHolds'⟩ := C.answers hHolds hcalls.1.1 hcalls.1.2 hput.1
      exact ⟨hanswer, ih hHolds' hcalls.2 hput.2⟩

/-- Over a backend that implements a map from valid keys to bytes and is empty, a
stack of layers answers every run of calls on admitted keys in which no put fails as
a single map from logical keys to bytes would, provided listings are given true
hints. -/
theorem doBuild_answeredBy {Keeps : σ → σ → Prop} {backend : BlobStore (StateM σ)}
    {Holds : σ → PlainMap → Prop} (C : MapContract Keeps backend ValidKey Holds)
    (layers : List (Layer (StateM σ))) (hlawful : ∀ layer ∈ layers, layer.Lawful Keeps)
    {s : σ} (hempty : Holds s fun _ => none) (calls : List Call)
    (hcalls : ∀ call ∈ calls, call.Admissible (StackAdmits ValidKey layers) ∧ call.SoundHint)
    (hput : ∀ outcome ∈ runCalls (doBuild backend layers) calls s, ¬outcome.PutFailed) :
    AnsweredBy (fun _ => none) calls (runCalls (doBuild backend layers) calls s) :=
  (applyLayers_mapContract C layers hlawful).answeredBy (stackHolds_empty hempty layers)
    hcalls hput

/-- An encrypted layer over a prefix layer over the map backend. -/
def sampleStack : List (Layer (StateM MapState)) :=
  [.keyPrefix "p/".toList,
    .encryption (RekeyableShiftEncryption.toProvider ⟨3, 0⟩) defaultHeaderSuffix]

def sampleCalls : List Call :=
  [.put [.new "x".toList (.ofBytes [1, 2])], .get "x".toList, .list (suffixFilter []),
    .delete ["x".toList], .existsBlob "x".toList]

theorem doBuild_answeredBy_sample :
    AnsweredBy (fun _ => none) sampleCalls
      (runCalls (doBuild (MapBlobStore.toBlobStore ⟨true⟩) sampleStack) sampleCalls
        MapState.empty) := by
  have hlawful : ∀ layer ∈ sampleStack, layer.Lawful Eq := by
    simp only [sampleStack, List.forall_mem_cons]
    exact ⟨trivial, RekeyableShiftEncryption.lawful _, by simp⟩
  have hkey : StackAdmits ValidKey sampleStack "x".toList :=
    ⟨by decide, by decide, by decide, ⟨by decide, by decide, by decide⟩,
      by decide, by decide, by decide⟩
  refine doBuild_answeredBy (MapBlobStore.mapContract ⟨true⟩) sampleStack hlawful
    MapBlobStore.holdsMap_empty sampleCalls ?_ (by decide)
  simp only [sampleCalls, List.forall_mem_cons, Call.Admissible, Call.SoundHint,
    BlobInput.new, List.not_mem_nil, IsEmpty.forall_iff, implies_true, and_true]
  exact ⟨hkey, hkey, ⟨suffixFilter_metadataIndependent [], suffixFilter_sound []⟩, hkey, hkey⟩

/-- A filter that accepts every key under a hint that most of them do not carry. -/
def misleadingFilter : ListFilter := { matchesBlob := fun _ _ => true, prefixHint := some ['z'] }

/-- A prefix layer hands the hint of its caller on to the backend as a filter, so a
hint that is not true of every match hides blobs even from a listing that ignores
hints. -/
theorem misleadingFilter_hides_blob :
    (∀ call ∈ [Call.put [.new ['x'] (.ofBytes [])], .list misleadingFilter],
      call.Admissible (StackAdmits ValidKey
        ([.keyPrefix ['p', '/']] : List (Layer (StateM MapState))))) ∧
    (∀ outcome ∈ runCalls (doBuild (MapBlobStore.toBlobStore ⟨false⟩) [.keyPrefix ['p', '/']])
        [Call.put [.new ['x'] (.ofBytes [])], .list misleadingFilter] MapState.empty,
      ¬outcome.PutFailed) ∧
    ¬AnsweredBy (fun _ => none) [Call.put [.new ['x'] (.ofBytes [])], .list misleadingFilter]
      (runCalls (doBuild (MapBlobStore.toBlobStore ⟨false⟩) [.keyPrefix ['p', '/']])
        [Call.put [.new ['x'] (.ofBytes [])], .list misleadingFilter] MapState.empty) := by
  refine ⟨?_, by decide, ?_⟩
  · simp only [List.forall_mem_cons, Call.Admissible, BlobInput.new]
    refine ⟨⟨⟨by decide, by decide, by decide⟩, by simp⟩, fun _ _ _ => rfl, by simp⟩
  · rintro ⟨_, hlist, _⟩
    have hmem := (hlist.2 ['x']).mpr ⟨by decide, rfl⟩
    exact absurd hmem (by decide)

end BlobStorage
