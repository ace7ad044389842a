import BlobStorage.Encrypt.Store
import BlobStorage.Prefix
import BlobStorage.Backend.Map
import BlobStorage.Encrypt.Shift

/-!
# Reads that fail

The reading operations of the encrypted layer over an inner store some of whose requests
fail, compared with the same operations over the store without the faults. A fault that
shows up as an error is one the caller can act on; one that shows up as a missing blob
is not.
-/

namespace BlobStorage

open Fallible

variable {σ S : Type}

/-- What an inner store answers to reads in one state. A walk hands out entries and ends,
by itself or with an error. -/
structure Reads where
  get : Key → Except BlobStorageError Reader
  existsBlob : Key → Except BlobStorageError Bool
  getWithMetadata : Key → Except BlobStorageError (BlobMeta × Reader)
  list : ListFilter → Except BlobStorageError (List Key)
  walk : ListFilter → List (Key × Option BlobMeta) × Option BlobStorageError

/-- Call the visitor for the entries of a walk, and fail as the walk does unless the
visitor ended it before. -/
def walkEach {m : Type → Type} [Monad m] (visitor : BlobVisitor m S)
    (failure : Option BlobStorageError) :
    List (Key × Option BlobMeta) → Fallible (StateT S m) Unit
  | [] =>
      match failure with
      | none => pure ()
      | some e => throw e
  | (key, info) :: rest => do
      let more ← visitor.visit key info
      if more then walkEach visitor failure rest else pure ()

/-- Called in the state `s`, the visitor does not change it. -/
def BlobVisitor.QuietAt (visitor : BlobVisitor (StateM σ) S) (s : σ) : Prop :=
  ∀ key info l, (execLocal (visitor.visit key info) l s).2 = s

/-- In the state `s` the store answers so, and a read leaves the state as it is, also a walk whose
visitor leaves it alone. -/
structure Answers (store : BlobStore (StateM σ)) (s : σ) (reads : Reads) : Prop where
  get : ∀ key, exec (store.get key) s = (reads.get key, s)
  existsBlob : ∀ key, exec (store.existsBlob key) s = (reads.existsBlob key, s)
  getWithMetadata : ∀ key, exec (store.getWithMetadata key) s = (reads.getWithMetadata key, s)
  list : ∀ filter, exec (store.list filter) s = (reads.list filter, s)
  visit : ∀ {S : Type} filter (visitor : BlobVisitor (StateM σ) S) l, visitor.QuietAt s →
    execLocal (store.visit filter visitor) l s =
      execLocal (walkEach visitor (reads.walk filter).2 (reads.walk filter).1) l s

/-- The object under `key` is there, and every read says so. -/
structure Reads.Has (reads : Reads) (key : Key) : Prop where
  existsBlob : reads.existsBlob key = .ok true
  get : ∃ reader, reads.get key = .ok reader
  getWithMetadata : ∃ pair, reads.getWithMetadata key = .ok pair

/-- The error that a request fails with instead of being answered. -/
structure ReadFault where
  error : BlobStorageError
  notMissing : ¬error.IsNotFound

/-- Which requests fail. A walk fails after some number of entries. -/
structure ReadFaults where
  get : Key → Option ReadFault
  existsBlob : Key → Option ReadFault
  getWithMetadata : Key → Option ReadFault
  list : Option ReadFault
  walk : Option (Nat × ReadFault)

/-- The answer, unless there is a fault. -/
def ReadFault.instead {α : Type} (answer : Except BlobStorageError α) :
    Option ReadFault → Except BlobStorageError α
  | none => answer
  | some fault => .error fault.error

def Reads.withFaults (reads : Reads) (faults : ReadFaults) : Reads where
  get key := ReadFault.instead (reads.get key) (faults.get key)
  existsBlob key := ReadFault.instead (reads.existsBlob key) (faults.existsBlob key)
  getWithMetadata key := ReadFault.instead (reads.getWithMetadata key) (faults.getWithMetadata key)
  list filter := ReadFault.instead (reads.list filter) faults.list
  walk filter :=
    match faults.walk with
    | none => reads.walk filter
    | some (n, fault) => ((reads.walk filter).1.take n, some fault.error)

section Surfaces

variable {α β : Type} {s : σ} {l : S}

/-- Run from `s`, the computation `x'` does what `x` does or returns an error, and that
error does not say that something is missing. -/
def Surfaces (s : σ) (x x' : Fallible (StateM σ) α) : Prop :=
  exec x' s = exec x s ∨ ∃ e, ¬e.IsNotFound ∧ (exec x' s).1 = .error e

theorem Surfaces.refl (x : Fallible (StateM σ) α) : Surfaces s x x := .inl rfl

theorem Surfaces.bind {x x' : Fallible (StateM σ) α} {f f' : α → Fallible (StateM σ) β}
    (h : Surfaces s x x') (hf : ∀ a t, exec x s = (.ok a, t) → Surfaces t (f a) (f' a)) :
    Surfaces s (x >>= f) (x' >>= f') := by
  obtain h | ⟨e, he, h⟩ := h
  · cases hx : exec x s with
    | mk r t =>
        rw [hx] at h
        cases r with
        | ok a =>
            obtain hsame | ⟨e, he, hfailed⟩ := hf a t hx
            · left
              rw [exec_bind_ok h, exec_bind_ok hx, hsame]
            · right
              refine ⟨e, he, ?_⟩
              rw [exec_bind_ok h, hfailed]
        | error e =>
            left
            rw [exec_bind_error h, exec_bind_error hx]
  · right
    refine ⟨e, he, ?_⟩
    rw [exec_bind_error (show exec x' s = (.error e, (exec x' s).2) by rw [← h])]

/-- The same with a local state. -/
def SurfacesLocal (l : S) (s : σ) (x x' : Fallible (StateT S (StateM σ)) α) : Prop :=
  execLocal x' l s = execLocal x l s ∨ ∃ e, ¬e.IsNotFound ∧ (execLocal x' l s).1.1 = .error e

theorem SurfacesLocal.refl (x : Fallible (StateT S (StateM σ)) α) : SurfacesLocal l s x x :=
  .inl rfl

theorem SurfacesLocal.bind {x x' : Fallible (StateT S (StateM σ)) α}
    {f f' : α → Fallible (StateT S (StateM σ)) β} (h : SurfacesLocal l s x x')
    (hf : ∀ a k t, execLocal x l s = ((.ok a, k), t) → SurfacesLocal k t (f a) (f' a)) :
    SurfacesLocal l s (x >>= f) (x' >>= f') := by
  unfold SurfacesLocal
  rw [execLocal_bind, execLocal_bind]
  obtain h | ⟨e, he, h⟩ := h
  · rw [h]
    cases hx : execLocal x l s with
    | mk rk t =>
        obtain ⟨r, k⟩ := rk
        cases r with
        | ok a => exact hf a k t hx
        | error e => exact .inl rfl
  · right
    refine ⟨e, he, ?_⟩
    cases hx : execLocal x' l s with
    | mk rk t =>
        obtain ⟨r, k⟩ := rk
        rw [hx] at h
        cases h
        rfl

theorem SurfacesLocal.withLocal {x x' : Fallible (StateM σ) α} (h : Surfaces s x x') :
    SurfacesLocal l s (withLocal x) (withLocal x') := by
  unfold SurfacesLocal
  rw [execLocal_withLocal, execLocal_withLocal]
  obtain h | ⟨e, he, h⟩ := h
  · left
    rw [h]
  · exact .inr ⟨e, he, h⟩

/-- A request that may fail instead of being answered. -/
theorem surfaces_instead {x x' : Fallible (StateM σ) α} {answer : Except BlobStorageError α}
    {fault : Option ReadFault} (h : exec x s = (answer, s))
    (h' : exec x' s = (ReadFault.instead answer fault, s)) : Surfaces s x x' := by
  cases fault with
  | none => exact .inl (h'.trans h.symm)
  | some fault => exact .inr ⟨fault.error, fault.notMissing, by rw [h']; rfl⟩

theorem exec_hideNotFound (key : Key) (x : Fallible (StateM σ) α) (s : σ) :
    exec (EncryptedBlobStore.hideNotFound key x) s =
      ((exec x s).1.mapError (PrefixBlobStore.mapError key), (exec x s).2) := by
  rw [EncryptedBlobStore.hideNotFound, exec_bind_ok (exec_attempt s x)]
  cases exec x s with
  | mk r t =>
      cases r with
      | ok a => rfl
      | error e => cases e <;> rfl

theorem Surfaces.hideNotFound (key : Key) {x x' : Fallible (StateM σ) α} (h : Surfaces s x x') :
    Surfaces s (EncryptedBlobStore.hideNotFound key x) (EncryptedBlobStore.hideNotFound key x') := by
  unfold Surfaces
  rw [exec_hideNotFound, exec_hideNotFound]
  obtain h | ⟨e, he, h⟩ := h
  · left
    rw [h]
  · right
    refine ⟨e, he, ?_⟩
    rw [h]
    cases e with
    | notFound _ => exact absurd trivial he
    | _ => rfl

end Surfaces

section Operations

/-- The encrypted layer over a store. -/
abbrev encryptedOver (encryption : EncryptionProvider (StateM σ)) (headerSuffix : Key)
    (inner : BlobStore (StateM σ)) : EncryptedBlobStore (StateM σ) :=
  { inner, encryption, headerSuffix }

variable {encryption : EncryptionProvider (StateM σ)} {headerSuffix : Key}
  {inner faulty : BlobStore (StateM σ)} {s : σ} {reads : Reads} {faults : ReadFaults}

theorem decryptStream_surfaces (hinner : Answers inner s reads)
    (hfaulty : Answers faulty s (reads.withFaults faults)) (key : Key) (encData : Reader) :
    Surfaces s ((encryptedOver encryption headerSuffix inner).decryptStream key encData)
      ((encryptedOver encryption headerSuffix faulty).decryptStream key encData) := by
  have hget := (surfaces_instead (hinner.get (key ++ headerSuffix))
    (hfaulty.get (key ++ headerSuffix))).hideNotFound key
  exact hget.bind fun header t _ => .refl _

/-- What a sequence that first answers a request does next, it does in the same state. -/
theorem Surfaces.request_bind {α β : Type} {x x' : Fallible (StateM σ) α}
    {answer : Except BlobStorageError α} {f f' : α → Fallible (StateM σ) β}
    (h : Surfaces s x x') (hanswer : exec x s = (answer, s))
    (hf : ∀ a, Surfaces s (f a) (f' a)) : Surfaces s (x >>= f) (x' >>= f') := by
  refine h.bind fun a t hok => ?_
  rw [hanswer] at hok
  cases hok
  exact hf a

theorem Surfaces.check_bind {β : Type} {key : Key} {x x' : Fallible (StateM σ) β}
    (h : Surfaces s x x') :
    Surfaces s (do (encryptedOver encryption headerSuffix inner).checkNoHeaderCollision key; x)
      (do (encryptedOver encryption headerSuffix faulty).checkNoHeaderCollision key; x') := by
  by_cases hsuffix : headerSuffix <:+ key
  · have hcheck : ∀ store : BlobStore (StateM σ), (encryptedOver encryption headerSuffix
        store).checkNoHeaderCollision key = throw _ := fun store => if_pos hsuffix
    rw [hcheck, hcheck]
    exact .refl _
  · have hcheck : ∀ store : BlobStore (StateM σ), (encryptedOver encryption headerSuffix
        store).checkNoHeaderCollision key = pure () := fun store => if_neg hsuffix
    rw [hcheck, hcheck]
    exact h

theorem get_surfaces (hinner : Answers inner s reads)
    (hfaulty : Answers faulty s (reads.withFaults faults)) (key : Key) :
    Surfaces s ((encryptedOver encryption headerSuffix inner).get key)
      ((encryptedOver encryption headerSuffix faulty).get key) := by
  have hget := (surfaces_instead (hinner.get key) (hfaulty.get key)).hideNotFound key
  have hanswer := exec_hideNotFound key (inner.get key) s
  rw [hinner.get] at hanswer
  exact .check_bind (hget.request_bind hanswer (decryptStream_surfaces hinner hfaulty key))

theorem getWithMetadata_surfaces (hinner : Answers inner s reads)
    (hfaulty : Answers faulty s (reads.withFaults faults)) (key : Key) :
    Surfaces s ((encryptedOver encryption headerSuffix inner).getWithMetadata key)
      ((encryptedOver encryption headerSuffix faulty).getWithMetadata key) := by
  have hget := (surfaces_instead (hinner.getWithMetadata key)
    (hfaulty.getWithMetadata key)).hideNotFound key
  have hanswer := exec_hideNotFound key (inner.getWithMetadata key) s
  rw [hinner.getWithMetadata] at hanswer
  refine .check_bind (hget.request_bind hanswer fun pair => ?_)
  exact (decryptStream_surfaces hinner hfaulty key pair.2).bind fun decrypted t _ => .refl _

theorem existsBlob_surfaces (hinner : Answers inner s reads)
    (hfaulty : Answers faulty s (reads.withFaults faults)) (key : Key) :
    Surfaces s ((encryptedOver encryption headerSuffix inner).existsBlob key)
      ((encryptedOver encryption headerSuffix faulty).existsBlob key) := by
  have hexists := fun key => surfaces_instead (hinner.existsBlob key) (hfaulty.existsBlob key)
  refine .check_bind ((hexists key).request_bind (hinner.existsBlob key) fun dataExists => ?_)
  cases dataExists with
  | false => exact .refl _
  | true => exact hexists (key ++ headerSuffix)

theorem withHeader_surfaces (hinner : Answers inner s reads)
    (hfaulty : Answers faulty s (reads.withFaults faults)) (keys : List Key) :
    Surfaces s ((encryptedOver encryption headerSuffix inner).withHeader keys)
      ((encryptedOver encryption headerSuffix faulty).withHeader keys) := by
  induction keys with
  | nil => exact .refl _
  | cons key rest ih =>
      have hexists := surfaces_instead (hinner.existsBlob (key ++ headerSuffix))
        (hfaulty.existsBlob (key ++ headerSuffix))
      refine hexists.request_bind (hinner.existsBlob _) fun headerExists => ?_
      exact ih.bind fun others t _ => .refl _

theorem list_surfaces (hinner : Answers inner s reads)
    (hfaulty : Answers faulty s (reads.withFaults faults)) (filter : ListFilter) :
    Surfaces s ((encryptedOver encryption headerSuffix inner).list filter)
      ((encryptedOver encryption headerSuffix faulty).list filter) := by
  have hlist := surfaces_instead (hinner.list (suffixFilter [])) (hfaulty.list (suffixFilter []))
  exact hlist.request_bind (hinner.list _) fun keys => withHeader_surfaces hinner hfaulty _

/-- A visitor that looks at nothing but what it is given. -/
def pureVisitor (call : Key → Option BlobMeta → S → Except BlobStorageError Bool × S) :
    BlobVisitor (StateM σ) S where
  visit key info := ExceptT.mk fun l => pure (call key info l)

/-- What the layer does with an entry of a walk that is no header. -/
theorem visitor_visit (store : BlobStore (StateM σ)) (filter : ListFilter)
    (call : Key → Option BlobMeta → S → Except BlobStorageError Bool × S) {key : Key}
    (hsuffix : ¬headerSuffix <:+ key) (info : Option BlobMeta) :
    ((encryptedOver encryption headerSuffix store).visitor filter (pureVisitor call)).visit key
      info = (do
        let headerExists ← withLocal (store.existsBlob (key ++ headerSuffix))
        if !headerExists then pure true
        else if !filter.matchesBlob key info then pure true
        else (pureVisitor call).visit key info) := if_neg hsuffix

theorem visitor_visit_header (store : BlobStore (StateM σ)) (filter : ListFilter)
    (call : Key → Option BlobMeta → S → Except BlobStorageError Bool × S) {key : Key}
    (hsuffix : headerSuffix <:+ key) (info : Option BlobMeta) :
    ((encryptedOver encryption headerSuffix store).visitor filter (pureVisitor call)).visit key
      info = pure true := if_pos hsuffix

theorem visitor_quietAt (hinner : Answers inner s reads) (filter : ListFilter)
    (call : Key → Option BlobMeta → S → Except BlobStorageError Bool × S) :
    ((encryptedOver encryption headerSuffix inner).visitor filter (pureVisitor call)).QuietAt s := by
  intro key info l
  by_cases hsuffix : headerSuffix <:+ key
  · rw [visitor_visit_header inner filter call hsuffix info]
    rfl
  · rw [visitor_visit inner filter call hsuffix info, execLocal_bind, execLocal_withLocal,
      hinner.existsBlob]
    cases reads.existsBlob (key ++ headerSuffix) with
    | error e => rfl
    | ok headerExists =>
        cases headerExists with
        | false => rfl
        | true =>
            cases hmatch : filter.matchesBlob key info with
            | false => simp
            | true =>
                simp
                rfl

theorem visitor_surfaces (hinner : Answers inner s reads)
    (hfaulty : Answers faulty s (reads.withFaults faults)) (filter : ListFilter)
    (call : Key → Option BlobMeta → S → Except BlobStorageError Bool × S) (key : Key)
    (info : Option BlobMeta) (l : S) :
    SurfacesLocal l s
      (((encryptedOver encryption headerSuffix inner).visitor filter (pureVisitor call)).visit key
        info)
      (((encryptedOver encryption headerSuffix faulty).visitor filter (pureVisitor call)).visit key
        info) := by
  by_cases hsuffix : headerSuffix <:+ key
  · rw [visitor_visit_header inner filter call hsuffix info,
      visitor_visit_header faulty filter call hsuffix info]
    exact .refl _
  · have hexists := surfaces_instead (hinner.existsBlob (key ++ headerSuffix))
      (hfaulty.existsBlob (key ++ headerSuffix))
    rw [visitor_visit inner filter call hsuffix info,
      visitor_visit faulty filter call hsuffix info]
    exact (SurfacesLocal.withLocal hexists).bind fun headerExists k t hok => .refl _

/-- A walk that is cut short by a fault, or is not. -/
theorem walkEach_surfaces {visitor visitor' : BlobVisitor (StateM σ) S}
    (hquiet : visitor.QuietAt s)
    (hvisit : ∀ key info l, SurfacesLocal l s (visitor.visit key info) (visitor'.visit key info))
    (failure : Option BlobStorageError) (entries : List (Key × Option BlobMeta)) (l : S) :
    SurfacesLocal l s (walkEach visitor failure entries) (walkEach visitor' failure entries) ∧
      ∀ n (fault : ReadFault), SurfacesLocal l s (walkEach visitor failure entries)
        (walkEach visitor' (some fault.error) (entries.take n)) := by
  induction entries generalizing l with
  | nil =>
      refine ⟨.refl _, fun n fault => .inr ⟨fault.error, fault.notMissing, ?_⟩⟩
      rw [List.take_nil]
      rfl
  | cons entry rest ih =>
      obtain ⟨key, info⟩ := entry
      have hfirst := hvisit key info l
      have hstate := hquiet key info l
      have hstay : ∀ more k t, execLocal (visitor.visit key info) l s = ((.ok more, k), t) →
          t = s := by
        intro more k t hok
        rw [hok] at hstate
        exact hstate
      constructor
      · refine hfirst.bind fun more k t hok => ?_
        obtain rfl := hstay more k t hok
        cases more with
        | false => exact .refl _
        | true => exact (ih k).1
      · intro n fault
        cases n with
        | zero => exact .inr ⟨fault.error, fault.notMissing, rfl⟩
        | succ n =>
            refine hfirst.bind fun more k t hok => ?_
            obtain rfl := hstay more k t hok
            cases more with
            | false => exact .refl _
            | true => exact (ih k).2 n fault

theorem visit_surfaces (hinner : Answers inner s reads)
    (hfaulty : Answers faulty s (reads.withFaults faults)) (filter : ListFilter)
    (call : Key → Option BlobMeta → S → Except BlobStorageError Bool × S) (l : S) :
    SurfacesLocal l s
      ((encryptedOver encryption headerSuffix inner).visit filter (pureVisitor call))
      ((encryptedOver encryption headerSuffix faulty).visit filter (pureVisitor call)) := by
  have hquiet := @visitor_quietAt _ _ encryption headerSuffix _ _ _ hinner filter call
  have hquiet' := @visitor_quietAt _ _ encryption headerSuffix _ _ _ hfaulty filter call
  have hwalk := walkEach_surfaces hquiet (visitor_surfaces hinner hfaulty filter call)
    (reads.walk (suffixFilter [])).2 (reads.walk (suffixFilter [])).1 l
  unfold SurfacesLocal EncryptedBlobStore.visit
  rw [hinner.visit _ _ _ hquiet, hfaulty.visit _ _ _ hquiet']
  unfold Reads.withFaults
  cases faults.walk with
  | none => exact hwalk.1
  | some cut => exact hwalk.2 cut.1 cut.2

/-- The key of a blob that `list_with_metadata` looks at. -/
def Candidate (headerSuffix : Key) (filter : ListFilter) (key : Key) : Prop :=
  ¬headerSuffix <:+ key ∧ filter.matchesBlob key none = true

instance (headerSuffix : Key) (filter : ListFilter) :
    DecidablePred (Candidate headerSuffix filter) := fun _ =>
  inferInstanceAs (Decidable (_ ∧ _))

/-- The record it returns for a key, if it returns one. -/
def metadataEntry (reads : Reads) (headerSuffix : Key) (filter : ListFilter) (key : Key) :
    Option BlobMeta :=
  if Candidate headerSuffix filter key then
    match reads.existsBlob (key ++ headerSuffix), reads.getWithMetadata key with
    | .ok true, .ok (info, _) => some { info with key := key }
    | _, _ => none
  else none

theorem metadataEntry_eq_some_iff {filter : ListFilter} {key : Key} {info : BlobMeta} :
    metadataEntry reads headerSuffix filter key = some info ↔
      Candidate headerSuffix filter key ∧ reads.existsBlob (key ++ headerSuffix) = .ok true ∧
        ∃ found reader, reads.getWithMetadata key = .ok (found, reader) ∧
          info = { found with key := key } := by
  unfold metadataEntry
  constructor
  · intro h
    split at h
    · next hcandidate =>
        split at h
        · next found reader hheader hget =>
            exact ⟨hcandidate, hheader, found, reader, hget, (Option.some.inj h).symm⟩
        · cases h
    · cases h
  · rintro ⟨hcandidate, hheader, found, reader, hget, rfl⟩
    rw [if_pos hcandidate, hheader, hget]

/-- The key at which it fails. -/
def Stops (reads : Reads) (headerSuffix : Key) (filter : ListFilter) (key : Key) : Prop :=
  Candidate headerSuffix filter key ∧ reads.existsBlob (key ++ headerSuffix) = .ok true ∧
    ∃ e, ¬e.IsNotFound ∧ reads.getWithMetadata key = .error e

/-- One iteration of its loop passes over the key, takes the record of it, or ends. -/
theorem exec_collectMetadata_cons (hinner : Answers inner s reads) (filter : ListFilter)
    (key : Key) (rest : List Key) {others : Except BlobStorageError (List BlobMeta)}
    (hothers : exec ((encryptedOver encryption headerSuffix inner).collectMetadata filter rest) s =
      (others, s)) :
    let result :=
      exec ((encryptedOver encryption headerSuffix inner).collectMetadata filter (key :: rest)) s
    (metadataEntry reads headerSuffix filter key = none ∧
        ¬Stops reads headerSuffix filter key ∧ result = (others, s)) ∨
      (∃ info, metadataEntry reads headerSuffix filter key = some info ∧
        ¬Stops reads headerSuffix filter key ∧ result = (others.map (info :: ·), s)) ∨
      Stops reads headerSuffix filter key ∧ ∃ e, ¬e.IsNotFound ∧ result = (.error e, s) := by
  intro result
  by_cases hcandidate : Candidate headerSuffix filter key
  swap
  · refine .inl ⟨if_neg hcandidate, fun h => hcandidate h.1, ?_⟩
    unfold Candidate at hcandidate
    simp only [result, EncryptedBlobStore.collectMetadata]
    split
    · exact hothers
    · simp_all
  have hnot : ¬(!filter.matchesBlob key none) = true := by simp [hcandidate.2]
  have hexists : exec (inner.existsBlob
      ((encryptedOver encryption headerSuffix inner).headerKey key)) s =
        (reads.existsBlob (key ++ headerSuffix), s) := hinner.existsBlob _
  have hget := hinner.getWithMetadata key
  have hresult : exec ((encryptedOver encryption headerSuffix inner).collectMetadata filter
      (key :: rest)) s = result := rfl
  simp only [EncryptedBlobStore.collectMetadata] at hresult
  rw [if_neg hcandidate.1, if_neg hnot] at hresult
  replace hresult := hresult.symm.trans (exec_bind_ok (exec_attempt s _))
  rw [hexists] at hresult
  unfold metadataEntry Stops
  rw [if_pos hcandidate]
  generalize reads.existsBlob (key ++ headerSuffix) = headerAnswer at hresult ⊢
  generalize reads.getWithMetadata key = answer at hget ⊢
  cases headerAnswer with
  | error e => exact .inl ⟨rfl, by simp, hresult.trans hothers⟩
  | ok headerExists =>
      cases headerExists with
      | false => exact .inl ⟨rfl, by simp, hresult.trans hothers⟩
      | true =>
          replace hresult := hresult.trans (exec_bind_ok (exec_attempt s _))
          rw [hget] at hresult
          cases answer with
          | ok pair =>
              refine .inr (.inl ⟨_, rfl, by simp, ?_⟩)
              refine hresult.trans ((exec_bind s _ _).trans ?_)
              rw [hothers]
              cases others <;> rfl
          | error e =>
              by_cases hmissing : e.IsNotFound
              · refine .inl ⟨rfl, by simp [hmissing], hresult.trans ?_⟩
                cases e with
                | notFound _ => exact hothers
                | _ => exact absurd hmissing not_false
              · refine .inr (.inr ⟨⟨hcandidate, rfl, e, hmissing, rfl⟩, e, hmissing, ?_⟩)
                refine hresult.trans ?_
                cases e with
                | notFound _ => exact absurd trivial hmissing
                | _ => rfl

/-- The loop as a whole: it fails at a key, or it returns a record for each key that has
one. -/
theorem exec_collectMetadata (hinner : Answers inner s reads) (filter : ListFilter)
    (keys : List Key) :
    ((∀ key ∈ keys, ¬Stops reads headerSuffix filter key) ∧
      exec ((encryptedOver encryption headerSuffix inner).collectMetadata filter keys) s =
        (.ok (keys.filterMap (metadataEntry reads headerSuffix filter)), s)) ∨
    ((∃ key ∈ keys, Stops reads headerSuffix filter key) ∧
      ∃ e, ¬e.IsNotFound ∧
        exec ((encryptedOver encryption headerSuffix inner).collectMetadata filter keys) s =
          (.error e, s)) := by
  induction keys with
  | nil => exact .inl ⟨by simp, rfl⟩
  | cons key rest ih =>
      rw [List.forall_mem_cons, List.exists_mem_cons_iff]
      obtain ⟨hnone, hrest⟩ | ⟨hsome, e, he, hrest⟩ := ih
      · obtain ⟨hentry, hstops, h⟩ | ⟨info, hentry, hstops, h⟩ | ⟨hstops, e, he, h⟩ :=
          exec_collectMetadata_cons hinner filter key rest hrest
        · exact .inl ⟨⟨hstops, hnone⟩, by rw [List.filterMap_cons_none hentry]; exact h⟩
        · exact .inl ⟨⟨hstops, hnone⟩, by rw [List.filterMap_cons_some hentry]; exact h⟩
        · exact .inr ⟨.inl hstops, e, he, h⟩
      · obtain ⟨hentry, hstops, h⟩ | ⟨info, hentry, hstops, h⟩ | ⟨hstops, e', he', h⟩ :=
          exec_collectMetadata_cons hinner filter key rest hrest
        · exact .inr ⟨.inr hsome, e, he, h⟩
        · exact .inr ⟨.inr hsome, e, he, h⟩
        · exact .inr ⟨.inl hstops, e', he', h⟩

theorem exec_listWithMetadata_failed (hinner : Answers inner s reads) (filter : ListFilter)
    {e : BlobStorageError} (h : reads.list (suffixFilter []) = .error e) :
    exec ((encryptedOver encryption headerSuffix inner).listWithMetadata filter) s =
      (.error e, s) := by
  have hlist := hinner.list (suffixFilter [])
  rw [h] at hlist
  exact exec_bind_error hlist

/-- The listing of the keys that are there stops at a key, or returns all records. -/
theorem exec_listWithMetadata_cases (hinner : Answers inner s reads) (filter : ListFilter)
    {keys : List Key} (h : reads.list (suffixFilter []) = .ok keys) :
    ((∀ key ∈ keys, ¬Stops reads headerSuffix filter key) ∧
        exec ((encryptedOver encryption headerSuffix inner).listWithMetadata filter) s =
          (.ok (sortByKey (keys.filterMap (metadataEntry reads headerSuffix filter))), s)) ∨
      (∃ key ∈ keys, Stops reads headerSuffix filter key) ∧ ∃ e, ¬e.IsNotFound ∧
        exec ((encryptedOver encryption headerSuffix inner).listWithMetadata filter) s =
          (.error e, s) := by
  have hlist := hinner.list (suffixFilter [])
  rw [h] at hlist
  have hresult := @exec_bind_ok _ _ _ _ _ (fun keys => do
    let infos ← (encryptedOver encryption headerSuffix inner).collectMetadata filter keys
    pure (sortByKey infos)) _ _ _ hlist
  obtain ⟨hnone, h⟩ | ⟨hsome, e, he, h⟩ :=
    @exec_collectMetadata _ encryption headerSuffix _ _ _ hinner filter keys
  · exact .inl ⟨hnone, hresult.trans (exec_bind_ok h)⟩
  · exact .inr ⟨hsome, e, he, hresult.trans (exec_bind_error h)⟩

/-- The listing succeeds and reaches its end, and of some blob that it would have listed
the header could not be looked for. -/
structure Masked (reads : Reads) (faults : ReadFaults) (headerSuffix : Key)
    (filter : ListFilter) (keys : List Key) : Prop where
  listed : (reads.withFaults faults).list (suffixFilter []) = .ok keys
  runsThrough : ∀ key ∈ keys, ¬Stops (reads.withFaults faults) headerSuffix filter key
  skipped : ∃ key ∈ keys, Candidate headerSuffix filter key ∧
    faults.existsBlob (key ++ headerSuffix) ≠ none ∧
    reads.existsBlob (key ++ headerSuffix) = .ok true ∧
    ∀ e, reads.getWithMetadata key = .error e → ¬e.IsNotFound

theorem ReadFault.instead_eq_ok {α : Type} {answer : Except BlobStorageError α}
    {fault : Option ReadFault} {a : α} :
    ReadFault.instead answer fault = .ok a ↔ fault = none ∧ answer = .ok a := by
  cases fault <;> simp [ReadFault.instead]

theorem ReadFault.instead_eq_error {α : Type} {answer : Except BlobStorageError α}
    {fault : Option ReadFault} {e : BlobStorageError} :
    ReadFault.instead answer fault = .error e ↔
      (∃ f, fault = some f ∧ f.error = e) ∨ fault = none ∧ answer = .error e := by
  cases fault <;> simp [ReadFault.instead]

/-- With faults, a key has the record that it has without them, or none. -/
theorem metadataEntry_withFaults {filter : ListFilter} {key : Key} {info : BlobMeta}
    (h : metadataEntry (reads.withFaults faults) headerSuffix filter key = some info) :
    metadataEntry reads headerSuffix filter key = some info := by
  obtain ⟨hcandidate, hheader, found, reader, hget, hinfo⟩ := metadataEntry_eq_some_iff.mp h
  exact metadataEntry_eq_some_iff.mpr ⟨hcandidate, (ReadFault.instead_eq_ok.mp hheader).2, found,
    reader, (ReadFault.instead_eq_ok.mp hget).2, hinfo⟩

theorem length_filterMap_le {α β : Type} {f g : α → Option β} {l : List α}
    (hfg : ∀ a b, f a = some b → g a = some b) :
    (l.filterMap f).length ≤ (l.filterMap g).length ∧
      ((∃ a ∈ l, f a = none ∧ g a ≠ none) → (l.filterMap f).length < (l.filterMap g).length) := by
  induction l with
  | nil => simp
  | cons a l ih =>
      obtain ⟨hle, hlt⟩ := ih
      cases hf : f a with
      | some b =>
          rw [List.filterMap_cons_some hf, List.filterMap_cons_some (hfg a b hf)]
          simp only [List.length_cons, List.exists_mem_cons_iff]
          refine ⟨by omega, fun h => ?_⟩
          have := hlt (h.resolve_left (by simp [hf]))
          omega
      | none =>
          rw [List.filterMap_cons_none hf]
          cases hg : g a with
          | none =>
              rw [List.filterMap_cons_none hg, List.exists_mem_cons_iff]
              exact ⟨hle, fun h => hlt (h.resolve_left (by simp [hg]))⟩
          | some b =>
              rw [List.filterMap_cons_some hg, List.length_cons]
              exact ⟨by omega, fun _ => by omega⟩

section Masked

variable {filter : ListFilter} {keys : List Key}

/-- Of a listing that masks a fault, one record is missing. -/
theorem Masked.shorter (h : Masked reads faults headerSuffix filter keys)
    (hstops : ∀ key ∈ keys, ¬Stops reads headerSuffix filter key) :
    (keys.filterMap (metadataEntry (reads.withFaults faults) headerSuffix filter)).length <
      (keys.filterMap (metadataEntry reads headerSuffix filter)).length := by
  obtain ⟨key, hkey, hcandidate, hfault, hheader, hget⟩ := h.skipped
  refine (length_filterMap_le fun _ _ => metadataEntry_withFaults).2 ⟨key, hkey, ?_, ?_⟩
  · refine Option.eq_none_iff_forall_ne_some.mpr fun info hentry => ?_
    exact hfault (ReadFault.instead_eq_ok.mp (metadataEntry_eq_some_iff.mp hentry).2.1).1
  · cases hanswer : reads.getWithMetadata key with
    | ok pair =>
        rw [metadataEntry_eq_some_iff.mpr ⟨hcandidate, hheader, pair.1, pair.2, hanswer, rfl⟩]
        exact Option.some_ne_none _
    | error e =>
        exact absurd ⟨hcandidate, hheader, e, hget e hanswer, hanswer⟩ (hstops key hkey)

theorem Masked.not_surfaces (h : Masked reads faults headerSuffix filter keys)
    (hinner : Answers inner s reads) (hfaulty : Answers faulty s (reads.withFaults faults)) :
    ¬Surfaces s ((encryptedOver encryption headerSuffix inner).listWithMetadata filter)
        ((encryptedOver encryption headerSuffix faulty).listWithMetadata filter) := by
  intro hsurfaces
  obtain ⟨_, hresult'⟩ | ⟨⟨key, hkey, hstops⟩, _⟩ :=
    @exec_listWithMetadata_cases _ encryption headerSuffix _ _ _ hfaulty filter keys h.listed
  swap
  · exact h.runsThrough key hkey hstops
  obtain hsame | ⟨e, _, herror⟩ := hsurfaces
  swap
  · rw [hresult'] at herror
    cases herror
  rw [hresult'] at hsame
  obtain ⟨hstops, hresult⟩ | ⟨_, e, _, hresult⟩ :=
    @exec_listWithMetadata_cases _ encryption headerSuffix _ _ _ hinner filter keys
      (ReadFault.instead_eq_ok.mp h.listed).2
  swap
  · rw [hresult] at hsame
    cases hsame
  rw [hresult] at hsame
  have hsorted := congrArg List.length (Except.ok.inj (Prod.mk.inj hsame).1)
  rw [sortByKey, sortByKey, List.length_insertionSort, List.length_insertionSort] at hsorted
  exact absurd hsorted (h.shorter hstops).ne

variable (hmasked : ¬Masked reads faults headerSuffix filter keys)
  (hkeys : (reads.withFaults faults).list (suffixFilter []) = .ok keys)
  (hstops : ∀ key ∈ keys, ¬Stops (reads.withFaults faults) headerSuffix filter key)

include hmasked hkeys hstops

/-- Where nothing is masked, what is asked of a blob that would be listed is answered. -/
theorem answered_of_not_masked {key : Key} (hkey : key ∈ keys)
    (hcandidate : Candidate headerSuffix filter key)
    (hheader : reads.existsBlob (key ++ headerSuffix) = .ok true)
    (hget : ∀ e, reads.getWithMetadata key = .error e → ¬e.IsNotFound) :
    (reads.withFaults faults).existsBlob (key ++ headerSuffix) = .ok true ∧
      (reads.withFaults faults).getWithMetadata key = reads.getWithMetadata key := by
  have hnone : faults.existsBlob (key ++ headerSuffix) = none := by
    by_contra hfault
    exact hmasked ⟨hkeys, hstops, key, hkey, hcandidate, hfault, hheader, hget⟩
  have hheader' : (reads.withFaults faults).existsBlob (key ++ headerSuffix) = .ok true :=
    ReadFault.instead_eq_ok.mpr ⟨hnone, hheader⟩
  have hunfold : (reads.withFaults faults).getWithMetadata key =
      ReadFault.instead (reads.getWithMetadata key) (faults.getWithMetadata key) := rfl
  refine ⟨hheader', ?_⟩
  cases hfault : faults.getWithMetadata key with
  | none =>
      rw [hunfold, hfault]
      rfl
  | some fault =>
      refine absurd ⟨hcandidate, hheader', fault.error, fault.notMissing, ?_⟩ (hstops key hkey)
      exact ReadFault.instead_eq_error.mpr (.inl ⟨fault, hfault, rfl⟩)

theorem entries_of_not_masked :
    keys.filterMap (metadataEntry (reads.withFaults faults) headerSuffix filter) =
      keys.filterMap (metadataEntry reads headerSuffix filter) := by
  refine List.filterMap_congr fun key hkey => Option.ext fun info => ?_
  refine ⟨metadataEntry_withFaults, fun h => ?_⟩
  obtain ⟨hcandidate, hheader, found, reader, hget, rfl⟩ := metadataEntry_eq_some_iff.mp h
  obtain ⟨hheader', hget'⟩ :=
    answered_of_not_masked hmasked hkeys hstops hkey hcandidate hheader (by simp [hget])
  exact metadataEntry_eq_some_iff.mpr
    ⟨hcandidate, hheader', found, reader, hget'.trans hget, rfl⟩

theorem stops_of_not_masked : ∀ key ∈ keys, ¬Stops reads headerSuffix filter key := by
  rintro key hkey ⟨hcandidate, hheader, e, he, hget⟩
  obtain ⟨hheader', hget'⟩ :=
    answered_of_not_masked hmasked hkeys hstops hkey hcandidate hheader (by simp [hget, he])
  exact hstops key hkey ⟨hcandidate, hheader', e, he, hget'.trans hget⟩

end Masked

/-- A listing shows its faults just when it does not mask one. -/
theorem listWithMetadata_surfaces_iff (hinner : Answers inner s reads)
    (hfaulty : Answers faulty s (reads.withFaults faults)) (filter : ListFilter) :
    Surfaces s ((encryptedOver encryption headerSuffix inner).listWithMetadata filter)
        ((encryptedOver encryption headerSuffix faulty).listWithMetadata filter) ↔
      ∀ keys, ¬Masked reads faults headerSuffix filter keys := by
  constructor
  · intro hsurfaces keys hmasked
    exact hmasked.not_surfaces hinner hfaulty hsurfaces
  · intro hmasked
    cases hkeys : (reads.withFaults faults).list (suffixFilter []) with
    | error e =>
        have hresult :=
          @exec_listWithMetadata_failed _ encryption headerSuffix _ _ _ hfaulty filter e hkeys
        obtain ⟨fault, _, rfl⟩ | ⟨_, hlist⟩ := ReadFault.instead_eq_error.mp hkeys
        · exact .inr ⟨fault.error, fault.notMissing, by rw [hresult]⟩
        · exact .inl (hresult.trans (exec_listWithMetadata_failed hinner filter hlist).symm)
    | ok keys =>
        obtain ⟨hstops, hresult'⟩ | ⟨_, e, he, hresult'⟩ :=
          @exec_listWithMetadata_cases _ encryption headerSuffix _ _ _ hfaulty filter keys hkeys
        swap
        · exact .inr ⟨e, he, by rw [hresult']⟩
        obtain ⟨_, hresult⟩ | ⟨⟨key, hkey, hstop⟩, _⟩ :=
          @exec_listWithMetadata_cases _ encryption headerSuffix _ _ _ hinner filter keys
            (ReadFault.instead_eq_ok.mp hkeys).2
        · left
          rw [hresult', hresult, entries_of_not_masked (hmasked keys) hkeys hstops]
        · exact absurd hstop (stops_of_not_masked (hmasked keys) hkeys hstops key hkey)

/-- A blob both of whose objects are there. -/
structure Reads.Visible (reads : Reads) (headerSuffix key : Key) : Prop where
  notReserved : ¬headerSuffix <:+ key
  data : reads.Has key
  header : reads.Has (key ++ headerSuffix)

theorem checkNoHeaderCollision_of_visible {key : Key} (h : reads.Visible headerSuffix key) :
    (encryptedOver encryption headerSuffix inner).checkNoHeaderCollision key = pure () :=
  if_neg h.notReserved

theorem decryptStream_of_visible (hinner : Answers inner s reads) {key : Key}
    (h : reads.Visible headerSuffix key) (encData : Reader) {e : BlobStorageError}
    (herror : (exec ((encryptedOver encryption headerSuffix inner).decryptStream key encData)
      s).1 = .error e) : ¬e.IsNotFound := by
  obtain ⟨headerData, hheader⟩ := h.header.get
  have hget : exec (EncryptedBlobStore.hideNotFound key (inner.get (key ++ headerSuffix))) s =
      (.ok headerData, s) := by
    rw [exec_hideNotFound, hinner.get, hheader]
    rfl
  unfold EncryptedBlobStore.decryptStream at herror
  change (exec (EncryptedBlobStore.hideNotFound key (inner.get (key ++ headerSuffix)) >>= _)
    s).1 = _ at herror
  rw [exec_bind_ok hget] at herror
  cases hread : headerData.readToEnd with
  | error failure =>
      rw [hread] at herror
      cases herror
      exact not_false
  | ok header =>
      rw [hread] at herror
      cases herror

theorem get_of_visible (hinner : Answers inner s reads) {key : Key}
    (h : reads.Visible headerSuffix key) {e : BlobStorageError}
    (herror : (exec ((encryptedOver encryption headerSuffix inner).get key) s).1 = .error e) :
    ¬e.IsNotFound := by
  obtain ⟨encData, hdata⟩ := h.data.get
  have hget : exec (EncryptedBlobStore.hideNotFound key (inner.get key)) s = (.ok encData, s) := by
    rw [exec_hideNotFound, hinner.get, hdata]
    rfl
  have hrun : exec ((encryptedOver encryption headerSuffix inner).get key) s =
      exec ((encryptedOver encryption headerSuffix inner).decryptStream key encData) s := by
    rw [EncryptedBlobStore.get, checkNoHeaderCollision_of_visible h]
    exact exec_bind_ok hget
  rw [hrun] at herror
  exact decryptStream_of_visible hinner h encData herror

theorem getWithMetadata_of_visible (hinner : Answers inner s reads) {key : Key}
    (h : reads.Visible headerSuffix key) {e : BlobStorageError}
    (herror : (exec ((encryptedOver encryption headerSuffix inner).getWithMetadata key) s).1 =
      .error e) : ¬e.IsNotFound := by
  obtain ⟨⟨info, encData⟩, hdata⟩ := h.data.getWithMetadata
  have hget : exec (EncryptedBlobStore.hideNotFound key (inner.getWithMetadata key)) s =
      (.ok (info, encData), s) := by
    rw [exec_hideNotFound, hinner.getWithMetadata, hdata]
    rfl
  have hrun : exec ((encryptedOver encryption headerSuffix inner).getWithMetadata key) s =
      exec (do
        let decrypted ← (encryptedOver encryption headerSuffix inner).decryptStream key encData
        pure ({ info with key := key }, decrypted)) s := by
    rw [EncryptedBlobStore.getWithMetadata, checkNoHeaderCollision_of_visible h]
    exact exec_bind_ok hget
  rw [hrun, exec_bind] at herror
  cases hdecrypt : exec ((encryptedOver encryption headerSuffix inner).decryptStream key encData)
      s with
  | mk r t =>
      rw [hdecrypt] at herror
      cases r with
      | ok reader => cases herror
      | error failure =>
          cases herror
          exact decryptStream_of_visible hinner h encData (by rw [hdecrypt])

theorem existsBlob_of_visible (hinner : Answers inner s reads) {key : Key}
    (h : reads.Visible headerSuffix key) :
    exec ((encryptedOver encryption headerSuffix inner).existsBlob key) s = (.ok true, s) := by
  have hdata : exec (inner.existsBlob key) s = (.ok true, s) := by
    rw [hinner.existsBlob, h.data.existsBlob]
  rw [EncryptedBlobStore.existsBlob, checkNoHeaderCollision_of_visible h]
  refine (exec_bind_ok hdata).trans ?_
  have hheader := hinner.existsBlob (key ++ headerSuffix)
  rwa [h.header.existsBlob] at hheader

theorem withHeader_of_visible (hinner : Answers inner s reads) {keys shown : List Key}
    (hshown : (exec ((encryptedOver encryption headerSuffix inner).withHeader keys) s).1 =
      .ok shown) {key : Key} (hkey : key ∈ keys) (h : reads.Visible headerSuffix key) :
    key ∈ shown := by
  induction keys generalizing shown with
  | nil => cases hkey
  | cons first rest ih =>
      have hrun : exec ((encryptedOver encryption headerSuffix inner).withHeader (first :: rest)) s =
          exec (do
            let headerExists ← inner.existsBlob (first ++ headerSuffix)
            let others ← (encryptedOver encryption headerSuffix inner).withHeader rest
            pure (if headerExists then first :: others else others)) s := rfl
      rw [hrun, exec_bind, hinner.existsBlob] at hshown
      cases hheader : reads.existsBlob (first ++ headerSuffix) with
      | error e =>
          rw [hheader] at hshown
          cases hshown
      | ok headerExists =>
          rw [hheader] at hshown
          replace hshown : (exec (do
            let others ← (encryptedOver encryption headerSuffix inner).withHeader rest
            pure (if headerExists then first :: others else others)) s).1 = .ok shown := hshown
          rw [exec_bind] at hshown
          cases hrest : exec ((encryptedOver encryption headerSuffix inner).withHeader rest) s with
          | mk r t =>
              rw [hrest] at hshown
              cases r with
              | error e => cases hshown
              | ok others =>
                  cases hshown
                  obtain rfl | hkey := List.mem_cons.mp hkey
                  · obtain rfl : true = headerExists :=
                      Except.ok.inj (h.header.existsBlob.symm.trans hheader)
                    exact List.mem_cons_self
                  · have hothers := ih (by rw [hrest]) hkey
                    cases headerExists with
                    | false => exact hothers
                    | true => exact List.mem_cons_of_mem _ hothers

end Operations

/-- The reading operations. A visit is given a visitor that looks at nothing but what it
is handed. -/
inductive ReadOp (S : Type) where
  | get (key : Key)
  | getWithMetadata (key : Key)
  | existsBlob (key : Key)
  | list (filter : ListFilter)
  | listWithMetadata (filter : ListFilter)
  | visit (filter : ListFilter)
      (call : Key → Option BlobMeta → S → Except BlobStorageError Bool × S) (start : S)

namespace ReadOp

variable (encryption : EncryptionProvider (StateM σ)) (headerSuffix : Key)
  (inner faulty : BlobStore (StateM σ)) (s : σ) (reads : Reads) (faults : ReadFaults)

/-- The operation returns what it returns without the faults, or an error that does not
say that something is missing. -/
def ShowsFaults : ReadOp S → Prop
  | .get key => Surfaces s ((encryptedOver encryption headerSuffix inner).get key)
      ((encryptedOver encryption headerSuffix faulty).get key)
  | .getWithMetadata key =>
      Surfaces s ((encryptedOver encryption headerSuffix inner).getWithMetadata key)
        ((encryptedOver encryption headerSuffix faulty).getWithMetadata key)
  | .existsBlob key => Surfaces s ((encryptedOver encryption headerSuffix inner).existsBlob key)
      ((encryptedOver encryption headerSuffix faulty).existsBlob key)
  | .list filter => Surfaces s ((encryptedOver encryption headerSuffix inner).list filter)
      ((encryptedOver encryption headerSuffix faulty).list filter)
  | .listWithMetadata filter =>
      Surfaces s ((encryptedOver encryption headerSuffix inner).listWithMetadata filter)
        ((encryptedOver encryption headerSuffix faulty).listWithMetadata filter)
  | .visit filter call start => SurfacesLocal start s
      ((encryptedOver encryption headerSuffix inner).visit filter (pureVisitor call))
      ((encryptedOver encryption headerSuffix faulty).visit filter (pureVisitor call))

/-- It does not say of a blob that is there that it is not, and leaves none out of what
it returns. What a visit hands to its visitor is a matter of `ShowsFaults` alone. -/
def HidesNothing : ReadOp S → Prop
  | .get key => reads.Visible headerSuffix key → ∀ e,
      (exec ((encryptedOver encryption headerSuffix faulty).get key) s).1 = .error e →
        ¬e.IsNotFound
  | .getWithMetadata key => reads.Visible headerSuffix key → ∀ e,
      (exec ((encryptedOver encryption headerSuffix faulty).getWithMetadata key) s).1 = .error e →
        ¬e.IsNotFound
  | .existsBlob key => reads.Visible headerSuffix key →
      (exec ((encryptedOver encryption headerSuffix faulty).existsBlob key) s).1 ≠ .ok false ∧
        ∀ e, (exec ((encryptedOver encryption headerSuffix faulty).existsBlob key) s).1 =
          .error e → ¬e.IsNotFound
  | .list filter => ∀ keys shown, reads.list (suffixFilter []) = .ok keys →
      (exec ((encryptedOver encryption headerSuffix faulty).list filter) s).1 = .ok shown →
        ∀ key ∈ keys, reads.Visible headerSuffix key → filter.matchesBlob key none = true →
          key ∈ shown
  | .listWithMetadata filter => ∀ keys infos, reads.list (suffixFilter []) = .ok keys →
      (exec ((encryptedOver encryption headerSuffix faulty).listWithMetadata filter) s).1 =
        .ok infos →
        ∀ key ∈ keys, reads.Visible headerSuffix key → filter.matchesBlob key none = true →
          key ∈ infos.map BlobMeta.key
  | .visit _ _ _ => True

/-- It is no listing with metadata that masks a fault. -/
def Unmasked : ReadOp S → Prop
  | .listWithMetadata filter => ∀ keys, ¬Masked reads faults headerSuffix filter keys
  | _ => True

variable {encryption headerSuffix inner faulty s reads faults}

theorem error_found {α : Type} {x x' : Fallible (StateM σ) α} (h : Surfaces s x x')
    (hx : ∀ e, (exec x s).1 = .error e → ¬e.IsNotFound) {e : BlobStorageError}
    (he : (exec x' s).1 = .error e) : ¬e.IsNotFound := by
  obtain hsame | ⟨e', he', herror⟩ := h
  · rw [hsame] at he
    exact hx e he
  · rw [herror] at he
    cases he
    exact he'

theorem ok_same {α : Type} {x x' : Fallible (StateM σ) α} (h : Surfaces s x x') {a : α}
    (ha : (exec x' s).1 = .ok a) : (exec x s).1 = .ok a := by
  obtain hsame | ⟨e, _, herror⟩ := h
  · rwa [hsame] at ha
  · rw [herror] at ha
    cases ha

theorem hidesNothing_of_showsFaults (hinner : Answers inner s reads) {op : ReadOp S}
    (h : op.ShowsFaults encryption headerSuffix inner faulty s) :
    op.HidesNothing encryption headerSuffix faulty s reads := by
  cases op with
  | get key =>
      exact fun hvisible e he => error_found h
        (fun _ => get_of_visible hinner hvisible) he
  | getWithMetadata key =>
      exact fun hvisible e he => error_found h
        (fun _ => getWithMetadata_of_visible hinner hvisible) he
  | existsBlob key =>
      intro hvisible
      have hexec := @existsBlob_of_visible _ encryption _ _ _ _ hinner _ hvisible
      refine ⟨fun hfalse => ?_, fun e he => error_found h (fun _ he' => ?_) he⟩
      · have hsame := ok_same h hfalse
        rw [hexec] at hsame
        cases hsame
      · rw [hexec] at he'
        cases he'
  | list filter =>
      intro keys shown hkeys hshown key hkey hvisible hmatch
      have hsame := ok_same h hshown
      have hlist := hinner.list (suffixFilter [])
      rw [hkeys] at hlist
      have hrun : exec ((encryptedOver encryption headerSuffix inner).list filter) s =
          exec ((encryptedOver encryption headerSuffix inner).withHeader
            ((keys.filter fun key => decide ¬headerSuffix <:+ key).filter
              fun key => filter.matchesBlob key none)) s := exec_bind_ok hlist
      rw [hrun] at hsame
      refine withHeader_of_visible hinner hsame ?_ hvisible
      simp [hkey, hvisible.notReserved, hmatch]
  | listWithMetadata filter =>
      intro keys infos hkeys hinfos key hkey hvisible hmatch
      have hsame := ok_same h hinfos
      obtain ⟨_, hresult⟩ | ⟨_, e, _, hresult⟩ :=
        @exec_listWithMetadata_cases _ encryption headerSuffix _ _ _ hinner filter keys hkeys
      · rw [hresult] at hsame
        cases hsame
        obtain ⟨⟨info, reader⟩, hget⟩ := hvisible.data.getWithMetadata
        have hentry : metadataEntry reads headerSuffix filter key = some { info with key := key } :=
          metadataEntry_eq_some_iff.mpr ⟨⟨hvisible.notReserved, hmatch⟩,
            hvisible.header.existsBlob, info, reader, hget, rfl⟩
        refine List.mem_map.mpr ⟨{ info with key := key }, ?_, rfl⟩
        rw [sortByKey, List.mem_insertionSort, List.mem_filterMap]
        exact ⟨key, hkey, hentry⟩
      · rw [hresult] at hsame
        cases hsame
  | visit filter call start => trivial

theorem showsFaults_iff (hinner : Answers inner s reads)
    (hfaulty : Answers faulty s (reads.withFaults faults)) (op : ReadOp S) :
    op.ShowsFaults encryption headerSuffix inner faulty s ↔
      op.Unmasked headerSuffix reads faults := by
  cases op with
  | get key => exact iff_true_intro (get_surfaces hinner hfaulty key)
  | getWithMetadata key => exact iff_true_intro (getWithMetadata_surfaces hinner hfaulty key)
  | existsBlob key => exact iff_true_intro (existsBlob_surfaces hinner hfaulty key)
  | list filter => exact iff_true_intro (list_surfaces hinner hfaulty filter)
  | listWithMetadata filter => exact listWithMetadata_surfaces_iff hinner hfaulty filter
  | visit filter call start =>
      exact iff_true_intro (visit_surfaces hinner hfaulty filter call start)

end ReadOp

/-- For every inner store and every choice of requests that fail, a reading operation of
the encrypted layer shows the faults it meets and hides no blob if and only if it is no
`list_with_metadata` that masks one. -/
theorem readFaults_shown_iff {encryption : EncryptionProvider (StateM σ)} {headerSuffix : Key}
    {inner faulty : BlobStore (StateM σ)} {s : σ} {reads : Reads} {faults : ReadFaults}
    (hinner : Answers inner s reads) (hfaulty : Answers faulty s (reads.withFaults faults))
    (op : ReadOp S) :
    (op.ShowsFaults encryption headerSuffix inner faulty s ∧
        op.HidesNothing encryption headerSuffix faulty s reads) ↔
      op.Unmasked headerSuffix reads faults := by
  constructor
  · intro h
    exact (ReadOp.showsFaults_iff hinner hfaulty op).mp h.1
  · intro h
    have hshows : op.ShowsFaults encryption headerSuffix inner faulty s :=
      (ReadOp.showsFaults_iff hinner hfaulty op).mpr h
    exact ⟨hshows, ReadOp.hidesNothing_of_showsFaults hinner hshows⟩

section Stores

/-- What the map store answers in a state. -/
def MapBlobStore.reads (self : MapBlobStore) (s : MapState) : Reads where
  get key := (exec (MapBlobStore.get key) s).1
  existsBlob key := (exec (MapBlobStore.existsBlob key) s).1
  getWithMetadata key := (exec (MapBlobStore.getWithMetadata key) s).1
  list filter := (exec (self.list filter) s).1
  walk filter := ((self.infos s filter).map fun info => (info.key, some info), none)

theorem walkEach_none {m : Type → Type} [Monad m] (visitor : BlobVisitor m S)
    (entries : List (Key × Option BlobMeta)) :
    walkEach visitor none entries = visitEach visitor entries := by
  induction entries with
  | nil => rfl
  | cons entry rest ih =>
      rw [walkEach, visitEach, ih]

theorem MapBlobStore.answers (self : MapBlobStore) (s : MapState) :
    Answers self.toBlobStore s (self.reads s) := by
  have hinfo : ∀ key, (exec (MapBlobStore.getWithMetadata key) s).2 = s := by
    intro key
    by_cases hvalid : ValidKey key
    · rw [MapBlobStore.getWithMetadata, exec_bind_ok (exec_checkKey_of_valid s hvalid),
        exec_bind_ok (exec_getState s)]
      cases s.find key <;> rfl
    · obtain ⟨e, _, he⟩ := exec_checkKey_of_not_valid s hvalid
      rw [MapBlobStore.getWithMetadata, exec_bind_error he]
  have hget : ∀ key, (exec (MapBlobStore.get key) s).2 = s := by
    intro key
    have hstate := hinfo key
    rw [MapBlobStore.get, exec_bind]
    cases hrun : exec (MapBlobStore.getWithMetadata key) s with
    | mk r t =>
        rw [hrun] at hstate
        cases r <;> exact hstate
  have hexists : ∀ key, (exec (MapBlobStore.existsBlob key) s).2 = s := by
    intro key
    by_cases hvalid : ValidKey key
    · rw [MapBlobStore.existsBlob, exec_bind_ok (exec_checkKey_of_valid s hvalid)]
      rfl
    · obtain ⟨e, _, he⟩ := exec_checkKey_of_not_valid s hvalid
      rw [MapBlobStore.existsBlob, exec_bind_error he]
  refine ⟨fun key => Prod.ext rfl (hget key), fun key => Prod.ext rfl (hexists key),
    fun key => Prod.ext rfl (hinfo key), fun filter => rfl, ?_⟩
  intro S filter visitor l _
  rw [show (self.reads s).walk filter =
    ((self.infos s filter).map fun info => (info.key, some info), none) from rfl, walkEach_none]
  rfl

/-- A store that answers so in every state. -/
def readStore (reads : Reads) : BlobStore (StateM σ) where
  put _ := throw (.notSupported "read-only")
  get key := ExceptT.mk (pure (reads.get key))
  delete _ := throw (.notSupported "read-only")
  list filter := ExceptT.mk (pure (reads.list filter))
  existsBlob key := ExceptT.mk (pure (reads.existsBlob key))
  getWithMetadata key := ExceptT.mk (pure (reads.getWithMetadata key))
  visit filter visitor := walkEach visitor (reads.walk filter).2 (reads.walk filter).1
  listWithMetadata _ := throw (.notSupported "read-only")

theorem readStore_answers (reads : Reads) (s : σ) : Answers (readStore reads) s reads :=
  ⟨fun _ => rfl, fun _ => rfl, fun _ => rfl, fun _ => rfl, fun _ _ _ _ => rfl⟩

/-- The blob `k` with its header. -/
def pairState : MapState :=
  ((MapState.empty.write ['k'] [6]).write ['k', 'h'] (RekeyableShiftEncryption.wrapDek 0 5))

def pairReads : Reads := MapBlobStore.reads ⟨false⟩ pairState

/-- Asking whether the header is there fails, and nothing else does. -/
def headerUnreachable : ReadFaults where
  get _ := none
  existsBlob key :=
    if key = ['k', 'h'] then some ⟨.storage "connection reset" none, not_false⟩ else none
  getWithMetadata _ := none
  list := none
  walk := none

def shiftProvider : EncryptionProvider (StateM MapState) :=
  RekeyableShiftEncryption.toProvider ⟨5, 0⟩

theorem pairState_listed :
    (exec ((encryptedOver shiftProvider ['h'] (MapBlobStore.toBlobStore ⟨false⟩)).listWithMetadata
      (suffixFilter [])) pairState).1 =
        .ok [{ key := ['k'], storedSize := 1, modifiedAt := 0, etag := none }] := by
  decide

theorem pairState_masked :
    (exec ((encryptedOver shiftProvider ['h']
      (readStore (pairReads.withFaults headerUnreachable))).listWithMetadata (suffixFilter []))
        pairState).1 = .ok [] := by
  decide

/-- A listing with metadata returns `Ok` with nothing in it, although the blob is there
and the listing without the fault has it. -/
theorem listWithMetadata_hides_blob :
    Answers (MapBlobStore.toBlobStore ⟨false⟩) pairState pairReads ∧
    Answers (readStore (pairReads.withFaults headerUnreachable)) pairState
      (pairReads.withFaults headerUnreachable) ∧
    pairReads.Visible ['h'] ['k'] ∧
    (exec ((encryptedOver shiftProvider ['h'] (MapBlobStore.toBlobStore ⟨false⟩)).listWithMetadata
      (suffixFilter [])) pairState).1 =
        .ok [{ key := ['k'], storedSize := 1, modifiedAt := 0, etag := none }] ∧
    (exec ((encryptedOver shiftProvider ['h']
      (readStore (pairReads.withFaults headerUnreachable))).listWithMetadata (suffixFilter []))
        pairState).1 = .ok [] ∧
    ¬(ReadOp.listWithMetadata (suffixFilter []) : ReadOp Unit).ShowsFaults shiftProvider ['h']
      (MapBlobStore.toBlobStore ⟨false⟩) (readStore (pairReads.withFaults headerUnreachable))
      pairState := by
  refine ⟨MapBlobStore.answers _ _, readStore_answers _ _, ⟨by decide, ?_, ?_⟩, pairState_listed,
    pairState_masked, ?_⟩
  · exact ⟨by decide, ⟨_, rfl⟩, ⟨_, rfl⟩⟩
  · exact ⟨by decide, ⟨_, rfl⟩, ⟨_, rfl⟩⟩
  · intro h
    have hsame := ReadOp.ok_same h pairState_masked
    rw [pairState_listed] at hsame
    cases hsame

/-- The plain listing meets the same fault with an error. -/
theorem readFaults_shown_iff_list :
    (ReadOp.list (suffixFilter []) : ReadOp Unit).ShowsFaults shiftProvider ['h']
        (MapBlobStore.toBlobStore ⟨false⟩) (readStore (pairReads.withFaults headerUnreachable))
        pairState ∧
      (ReadOp.list (suffixFilter []) : ReadOp Unit).HidesNothing shiftProvider ['h']
        (readStore (pairReads.withFaults headerUnreachable)) pairState pairReads :=
  (readFaults_shown_iff (MapBlobStore.answers ⟨false⟩ pairState)
    (readStore_answers _ pairState) _).mpr trivial

end Stores

end BlobStorage
