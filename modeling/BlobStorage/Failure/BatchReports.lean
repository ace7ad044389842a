import BlobStorage.Backend.Fs.Presence
import BlobStorage.Backend.S3
import BlobStorage.Failure.ReadFaults
import BlobStorage.Refinement.Stack
import Mathlib.Data.List.Count
import Mathlib.Data.List.Perm.Basic

/-!
# Reports of failed deletions

A backend that cannot delete every object of a batch reports each object once, as deleted
or as failed. Every layer of a stack rewrites that report: a prefix layer strips its keys, an
encrypted layer drops the header objects from it. What arrives at the top accounts for the
caller's keys, and blames exactly those whose data object failed.
-/

namespace BlobStorage

open Fallible

variable {σ : Type}

/-- The keys that a deletion reports as failed. -/
def failedKeys : Except BlobStorageError Unit → List Key
  | .error (.batch error) => error.errors.map KeyError.key
  | _ => []

/-- The result of deleting `keys` accounts for each of them once: they are all gone, or at
least one failed and the report sorts them. -/
inductive Accounts (keys : List Key) : Except BlobStorageError Unit → Prop where
  | deleted : Accounts keys (.ok ())
  | sorted {error : BatchError} (blames : error.errors ≠ [])
      (partitions : (error.succeeded ++ error.errors.map KeyError.key).Perm keys) :
      Accounts keys (.error (.batch error))

/-- The deletion was refused, and nothing was deleted. -/
def Refused (s : σ) (deletion : Except BlobStorageError Unit × σ) : Prop :=
  ∃ e : BlobStorageError, e.IsInvalidInput ∧ deletion = (.error e, s)

/-- A deletion from `s` is refused, or accounts for its keys. -/
def ReportsDeletes (store : BlobStore (StateM σ)) (s : σ) : Prop :=
  ∀ keys, Refused s (exec (store.delete keys) s) ∨ Accounts keys (exec (store.delete keys) s).1

/-- Deleting `keys` above was deleting `objects` below, and the report of the former is the
part of the report of the latter that is about the data objects of `keys`. -/
structure Relates (dataKey : Key → Key) (keys objects : List Key)
    (top bottom : Except BlobStorageError Unit × σ) : Prop where
  state : top.2 = bottom.2
  below : Accounts objects bottom.1
  above : Accounts keys top.1
  failed : ((failedKeys top.1).map dataKey).Perm
    ((failedKeys bottom.1).filter fun key => decide (key ∈ keys.map dataKey))

section Accounting

variable {keys : List Key} {result : Except BlobStorageError Unit}

theorem Accounts.failed_mem (h : Accounts keys result) {key : Key}
    (hkey : key ∈ failedKeys result) : key ∈ keys := by
  cases h with
  | deleted => cases hkey
  | sorted _ partitions => exact partitions.mem_iff.mp (List.mem_append_right _ hkey)

theorem Accounts.ok_iff (h : Accounts keys result) : result = .ok () ↔ failedKeys result = [] := by
  cases h with
  | deleted => exact iff_of_true rfl rfl
  | sorted blames _ =>
      refine iff_of_false (by simp) ?_
      rw [failedKeys, List.map_eq_nil_iff]
      exact blames

theorem Accounts.not_invalid (h : Accounts keys result) {e : BlobStorageError}
    (he : result = .error e) : ¬e.IsInvalidInput := by
  cases h with
  | deleted => cases he
  | sorted _ _ =>
      cases he
      exact not_false

/-- A layer without keys of its own passes the report on as it is. -/
theorem Relates.refl {deletion : Except BlobStorageError Unit × σ}
    (h : Accounts keys deletion.1) : Relates (fun key => key) keys keys deletion deletion where
  state := rfl
  below := h
  above := h
  failed := by
    rw [List.map_id', List.map_id', List.filter_eq_self.mpr]
    intro key hkey
    exact decide_eq_true (h.failed_mem hkey)

variable {middle objects : List Key} {upper lower : Key → Key}
  {above between below : Except BlobStorageError Unit × σ}

/-- The reports of two layers, one above the other. -/
theorem Relates.trans (hupper : Relates upper keys middle above between)
    (hlower : Relates lower middle objects between below) (hinj : Function.Injective lower)
    (hmem : ∀ key ∈ keys, upper key ∈ middle) :
    Relates (fun key => lower (upper key)) keys objects above below where
  state := hupper.state.trans hlower.state
  below := hlower.below
  above := hupper.above
  failed := by
    have hkeys : keys.map (fun key => lower (upper key)) = (keys.map upper).map lower := by
      rw [List.map_map]
      rfl
    have hboth : (failedKeys above.1).map (fun key => lower (upper key)) =
        ((failedKeys above.1).map upper).map lower := by
      rw [List.map_map]
      rfl
    rw [hkeys, hboth]
    have hselect : ((failedKeys between.1).filter fun key => decide (key ∈ keys.map upper)).map
        lower = ((failedKeys between.1).map lower).filter
          fun key => decide (key ∈ (keys.map upper).map lower) := by
      rw [List.filter_map]
      congr 1
      refine List.filter_congr fun key _ => ?_
      simp only [Function.comp_apply, List.mem_map_of_injective hinj]
    have hwithin : ((failedKeys below.1).filter fun key => decide (key ∈ middle.map lower)).filter
        (fun key => decide (key ∈ (keys.map upper).map lower)) =
        (failedKeys below.1).filter fun key => decide (key ∈ (keys.map upper).map lower) := by
      rw [List.filter_filter]
      refine List.filter_congr fun key _ => ?_
      rw [Bool.and_eq_left_iff_imp]
      intro hkey
      obtain ⟨physical, hphysical, rfl⟩ := List.mem_map.mp (of_decide_eq_true hkey)
      obtain ⟨logical, hlogical, rfl⟩ := List.mem_map.mp hphysical
      exact decide_eq_true (List.mem_map_of_mem (hmem logical hlogical))
    have hdown := (hupper.failed.map lower).trans (List.Perm.of_eq hselect)
    exact (hdown.trans (hlower.failed.filter _)).trans (List.Perm.of_eq hwithin)

end Accounting

section PrefixReports

variable {keyPrefix : Key} {keys : List Key}

theorem filterMap_strip {physical : List Key} (h : ∀ key ∈ physical, keyPrefix <+: key) :
    (physical.filterMap (stripKeyPrefix keyPrefix)).map (keyPrefix ++ ·) = physical := by
  induction physical with
  | nil => rfl
  | cons first rest ih =>
      rw [List.forall_mem_cons] at h
      obtain ⟨⟨logical, rfl⟩, hrest⟩ := h
      rw [List.filterMap_cons, stripKeyPrefix_append, List.map_cons, ih hrest]

theorem map_strip {physical : List Key} (h : ∀ key ∈ physical, keyPrefix <+: key) :
    (physical.map fun key => (stripKeyPrefix keyPrefix key).getD key).map (keyPrefix ++ ·) =
      physical := by
  rw [List.map_map]
  refine (List.map_congr_left fun key hkey => ?_).trans (List.map_id physical)
  obtain ⟨logical, rfl⟩ := h key hkey
  simp

/-- A report about prefixed keys, stripped, is the same report about the keys. -/
theorem Accounts.stripped {result : Except BlobStorageError Unit}
    (h : Accounts (keys.map (keyPrefix ++ ·)) result) :
    Accounts keys (result.mapError (PrefixBlobStore.mapBatchError keyPrefix)) ∧
      (failedKeys (result.mapError (PrefixBlobStore.mapBatchError keyPrefix))).map
        (keyPrefix ++ ·) = failedKeys result := by
  cases h with
  | deleted => exact ⟨.deleted, rfl⟩
  | @sorted error blames partitions =>
      have hinitial : ∀ key ∈ error.succeeded ++ error.errors.map KeyError.key,
          keyPrefix <+: key := by
        intro key hkey
        obtain ⟨logical, _, rfl⟩ := List.mem_map.mp (partitions.mem_iff.mp hkey)
        exact List.prefix_append keyPrefix logical
      rw [List.forall_mem_append] at hinitial
      have hfailed : ((error.errors.map fun failed : KeyError =>
          { failed with key := (stripKeyPrefix keyPrefix failed.key).getD failed.key }).map
          KeyError.key).map (keyPrefix ++ ·) = error.errors.map KeyError.key := by
        rw [← map_strip hinitial.2, List.map_map, List.map_map, List.map_map, List.map_map]
        refine List.map_congr_left fun failed hfailed => ?_
        obtain ⟨logical, hlogical⟩ := hinitial.2 failed.key (List.mem_map_of_mem hfailed)
        simp [← hlogical]
      refine ⟨.sorted ?_ ?_, hfailed⟩
      · rw [Ne, List.map_eq_nil_iff]
        exact blames
      · rw [← List.map_perm_map_iff (List.append_right_injective keyPrefix), List.map_append,
          filterMap_strip hinitial.1, hfailed]
        exact partitions

/-- A batch is prefixed as a whole, or refused at its first key that is not valid. -/
theorem exec_prefixedAll_cases (store : PrefixBlobStore (StateM σ)) (keys : List Key) (s : σ) :
    exec (store.prefixedAll keys) s = (.ok (keys.map (store.keyPrefix ++ ·)), s) ∨
      ∃ e, e.IsInvalidInput ∧ exec (store.prefixedAll keys) s = (.error e, s) := by
  induction keys with
  | nil => exact .inl rfl
  | cons key rest ih =>
      rw [PrefixBlobStore.prefixedAll]
      by_cases hkey : ValidKey key ∧ ValidKey (store.keyPrefix ++ key)
      · have hfirst := PrefixBlobStore.exec_prefixed hkey.1 hkey.2 s
        obtain hrest | ⟨e, he, hrest⟩ := ih
        · left
          rw [exec_bind_ok hfirst, exec_bind_ok hrest]
          rfl
        · exact .inr ⟨e, he, by rw [exec_bind_ok hfirst, exec_bind_error hrest]⟩
      · right
        obtain ⟨e, he, hfirst⟩ : ∃ e, e.IsInvalidInput ∧
            exec (store.prefixed key) s = (.error e, s) := by
          unfold PrefixBlobStore.prefixed
          by_cases hlogical : ValidKey key
          · obtain ⟨e, he, hphysical⟩ :=
              exec_checkKey_of_not_valid s fun h => hkey ⟨hlogical, h⟩
            refine ⟨e, he, ?_⟩
            rw [exec_bind_ok (exec_checkKey_of_valid s hlogical), exec_bind_error hphysical]
          · obtain ⟨e, he, hcheck⟩ := exec_checkKey_of_not_valid s hlogical
            exact ⟨e, he, exec_bind_error hcheck⟩
        exact ⟨e, he, exec_bind_error hfirst⟩

theorem PrefixBlobStore.delete_relates (store : PrefixBlobStore (StateM σ)) {s : σ}
    (hinner : ReportsDeletes store.inner s) (keys : List Key) :
    Refused s (exec (store.delete keys) s) ∨
      Relates (store.keyPrefix ++ ·) keys (keys.map (store.keyPrefix ++ ·))
        (exec (store.delete keys) s)
        (exec (store.inner.delete (keys.map (store.keyPrefix ++ ·))) s) := by
  obtain hprefixed | ⟨e, he, hrefused⟩ := exec_prefixedAll_cases store keys s
  · have hdelete : exec (store.delete keys) s =
        ((exec (store.inner.delete (keys.map (store.keyPrefix ++ ·))) s).1.mapError
          (mapBatchError store.keyPrefix),
        (exec (store.inner.delete (keys.map (store.keyPrefix ++ ·))) s).2) := by
      rw [PrefixBlobStore.delete, exec_bind_ok hprefixed, exec_mapErr]
    rw [hdelete]
    obtain ⟨e, he, hinvalid⟩ | haccounts := hinner (keys.map (store.keyPrefix ++ ·))
    · refine .inl ⟨e, he, ?_⟩
      rw [hinvalid]
      cases e <;> first | rfl | exact absurd he not_false
    · obtain ⟨habove, hfailed⟩ := haccounts.stripped
      refine .inr ⟨rfl, haccounts, habove, ?_⟩
      rw [hfailed, List.filter_eq_self.mpr]
      intro key hkey
      exact decide_eq_true (haccounts.failed_mem hkey)
  · exact .inl ⟨e, he, exec_bind_error hrefused⟩

end PrefixReports

section EncryptedReports

variable {headerSuffix : Key} {keys : List Key}

/-- Of the objects of a batch, those under the caller's own keys are the data objects. -/
theorem filter_own_keys (h : ∀ key ∈ keys, ¬headerSuffix <:+ key) :
    (keys.flatMap fun key => [key, key ++ headerSuffix]).filter
      (fun key => decide (key ∈ keys)) = keys := by
  have hall : ∀ batch : List Key, (∀ key ∈ batch, key ∈ keys) →
      (batch.flatMap fun key => [key, key ++ headerSuffix]).filter
        (fun key => decide (key ∈ keys)) = batch := by
    intro batch
    induction batch with
    | nil => intro _; rfl
    | cons key rest ih =>
        intro hbatch
        rw [List.forall_mem_cons] at hbatch
        have hheader : key ++ headerSuffix ∉ keys :=
          fun hmem => h _ hmem (List.suffix_append key headerSuffix)
        rw [List.flatMap_cons, List.filter_append, ih hbatch.2, List.filter_cons,
          if_pos (decide_eq_true hbatch.1), List.filter_cons, if_neg (by simpa using hheader)]
        rfl
  exact hall keys fun _ hkey => hkey

theorem exec_checkDeleteKeys_cases (store : EncryptedBlobStore (StateM σ)) (keys : List Key)
    (s : σ) :
    ((∀ key ∈ keys, ¬store.headerSuffix <:+ key) ∧
      exec (store.checkDeleteKeys keys) s = (.ok (), s)) ∨
    ∃ e, e.IsInvalidInput ∧ exec (store.checkDeleteKeys keys) s = (.error e, s) := by
  by_cases hkeys : ∀ key ∈ keys, ¬store.headerSuffix <:+ key
  · exact .inl ⟨hkeys, EncryptedBlobStore.exec_checkDeleteKeys hkeys s⟩
  right
  induction keys with
  | nil => simp at hkeys
  | cons key rest ih =>
      rw [EncryptedBlobStore.checkDeleteKeys]
      by_cases hkey : store.headerSuffix <:+ key
      · obtain ⟨e, he, hcheck⟩ := EncryptedBlobStore.exec_checkNoHeaderCollision_of_suffix hkey s
        exact ⟨e, he, exec_bind_error hcheck⟩
      · rw [List.forall_mem_cons, not_and] at hkeys
        obtain ⟨e, he, hrest⟩ := ih (hkeys hkey)
        refine ⟨e, he, ?_⟩
        rw [exec_bind_ok (EncryptedBlobStore.exec_checkNoHeaderCollision hkey s)]
        exact hrest

/-- What `delete` makes of the report of the inner store. -/
def ownReport (keys : List Key) : Except BlobStorageError Unit → Except BlobStorageError Unit
  | .error (.batch error) =>
      let errors := error.errors.filter fun failed => decide (failed.key ∈ keys)
      let succeeded := error.succeeded.filter fun key => decide (key ∈ keys)
      if errors = [] then .ok () else .error (.batch { succeeded, errors })
  | result => result

theorem Accounts.own {result : Except BlobStorageError Unit}
    (hkeys : ∀ key ∈ keys, ¬headerSuffix <:+ key)
    (h : Accounts (keys.flatMap fun key => [key, key ++ headerSuffix]) result) :
    Accounts keys (ownReport keys result) ∧
      failedKeys (ownReport keys result) =
        (failedKeys result).filter fun key => decide (key ∈ keys) := by
  cases h with
  | deleted => exact ⟨.deleted, rfl⟩
  | @sorted error blames partitions =>
      have hfilter : (error.errors.map KeyError.key).filter (fun key => decide (key ∈ keys)) =
          (error.errors.filter fun failed => decide (failed.key ∈ keys)).map KeyError.key :=
        List.filter_map ..
      unfold ownReport failedKeys
      dsimp only
      rw [hfilter]
      by_cases hnone : (error.errors.filter fun failed => decide (failed.key ∈ keys)) = []
      · rw [if_pos hnone, hnone]
        exact ⟨.deleted, rfl⟩
      · rw [if_neg hnone]
        refine ⟨.sorted hnone ?_, rfl⟩
        have hown := partitions.filter fun key => decide (key ∈ keys)
        rw [filter_own_keys hkeys, List.filter_append, hfilter] at hown
        exact hown

theorem EncryptedBlobStore.delete_relates (store : EncryptedBlobStore (StateM σ)) {s : σ}
    (hinner : ReportsDeletes store.inner s) (keys : List Key) :
    Refused s (exec (store.delete keys) s) ∨
      Relates (fun key => key) keys (keys.flatMap fun key => [key, store.headerKey key])
        (exec (store.delete keys) s)
        (exec (store.inner.delete (keys.flatMap fun key => [key, store.headerKey key])) s) := by
  obtain ⟨hkeys, hcheck⟩ | ⟨e, he, hrefused⟩ := exec_checkDeleteKeys_cases store keys s
  · have hdelete : exec (store.delete keys) s =
        (ownReport keys (exec (store.inner.delete (keys.flatMap fun key =>
          [key, store.headerKey key])) s).1,
        (exec (store.inner.delete (keys.flatMap fun key => [key, store.headerKey key])) s).2) := by
      rw [EncryptedBlobStore.delete, exec_bind_ok hcheck, exec_bind_ok (exec_attempt s _)]
      unfold ownReport
      split
      · next h => rw [h]; rfl
      · next h =>
          rw [h]
          dsimp only
          split <;> rfl
      · next e hbatch h =>
          rw [h]
          cases e <;> first | rfl | exact absurd rfl (hbatch _)
    rw [hdelete]
    obtain ⟨e, he, hinvalid⟩ | haccounts :=
      hinner (keys.flatMap fun key => [key, store.headerKey key])
    · refine .inl ⟨e, he, ?_⟩
      rw [hinvalid]
      cases e <;> first | rfl | exact absurd he not_false
    · obtain ⟨habove, hfailed⟩ := haccounts.own hkeys
      refine .inr ⟨rfl, haccounts, habove, ?_⟩
      rw [hfailed, List.map_id', List.map_id']
  · exact .inl ⟨e, he, exec_bind_error hrefused⟩

end EncryptedReports

section Missing

/-- Where the computation says that a key is missing, it says so of `key`. -/
def NamesKey {α : Type} (key : Key) (x : Fallible (StateM σ) α) : Prop :=
  ∀ s missing, (exec x s).1 = .error (.notFound missing) → missing = key

/-- A missing key is reported under the name that the caller used. -/
structure NamesMissing (store : BlobStore (StateM σ)) : Prop where
  get : ∀ key, NamesKey key (store.get key)
  getWithMetadata : ∀ key, NamesKey key (store.getWithMetadata key)

variable {α β : Type} {key : Key}

theorem NamesKey.pure (a : α) : NamesKey key (Pure.pure a : Fallible (StateM σ) α) := by
  intro s missing h
  cases h

theorem NamesKey.throw {e : BlobStorageError} (h : ∀ missing, e = .notFound missing → missing = key) :
    NamesKey key (MonadExcept.throw e : Fallible (StateM σ) α) := by
  intro s missing hthrow
  exact h missing (Except.error.inj hthrow)

theorem NamesKey.bind {x : Fallible (StateM σ) α} {f : α → Fallible (StateM σ) β}
    (hx : NamesKey key x) (hf : ∀ a, NamesKey key (f a)) : NamesKey key (x >>= f) := by
  intro s missing h
  rw [exec_bind] at h
  cases hrun : exec x s with
  | mk result t =>
      rw [hrun] at h
      cases result with
      | ok a => exact hf a t missing h
      | error e =>
          cases h
          exact hx s missing (by rw [hrun])

theorem NamesKey.perform (x : StateM σ α) : NamesKey key (perform x) := by
  intro s missing h
  cases h

theorem namesKey_checkKey (checked : Key) :
    NamesKey key (checkKey checked : Fallible (StateM σ) Unit) := by
  intro s missing h
  by_cases hvalid : ValidKey checked
  · rw [exec_checkKey_of_valid s hvalid] at h
    cases h
  · obtain ⟨e, he, hcheck⟩ := exec_checkKey_of_not_valid s hvalid
    rw [hcheck] at h
    cases h
    exact absurd he not_false

theorem namesKey_prefixed (store : PrefixBlobStore (StateM σ)) (logical : Key) :
    NamesKey key (store.prefixed logical) :=
  (namesKey_checkKey logical).bind fun _ => (namesKey_checkKey _).bind fun _ => .pure _

theorem namesKey_mapError {x : Fallible (StateM σ) α} :
    NamesKey key (PrefixBlobStore.mapErr (PrefixBlobStore.mapError key) x) := by
  intro s missing h
  rw [exec_mapErr] at h
  cases hrun : (exec x s).1 with
  | ok a =>
      rw [hrun] at h
      cases h
  | error e =>
      rw [hrun] at h
      cases e <;> cases h
      rfl

theorem namesKey_hideNotFound {x : Fallible (StateM σ) α} :
    NamesKey key (EncryptedBlobStore.hideNotFound key x) := by
  intro s missing h
  refine @namesKey_mapError σ α key x s missing ?_
  rw [exec_hideNotFound] at h
  rw [exec_mapErr]
  exact h

theorem namesKey_checkNoHeaderCollision (store : EncryptedBlobStore (StateM σ)) (checked : Key) :
    NamesKey key (store.checkNoHeaderCollision checked) := by
  unfold EncryptedBlobStore.checkNoHeaderCollision
  split
  · exact .throw fun _ h => by cases h
  · exact .pure ()

theorem namesKey_decryptStream (store : EncryptedBlobStore (StateM σ)) (encData : Reader) :
    NamesKey key (store.decryptStream key encData) := by
  refine namesKey_hideNotFound.bind fun headerData => ?_
  cases headerData.readToEnd with
  | error e => exact .throw fun _ h => by cases h
  | ok header => exact (NamesKey.perform _).bind fun run => .pure _

theorem PrefixBlobStore.namesMissing (store : PrefixBlobStore (StateM σ)) :
    NamesMissing store.toBlobStore where
  get key := (namesKey_prefixed store key).bind fun _ => namesKey_mapError
  getWithMetadata key := (namesKey_prefixed store key).bind fun _ =>
    namesKey_mapError.bind fun _ => .pure _

theorem EncryptedBlobStore.namesMissing (store : EncryptedBlobStore (StateM σ)) :
    NamesMissing store.toBlobStore where
  get key := (namesKey_checkNoHeaderCollision store key).bind fun _ =>
    namesKey_hideNotFound.bind fun encData => namesKey_decryptStream store encData
  getWithMetadata key := (namesKey_checkNoHeaderCollision store key).bind fun _ =>
    namesKey_hideNotFound.bind fun pair =>
      (namesKey_decryptStream store pair.2).bind fun _ => .pure _

end Missing

namespace Layer

variable {m : Type → Type}

/-- The keys of the store below that a layer deletes for a batch. -/
def objectKeys (keys : List Key) : Layer m → List Key
  | .keyPrefix start => keys.map (start ++ ·)
  | .encryption _ headerSuffix => keys.flatMap fun key => [key, key ++ headerSuffix]
  | .cleanup _ _ => keys

/-- The key of the store below that holds the data of a key. -/
def dataKey (key : Key) : Layer m → Key
  | .keyPrefix start => start ++ key
  | .encryption _ _ => key
  | .cleanup _ _ => key

/-- The layers that pass every call on as it is. -/
def IsCleanup : Layer m → Prop
  | .cleanup _ _ => True
  | _ => False

theorem dataKey_injective (layer : Layer m) : Function.Injective fun key => layer.dataKey key := by
  cases layer with
  | keyPrefix start => exact List.append_right_injective start
  | encryption _ _ => exact fun _ _ h => h
  | cleanup _ _ => exact fun _ _ h => h

theorem dataKey_mem (layer : Layer m) {keys : List Key} {key : Key} (h : key ∈ keys) :
    layer.dataKey key ∈ layer.objectKeys keys := by
  cases layer with
  | keyPrefix start => exact List.mem_map_of_mem h
  | encryption _ _ => exact List.mem_flatMap.mpr ⟨key, h, List.mem_cons_self ..⟩
  | cleanup _ _ => exact h

variable {inner : BlobStore (StateM σ)}

theorem delete_relates (layer : Layer (StateM σ)) {s : σ} (hinner : ReportsDeletes inner s)
    (keys : List Key) :
    Refused s (exec ((layer.wrap inner).delete keys) s) ∨
      Relates (fun key => layer.dataKey key) keys (layer.objectKeys keys)
        (exec ((layer.wrap inner).delete keys) s)
        (exec (inner.delete (layer.objectKeys keys)) s) := by
  cases layer with
  | keyPrefix start => exact PrefixBlobStore.delete_relates ⟨inner, start⟩ hinner keys
  | encryption provider headerSuffix =>
      exact EncryptedBlobStore.delete_relates ⟨inner, provider, headerSuffix⟩ hinner keys
  | cleanup _ _ => exact (hinner keys).imp_right Relates.refl

theorem reportsDeletes (layer : Layer (StateM σ)) {s : σ} (hinner : ReportsDeletes inner s) :
    ReportsDeletes (layer.wrap inner) s :=
  fun keys => (layer.delete_relates hinner keys).imp_right Relates.above

theorem namesMissing (layer : Layer (StateM σ)) (hinner : layer.IsCleanup → NamesMissing inner) :
    NamesMissing (layer.wrap inner) := by
  cases layer with
  | keyPrefix start => exact PrefixBlobStore.namesMissing ⟨inner, start⟩
  | encryption provider headerSuffix =>
      exact EncryptedBlobStore.namesMissing ⟨inner, provider, headerSuffix⟩
  | cleanup _ _ => exact ⟨(hinner trivial).get, (hinner trivial).getWithMetadata⟩

end Layer

section Stack

variable {m : Type → Type}

/-- The objects of the backend that a stack deletes for a batch. -/
def stackObjects : List (Layer m) → List Key → List Key
  | [], keys => keys
  | layer :: layers, keys => layer.objectKeys (stackObjects layers keys)

/-- The object of the backend that holds the data of a key. -/
def stackDataKey : List (Layer m) → Key → Key
  | [], key => key
  | layer :: layers, key => layer.dataKey (stackDataKey layers key)

theorem stackDataKey_injective (layers : List (Layer m)) :
    Function.Injective (stackDataKey layers) := by
  induction layers with
  | nil => exact fun _ _ h => h
  | cons layer layers ih => exact layer.dataKey_injective.comp ih

theorem stackDataKey_mem (layers : List (Layer m)) {keys : List Key} {key : Key}
    (h : key ∈ keys) : stackDataKey layers key ∈ stackObjects layers keys := by
  induction layers with
  | nil => exact h
  | cons layer layers ih => exact layer.dataKey_mem ih

/-- The reports of a whole stack, from the top to the backend. -/
theorem applyLayers_relates {backend : BlobStore (StateM σ)} {s : σ}
    (hbackend : ReportsDeletes backend s) (layers : List (Layer (StateM σ))) (keys : List Key) :
    Refused s (exec ((applyLayers backend layers).delete keys) s) ∨
      Relates (stackDataKey layers) keys (stackObjects layers keys)
        (exec ((applyLayers backend layers).delete keys) s)
        (exec (backend.delete (stackObjects layers keys)) s) := by
  induction layers generalizing backend with
  | nil => exact (hbackend keys).imp_right Relates.refl
  | cons layer layers ih =>
      obtain hrefused | hupper := ih (layer.reportsDeletes hbackend)
      · exact .inl hrefused
      · obtain ⟨e, he, hinvalid⟩ | hlower :=
          layer.delete_relates hbackend (stackObjects layers keys)
        · exact absurd he (hupper.below.not_invalid (congrArg Prod.fst hinvalid))
        · exact .inr (hupper.trans hlower layer.dataKey_injective
            fun key hkey => stackDataKey_mem layers hkey)

theorem applyLayers_namesMissing {backend : BlobStore (StateM σ)}
    (layers : List (Layer (StateM σ)))
    (hbackend : (∀ layer ∈ layers, layer.IsCleanup) → NamesMissing backend) :
    NamesMissing (applyLayers backend layers) := by
  induction layers generalizing backend with
  | nil => exact hbackend (by simp)
  | cons layer layers ih =>
      refine ih fun hlayers => layer.namesMissing fun hlayer => hbackend ?_
      exact List.forall_mem_cons.mpr ⟨hlayer, hlayers⟩

end Stack

namespace FsBlobStore

theorem exec_deleteEach (store : FsBlobStore) {keys : List Key} (h : ∀ key ∈ keys, ValidKey key)
    (s : FsState) : ∃ succeeded errors t,
      exec (store.deleteEach keys) s = (.ok (succeeded, errors), t) ∧
        (succeeded ++ errors.map KeyError.key).Perm keys := by
  induction keys generalizing s with
  | nil => exact ⟨[], [], s, rfl, .nil⟩
  | cons key rest ih =>
      rw [List.forall_mem_cons] at h
      have hpath := @exec_lift s _ (store.keyToPath key)
      rw [keyToPath_of_valid store h.1] at hpath
      rw [deleteEach, keyToPath_of_valid store h.1, exec_bind_ok hpath,
        exec_bind_ok (exec_getState s)]
      split
      · next tree hunlink =>
          obtain ⟨succeeded, errors, t, hrest, hperm⟩ := ih h.2 { s with tree }
          refine ⟨key :: succeeded, errors, t, ?_, hperm.cons key⟩
          rw [exec_bind_ok (exec_setState s { s with tree }), exec_bind_ok hrest]
          rfl
      · obtain ⟨succeeded, errors, t, hrest, hperm⟩ := ih h.2 s
        refine ⟨key :: succeeded, errors, t, ?_, hperm.cons key⟩
        rw [exec_bind_ok hrest]
        rfl
      · next e _ hunlink =>
          obtain ⟨succeeded, errors, t, hrest, hperm⟩ := ih h.2 s
          refine ⟨succeeded, KeyError.mk key (mapIoErrorToPerKey (ioError e)) :: errors, t, ?_,
            List.perm_middle.trans (hperm.cons key)⟩
          rw [exec_bind_ok hrest]
          rfl

/-- With a root in place, a deletion accounts for each of its keys. -/
theorem reportsDeletes (store : FsBlobStore) {s : FsState} (hroot : s.rootStat = .ok true) :
    ReportsDeletes store.toBlobStore s := by
  intro keys
  change Refused s (exec (store.delete keys) s) ∨ Accounts keys (exec (store.delete keys) s).1
  rw [delete]
  by_cases hkeys : ∀ key ∈ keys, ValidKey key
  · obtain ⟨succeeded, errors, t, heach, hperm⟩ := store.exec_deleteEach hkeys s
    have hready : exec store.ensureRoot s = (.ok (), s) := by
      rw [exec_ensureRoot, rootAnswer_ok hroot]
    rw [exec_bind_ok (exec_checkKeys_of_valid s hkeys), exec_bind_ok hready, exec_bind_ok heach]
    right
    dsimp only
    by_cases hnone : errors = []
    · rw [if_pos hnone]
      exact .deleted
    · rw [if_neg hnone]
      exact .sorted hnone hperm
  · obtain ⟨e, he, hcheck⟩ := exec_checkKeys_of_not_valid s hkeys
    exact .inl ⟨e, he, exec_bind_error hcheck⟩

theorem namesKey_lift {α : Type} {key : Key} {result : Except BlobStorageError α}
    (h : ∀ missing, result ≠ .error (.notFound missing)) :
    NamesKey key (lift result : Fallible (StateM FsState) α) := by
  intro s missing hexec
  rw [exec_lift] at hexec
  exact absurd hexec (h missing)

theorem keyToPath_ne_notFound (store : FsBlobStore) (key missing : Key) :
    store.keyToPath key ≠ .error (.notFound missing) := by
  intro h
  unfold keyToPath at h
  obtain ⟨_, hok⟩ | ⟨_, e, herror, hinvalid⟩ := validateBlobKey_cases key
  · rw [hok] at h
    cases h
  · rw [herror] at h
    cases h
    exact hinvalid

theorem namesKey_ensureRoot (store : FsBlobStore) {key : Key} :
    NamesKey key store.ensureRoot := by
  intro s missing h
  rw [exec_ensureRoot, rootAnswer, ensureRoot, exec_bind_ok (exec_getState s)] at h
  split at h
  · cases h
  · cases h
  · split at h <;> cases h

theorem namesMissing (store : FsBlobStore) : NamesMissing store.toBlobStore := by
  have hread : ∀ key, NamesKey key (store.get key) := by
    intro key
    refine (store.namesKey_ensureRoot).bind fun _ =>
      (namesKey_lift (store.keyToPath_ne_notFound key)).bind fun path => ?_
    intro s missing h
    rw [exec_bind_ok (exec_getState s)] at h
    split at h
    · rw [exec_bind, exec_call] at h
      cases hstat : store.stat s path with
      | ok node =>
          rw [hstat] at h
          cases h
      | error e =>
          rw [hstat] at h
          cases h
    · cases h
      rfl
  refine ⟨hread, fun key => ?_⟩
  refine (store.namesKey_ensureRoot).bind fun _ => NamesKey.bind ?_ fun info =>
    (hread key).bind fun _ => .pure _
  refine (namesKey_lift (store.keyToPath_ne_notFound key)).bind fun path => ?_
  intro s missing h
  rw [exec_bind_ok (exec_getState s)] at h
  split at h
  · cases h
  · cases h
    rfl
  · cases h

end FsBlobStore

theorem S3BlobStore.requestError_ne_notFound {m : Type → Type} (store : S3BlobStore m)
    (context : String) (e : SdkError) (missing : Key) :
    store.requestError context e ≠ .notFound missing := by
  unfold S3BlobStore.requestError
  split <;> simp

theorem S3BlobStore.namesMissing (store : S3BlobStore (StateM σ)) [Clock (StateM σ)] :
    NamesMissing store.toBlobStore := by
  have hread : ∀ key, NamesKey key (store.getObjectOutput key) := by
    intro key
    refine (NamesKey.perform _).bind fun response => ?_
    cases response with
    | ok output => exact .pure output
    | error e =>
        dsimp only
        split
        · exact .throw fun missing h => absurd h (store.requestError_ne_notFound _ e missing)
        · split
          · refine .throw fun missing h => ?_
            cases h
            rfl
          · exact .throw fun missing h => absurd h (store.requestError_ne_notFound _ e missing)
  refine ⟨fun key => ?_, fun key => ?_⟩
  · exact (namesKey_checkKey key).bind fun _ => (hread key).bind fun _ => .pure _
  · exact (namesKey_checkKey key).bind fun _ => (hread key).bind fun _ => .pure _

/-- The report at the top of a stack is about the caller's keys and no others, and blames a
key once for each time that its data object failed. -/
structure BlamesCallersKeys (layers : List (Layer (StateM σ))) (keys : List Key)
    (top bottom : Except BlobStorageError Unit × σ) : Prop where
  state : top.2 = bottom.2
  accounts : Accounts keys top.1
  ok : top.1 = .ok () ↔ ∀ key ∈ keys, stackDataKey layers key ∉ failedKeys bottom.1
  failed : ∀ key, key ∈ failedKeys top.1 ↔
    key ∈ keys ∧ stackDataKey layers key ∈ failedKeys bottom.1
  times : ∀ key ∈ keys, (failedKeys top.1).count key =
    (failedKeys bottom.1).count (stackDataKey layers key)

theorem Relates.blamesCallersKeys {layers : List (Layer (StateM σ))} {keys objects : List Key}
    {top bottom : Except BlobStorageError Unit × σ}
    (h : Relates (stackDataKey layers) keys objects top bottom) :
    BlamesCallersKeys layers keys top bottom := by
  have hinj := stackDataKey_injective layers
  have htimes : ∀ key ∈ keys, (failedKeys top.1).count key =
      (failedKeys bottom.1).count (stackDataKey layers key) := by
    intro key hkey
    have hcount := h.failed.count_eq (stackDataKey layers key)
    rw [List.count_map_of_injective _ _ hinj, List.count_filter] at hcount
    · exact hcount
    · exact decide_eq_true (List.mem_map_of_mem hkey)
  have hfailed : ∀ key, key ∈ failedKeys top.1 ↔
      key ∈ keys ∧ stackDataKey layers key ∈ failedKeys bottom.1 := by
    intro key
    constructor
    · intro hmem
      have hkey := h.above.failed_mem hmem
      refine ⟨hkey, ?_⟩
      rw [← List.count_pos_iff, ← htimes key hkey, List.count_pos_iff]
      exact hmem
    · rintro ⟨hkey, hmem⟩
      rw [← List.count_pos_iff, htimes key hkey, List.count_pos_iff]
      exact hmem
  refine ⟨h.state, h.above, ?_, hfailed, htimes⟩
  rw [h.above.ok_iff, List.eq_nil_iff_forall_not_mem]
  constructor
  · intro hnone key hkey hmem
    exact hnone key ((hfailed key).mpr ⟨hkey, hmem⟩)
  · intro hnone key hmem
    obtain ⟨hkey, hbelow⟩ := (hfailed key).mp hmem
    exact hnone key hkey hbelow

/-- Through any stack, over a backend whose deletions account for their keys, what a caller
is told of a failed deletion or of a missing blob is about the caller's own keys. Only where
no layer has keys of its own does it take the backend to name a missing key. -/
theorem errors_speak_of_callers_keys {backend : BlobStore (StateM σ)} {s : σ}
    (layers : List (Layer (StateM σ))) (hdeletes : ReportsDeletes backend s)
    (hmissing : (∀ layer ∈ layers, layer.IsCleanup) → NamesMissing backend) :
    (∀ keys, Refused s (exec ((applyLayers backend layers).delete keys) s) ∨
      BlamesCallersKeys layers keys (exec ((applyLayers backend layers).delete keys) s)
        (exec (backend.delete (stackObjects layers keys)) s)) ∧
    ∀ key missing,
      ((exec ((applyLayers backend layers).get key) s).1 = .error (.notFound missing) →
        missing = key) ∧
      ((exec ((applyLayers backend layers).getWithMetadata key) s).1 =
        .error (.notFound missing) → missing = key) := by
  have hnames := applyLayers_namesMissing layers hmissing
  refine ⟨fun keys => ?_, fun key missing => ⟨?_, ?_⟩⟩
  · exact (applyLayers_relates hdeletes layers keys).imp_right Relates.blamesCallersKeys
  · exact hnames.get key s missing
  · exact hnames.getWithMetadata key s missing

/-- The tree after `a/b/c` has been put. -/
def deepState : FsState :=
  (exec (sampleFs.put [BlobInput.new ['a', '/', 'b', '/', 'c'] (Reader.ofBytes [1])]) emptyRoot).2

/-- An encrypted layer over a prefix layer. -/
def tenantLayers : List (Layer (StateM FsState)) :=
  [.keyPrefix ['a', '/'], .encryption (RekeyableShiftEncryption.toProvider ⟨0, 0⟩)
    defaultHeaderSuffix]

/-- Of two keys one is a directory of the backend, which cannot be deleted. -/
theorem errors_speak_of_callers_keys_deep :
    (exec ((applyLayers sampleFs.toBlobStore tenantLayers).delete [['b'], ['d']]) deepState).1 =
        .error (.batch (.mk [['d']] [.mk ['b'] (.unknown "Is a directory (os error 21)")])) ∧
      BlamesCallersKeys tenantLayers [['b'], ['d']]
        (exec ((applyLayers sampleFs.toBlobStore tenantLayers).delete [['b'], ['d']]) deepState)
        (exec (sampleFs.delete (stackObjects tenantLayers [['b'], ['d']])) deepState) := by
  have hresult : (exec ((applyLayers sampleFs.toBlobStore tenantLayers).delete [['b'], ['d']])
      deepState).1 =
      .error (.batch (.mk [['d']] [.mk ['b'] (.unknown "Is a directory (os error 21)")])) := by
    decide
  obtain ⟨hdelete, _⟩ := errors_speak_of_callers_keys tenantLayers
    (sampleFs.reportsDeletes (show deepState.rootStat = .ok true from rfl))
    fun _ => sampleFs.namesMissing
  refine ⟨hresult, ?_⟩
  obtain ⟨e, he, hrefused⟩ | hblames := hdelete [['b'], ['d']]
  · rw [hrefused] at hresult
    cases hresult
    exact absurd he not_false
  · exact hblames

end BlobStorage
