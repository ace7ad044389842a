import BlobStorage.Backend.S3.Deletions
import BlobStorage.Backend.S3.Enumeration
import BlobStorage.Backend.S3.Storing
import BlobStorage.Refinement.Derived
import Mathlib.Data.List.TakeWhile

/-!
# The S3 backend implements a map

Over a reliable service the backend keeps the contract of a map from keys to bytes, uploads in
parts, batches of deletions and listings in pages included. A listing is followed for a bounded
number of pages, so the contract is for a finite set of keys and any bound that is larger; with
that, every stack of layers over the service answers a run of calls as a single map would.
-/

namespace BlobStorage

open Fallible

namespace S3BlobStore

variable {σ : Type}

section Listing

variable {self : S3BlobStore (StateM σ)} {s : σ} {start : Option Key}

theorem keyed_append (contents others : List S3Object) :
    keyed (contents ++ others) = keyed contents ++ keyed others := List.filterMap_append

/-- A page that is not the last one names some objects, so as many pages as there are objects are
enough, and one more. -/
theorem listed_of_pages {token : Option String} {objects : List S3Object}
    (h : self.Pages s start token objects) {fuel : Nat} (hfuel : objects.length < fuel) :
    self.listed s start fuel token = (keyed objects, none) := by
  induction h generalizing fuel with
  | last page =>
      obtain ⟨fuel, rfl⟩ := Nat.exists_eq_succ_of_ne_zero (Nat.ne_zero_of_lt hfuel)
      rw [listed, page]
  | @more token next contents rest page named others ih =>
      obtain ⟨fuel, rfl⟩ := Nat.exists_eq_succ_of_ne_zero (Nat.ne_zero_of_lt hfuel)
      have hlength : rest.length < fuel := by
        have hpositive := List.length_pos_of_ne_nil named
        rw [List.length_append] at hfuel
        omega
      rw [listed, page]
      dsimp only
      rw [ih hlength, keyed_append]

theorem map_fst_keyed (objects : List S3Object) :
    (keyed objects).map Prod.fst = objects.filterMap S3Object.key := by
  rw [keyed, List.map_filterMap]
  congr 1
  funext object
  cases object.key <;> rfl

end Listing

section Contract

variable [Clock (StateM σ)] {self : S3BlobStore (StateM σ)} {vault : σ → Vault Unit}
  {limits : ServiceLimits} {K : List Key}

/-- The keys of a finite set that the service takes. -/
def Admits (limits : ServiceLimits) (K : List Key) (key : Key) : Prop :=
  ValidKey key ∧ limits.takesKey key = true ∧ key ∈ K

/-- The bucket holds the map, all of it under such keys. -/
def HoldsMap (vault : σ → Vault Unit) (limits : ServiceLimits) (K : List Key) (s : σ)
    (M : PlainMap) : Prop :=
  (vault s).objects = M ∧ ∀ key, M key ≠ none → Admits limits K key

/-- The bucket is left alone. -/
def KeepsVault (vault : σ → Vault Unit) (s t : σ) : Prop := vault t = vault s

variable {s t : σ} {M : PlainMap}

omit [Clock (StateM σ)] in
theorem HoldsMap.of_objects_eq (h : HoldsMap vault limits K s M)
    (hobjects : (vault t).objects = (vault s).objects) : HoldsMap vault limits K t M :=
  ⟨hobjects.trans h.1, h.2⟩

theorem isMisconfigured_of_isNotFound {e : SdkError} (h : e.isNotFound = true) :
    e.isMisconfigured = false := by
  unfold SdkError.isNotFound at h
  unfold SdkError.isMisconfigured
  rw [decide_eq_true_iff] at h
  obtain hcode | hcode := h
  · rw [hcode]
    decide
  · rw [hcode]
    decide

variable (R : self.Reliable vault limits)

include R

theorem Reliable.get_there {key : Key} {content : Bytes} (hkey : ValidKey key)
    (hthere : (vault s).objects key = some content) :
    ∃ reader, exec (self.get key) s = (.ok reader, s) ∧ reader.bytes = content ∧
      reader.failure = none := by
  obtain ⟨output, hfetched, hunbroken⟩ := R.fetches s (by rw [hthere]; exact Option.some_ne_none _)
  have hdelivers : Delivers content output.body := by
    have hcarries := R.carries hfetched
    generalize vault (self.send (.getObject key) s).2 = w at hcarries
    cases hcarries with
    | getObject _ there delivers =>
        rw [hthere] at there
        cases there
        exact delivers
  refine ⟨output.body, ?_, ?_, hunbroken⟩
  · rw [exec_get key (R.quiet s), getAnswer, validateBlobKey_ok hkey, outputAnswer, hfetched]
    rfl
  · obtain ⟨_, hbytes⟩ | ⟨hbroken, _⟩ := hdelivers
    · exact hbytes
    · exact absurd hunbroken hbroken

theorem Reliable.get_missing {key : Key} (hkey : ValidKey key)
    (htakes : limits.takesKey key = true) (hmissing : (vault s).objects key = none) :
    exec (self.get key) s = (.error (.notFound key), s) := by
  obtain ⟨e, hsent, hnotFound⟩ := R.misses s htakes hmissing
  rw [exec_get key (R.quiet s), getAnswer, validateBlobKey_ok hkey, outputAnswer, hsent]
  dsimp only
  rw [isMisconfigured_of_isNotFound hnotFound, hnotFound]
  rfl

theorem Reliable.exists_answer {key : Key} (hkey : ValidKey key)
    (htakes : limits.takesKey key = true) :
    exec (self.existsBlob key) s = (.ok ((vault s).objects key).isSome, s) := by
  rw [exec_existsBlob key (R.quiet s), existsAnswer, validateBlobKey_ok hkey]
  change (self.headAnswer s key, s) = _
  rw [headAnswer]
  cases hobject : (vault s).objects key with
  | some content =>
      rw [R.heads s (by rw [hobject]; exact Option.some_ne_none _)]
      rfl
  | none =>
      obtain ⟨e, hsent, hnotFound⟩ := R.headsMissing s htakes hobject
      rw [hsent]
      dsimp only
      rw [isMisconfigured_of_isNotFound hnotFound, hnotFound]
      rfl

theorem Reliable.exec_deleteChunks {batches : List (List Key)}
    (hsmall : ∀ batch ∈ batches, batch.length ≤ 1000)
    (htakes : ∀ batch ∈ batches, ∀ key ∈ batch, limits.takesKey key = true) :
    ∃ succeeded t, exec (self.deleteChunks batches) s = (.ok (succeeded, []), t) ∧
      (vault t).objects = KeyMap.removeAll (vault s).objects batches.flatten := by
  induction batches generalizing s with
  | nil => exact ⟨[], s, rfl, funext fun key => (KeyMap.removeAll_of_not_mem List.not_mem_nil).symm⟩
  | cons batch rest ih =>
      rw [List.forall_mem_cons] at hsmall htakes
      obtain ⟨output, hsent, hnone, hgone⟩ := R.deletes s hsmall.1 htakes.1
      obtain ⟨gone, hasked, hvault⟩ := (R.carries hsent).deleteObjects_inv
      obtain ⟨succeeded, t, hexec, hobjects⟩ :=
        ih (s := (self.send (.deleteObjects batch) s).2) hsmall.2 htakes.2
      refine ⟨succeededIn output ++ succeeded, t, ?_, ?_⟩
      · rw [deleteChunks, exec_bind, exec_sent, hsent]
        dsimp only [Except.mapError]
        rw [exec_bind_ok hexec, errorsIn, hnone]
        rfl
      · funext key
        rw [hobjects, List.flatten_cons]
        by_cases hrest : key ∈ rest.flatten
        · rw [KeyMap.removeAll_of_mem hrest,
            KeyMap.removeAll_of_mem (List.mem_append_right batch hrest)]
        rw [KeyMap.removeAll_of_not_mem hrest]
        by_cases hbatch : key ∈ batch
        · rw [hgone key hbatch, KeyMap.removeAll_of_mem (List.mem_append_left _ hbatch)]
        · have hstays : key ∉ gone := fun hmem => hbatch (hasked key hmem)
          rw [hvault, KeyMap.removeAll_of_not_mem (by simp [hbatch, hrest])]
          exact KeyMap.removeAll_of_not_mem hstays

theorem Reliable.delete_all {keys : List Key} (hvalid : ∀ key ∈ keys, ValidKey key)
    (htakes : ∀ key ∈ keys, limits.takesKey key = true) :
    ∃ t, exec (self.delete keys) s = (.ok (), t) ∧
      (vault t).objects = KeyMap.removeAll (vault s).objects keys := by
  have hsmall : ∀ batch ∈ chunks 999 keys, batch.length ≤ 1000 := fun batch hbatch =>
    length_of_mem_chunks hbatch
  have hbatches : ∀ batch ∈ chunks 999 keys, ∀ key ∈ batch, limits.takesKey key = true := by
    intro batch hbatch key hkey
    refine htakes key ?_
    rw [← flatten_chunks 999 keys]
    exact List.mem_flatten_of_mem hbatch hkey
  obtain ⟨succeeded, t, hexec, hobjects⟩ := R.exec_deleteChunks (s := s) hsmall hbatches
  refine ⟨t, ?_, by rw [hobjects, flatten_chunks]⟩
  rw [delete, exec_bind_ok (exec_checkKeys_of_valid s hvalid), exec_bind_ok hexec]
  rfl

/-- The listing of a bucket with fewer objects than pages are followed. -/
theorem Reliable.list_matching (hM : ∀ key, (vault s).objects key ≠ none → key ∈ K)
    (hpages : K.length < self.maxPages) {filter : ListFilter} (hsound : filter.SoundHint) :
    ∃ keys, exec (self.list filter) s = (.ok keys, s) ∧
      KeyMap.IsListing (vault s).objects (fun key => filter.matchesBlob key none = true) keys := by
  obtain ⟨objects, hlisted, hnamed, honce, hall⟩ := R.lists s (requestPrefix filter)
  have hmem : ∀ key, key ∈ objects.filterMap S3Object.key ↔
      (vault s).objects key ≠ none ∧ (requestPrefix filter).getD [] <+: key := by
    intro key
    rw [← hall, List.mem_filterMap, List.mem_map]
  have hnodup : (objects.filterMap S3Object.key).Nodup := by
    have hnames : (objects.map S3Object.key).filterMap id = objects.filterMap S3Object.key := by
      rw [List.filterMap_map]
      rfl
    rw [← hnames]
    exact honce.filterMap fun _ _ _ hfirst hsecond => hfirst.trans hsecond.symm
  have hfew : objects.length < self.maxPages := by
    have hsubset : objects.map S3Object.key ⊆ K.map some := by
      intro name hname
      obtain ⟨object, hobject, rfl⟩ := List.mem_map.mp hname
      obtain ⟨key, hkey⟩ := Option.ne_none_iff_exists'.mp (hnamed object hobject)
      rw [hkey] at hname ⊢
      exact List.mem_map_of_mem (hM key ((hall key).mp hname).1)
    calc objects.length = (objects.map S3Object.key).length := (List.length_map _).symm
      _ ≤ (K.map some).length := List.Nodup.length_le_of_subset honce hsubset
      _ = K.length := List.length_map _
      _ < self.maxPages := hpages
  have hlist : exec (self.list filter) s = (.ok (sortKeys ((objects.filterMap S3Object.key).filter
      fun key => filter.matchesBlob key none)), s) := by
    have hselected : (selected filter ((keyed objects).map recordOf)).map BlobMeta.key =
        (objects.filterMap S3Object.key).filter fun key => filter.matchesBlob key none := by
      rw [← map_fst_keyed, selected, List.filter_map, List.filter_map, List.map_map]
      rfl
    rw [exec_list (R.quiet s), shown]
    unfold Shown.enumerating
    dsimp only
    rw [found, listed_of_pages hlisted hfew, hselected]
    rfl
  refine ⟨_, hlist, ?_, fun key => ?_⟩
  · have hsorted := (sortKeys_perm ((objects.filterMap S3Object.key).filter fun key =>
      filter.matchesBlob key none)).nodup_iff.mpr (hnodup.filter _)
    refine (hsorted.and (sortKeys_sorted _)).imp ?_
    intro a b hab
    exact lt_of_le_of_ne hab.2 hab.1
  · rw [mem_sortKeys, List.mem_filter, hmem, Option.isSome_iff_ne_none]
    constructor
    · rintro ⟨⟨hthere, _⟩, hmatch⟩
      exact ⟨hthere, hmatch⟩
    · rintro ⟨hthere, hmatch⟩
      refine ⟨⟨hthere, ?_⟩, hmatch⟩
      rw [requestPrefix_getD]
      cases hhint : filter.prefixHint with
      | none => exact List.nil_prefix
      | some hint => exact hsound hint hhint key none hmatch

/-- A reliable service makes the backend a map. -/
theorem Reliable.mapContract (hpart : self.partSize ≤ limits.partSize)
    (hobject : limits.parts * self.partSize ≤ limits.objectSize)
    (hpages : K.length < self.maxPages) :
    MapContract (KeepsVault vault) self.toBlobStore (Admits limits K)
      (HoldsMap vault limits K) where
  keeps := fun hkeeps h => h.of_objects_eq (congrArg Vault.objects hkeeps)
  admitted := fun h hkey => h.2 _ hkey
  put := by
    intro s t M blobs result h hblobs hexec
    obtain ⟨outcome, u, hput, hvault, hgood, hbad⟩ := R.exec_put (s := s) hpart hobject
      fun blob hblob => ⟨(hblobs blob hblob).1, (hblobs blob hblob).2.1⟩
    cases hput.symm.trans hexec
    have hall : ∀ blob ∈ blobs, self.Fits limits blob := by
      by_contra hnot
      obtain ⟨e, he⟩ := hbad hnot
      cases he
    obtain ⟨stored, hsame, hkeys⟩ := hgood hall
    cases hsame
    rw [List.takeWhile_eq_self_iff.mpr fun blob hblob => decide_eq_true (hall blob hblob)] at hvault
    refine ⟨⟨?_, fun key hkey => ?_⟩, hkeys⟩
    · rw [hvault, Vault.storeAll_objects, h.1]
    · by_cases hnew : key ∈ (entriesOf blobs).map Prod.fst
      · rw [entriesOf_keys] at hnew
        obtain ⟨blob, hblob, rfl⟩ := List.mem_map.mp hnew
        exact hblobs blob hblob
      · rw [KeyMap.insertAll_of_not_mem hnew] at hkey
        exact h.2 key hkey
  get_some := by
    intro s M key content h hkey hM
    rw [← h.1] at hM
    obtain ⟨reader, hexec, hbytes, hfailure⟩ := R.get_there hkey.1 hM
    exact ⟨reader, s, hexec, h, hbytes, hfailure⟩
  get_none := by
    intro s M key h hkey hM
    rw [← h.1] at hM
    exact ⟨s, R.get_missing hkey.1 hkey.2.1 hM, h⟩
  delete := by
    intro s M keys h hkeys
    obtain ⟨t, hexec, hobjects⟩ := R.delete_all (s := s) (fun key hkey => (hkeys key hkey).1)
      fun key hkey => (hkeys key hkey).2.1
    refine ⟨t, hexec, by rw [hobjects, h.1], fun key hkey => ?_⟩
    exact h.2 key (KeyMap.ne_none_of_removeAll hkey)
  existsBlob := by
    intro s M key h hkey
    refine ⟨s, ?_, h⟩
    rw [← h.1]
    exact R.exists_answer hkey.1 hkey.2.1
  list := by
    intro s M filter h hsound _
    obtain ⟨keys, hexec, hkeys⟩ := R.list_matching (K := K)
      (fun key hkey => (h.2 key (h.1 ▸ hkey)).2.2) hpages hsound
    exact ⟨keys, s, hexec, h, h.1 ▸ hkeys⟩

end Contract

end S3BlobStore

open S3BlobStore in
/-- Over a reliable service and a bucket without objects, a stack of layers answers every run of
calls on admitted keys in which no put fails as a single map from logical keys to bytes would,
provided listings are given true hints and more pages are followed than there are keys named. -/
theorem s3_stack_answeredBy {σ : Type} [Clock (StateM σ)] {store : S3BlobStore (StateM σ)}
    {vault : σ → Vault Unit} {limits : ServiceLimits} (R : store.Reliable vault limits)
    (hpart : store.partSize ≤ limits.partSize)
    (hobject : limits.parts * store.partSize ≤ limits.objectSize)
    (layers : List (Layer (StateM σ)))
    (hlawful : ∀ layer ∈ layers, layer.Lawful (KeepsVault vault))
    {s : σ} (hempty : ∀ key, (vault s).objects key = none) (calls : List Call)
    (hcalls : ∀ call ∈ calls, call.Admissible
        (StackAdmits (fun key => ValidKey key ∧ limits.takesKey key = true) layers) ∧
      call.SoundHint)
    (hpages : (namedKeys layers calls).length < store.maxPages)
    (hput : ∀ outcome ∈ runCalls (doBuild store.toBlobStore layers) calls s,
      ¬outcome.PutFailed) :
    AnsweredBy (fun _ => none) calls (runCalls (doBuild store.toBlobStore layers) calls s) := by
  have hnamed : ∀ call ∈ calls, call.Admissible
      (StackAdmits (Admits limits (namedKeys layers calls)) layers) ∧ call.SoundHint := by
    intro call hcall
    obtain ⟨hadmissible, hsound⟩ := hcalls call hcall
    refine ⟨(hadmissible.named hcall).imp fun key _ hkey => ?_, hsound⟩
    exact hkey.mono fun other hother => ⟨hother.1.1, hother.1.2, hother.2⟩
  have hholds : HoldsMap vault limits (namedKeys layers calls) s fun _ => none :=
    ⟨funext hempty, fun key hkey => absurd rfl hkey⟩
  have C := applyLayers_mapContract (R.mapContract hpart hobject hpages) layers hlawful
  exact C.answeredBy (stackHolds_empty hholds layers) hnamed hput

/-- A cleanup layer over a prefix layer over a bucket. -/
def bucketStack : List (Layer (StateM Bucket)) :=
  [.keyPrefix ['p', '/'], .cleanup (fun _ _ => false) BlobCleanup.defaultBatchSize]

def bucketCalls : List Call :=
  [.put [.new ['x'] (.ofBytes [1, 2])], .get ['x'], .list (suffixFilter []), .delete [['x']],
    .existsBlob ['x']]

theorem bucketStack_stores : ∃ result t,
    exec ((doBuild (Bucket.backend 9).toBlobStore bucketStack).put [.new ['x'] (.ofBytes [1, 2])])
      Bucket.empty = (.ok result, t) := by
  have hkeys : ∀ blob ∈ [BlobInput.new ['p', '/', 'x'] (.ofBytes [1, 2])],
      ValidKey blob.key ∧ Bucket.limits.takesKey blob.key = true := by decide
  obtain ⟨outcome, t, hexec, _, hgood, _⟩ :=
    (Bucket.backend_reliable 9).exec_put (s := Bucket.empty) (by decide) (by decide) hkeys
  obtain ⟨stored, rfl, _⟩ := hgood (by decide)
  refine ⟨{ blobs := stored.blobs.map (BlobMeta.stripped ['p', '/']) }, t, ?_⟩
  change exec (PrefixBlobStore.put ⟨(Bucket.backend 9).toBlobStore, ['p', '/']⟩ _) _ = _
  rw [PrefixBlobStore.put, exec_bind_ok (PrefixBlobStore.exec_prefixedAll _ (by decide) _)]
  exact exec_bind_ok hexec

theorem s3_stack_answeredBy_bucket :
    AnsweredBy (fun _ => none) bucketCalls
      (runCalls (doBuild (Bucket.backend 9).toBlobStore bucketStack) bucketCalls
        Bucket.empty) := by
  have hkey : StackAdmits (fun key => ValidKey key ∧ Bucket.limits.takesKey key = true)
      bucketStack ['x'] := ⟨by decide, by decide, by decide, by decide⟩
  refine s3_stack_answeredBy (Bucket.backend_reliable 9) (by decide) (by decide) bucketStack
    ?_ (fun _ => rfl) bucketCalls ?_ (by decide) ?_
  · simp only [bucketStack, List.forall_mem_cons]
    exact ⟨trivial, trivial, List.forall_mem_nil _⟩
  · simp only [bucketCalls, List.forall_mem_cons, Call.Admissible, Call.SoundHint,
      BlobInput.new, List.not_mem_nil, IsEmpty.forall_iff, implies_true, and_true]
    exact ⟨hkey, hkey, ⟨suffixFilter_metadataIndependent [], suffixFilter_sound []⟩, hkey, hkey⟩
  · obtain ⟨result, t, hstored⟩ := bucketStack_stores
    simp only [bucketCalls, runCalls, List.forall_mem_cons, Call.run, hstored]
    exact ⟨not_false, not_false, not_false, not_false, not_false, List.forall_mem_nil _⟩

end BlobStorage
