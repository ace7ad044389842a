import BlobStorage.Cleanup
import BlobStorage.Backend.Map

/-!
# What a cleanup deletes

A cleanup judges a blob by what the walk of the inner store hands it. A walk may hand out
the metadata of a blob or none, as the trait's own `visit` does, and where it hands out
none the predicate judges a placeholder. Either way every deletion goes back to one entry
of the walk.
-/

namespace BlobStorage

open Fallible

variable {σ : Type}

def Present (store : BlobStore (StateM σ)) (s : σ) (key : Key) : Prop :=
  (exec (store.existsBlob key) s).1 = .ok true

instance (store : BlobStore (StateM σ)) (s : σ) (key : Key) : Decidable (Present store s key) :=
  inferInstanceAs (Decidable (_ = _))

/-- What the store itself says about a blob, one by one or in a listing. -/
def Reports (store : BlobStore (StateM σ)) (s : σ) (key : Key) (info : BlobMeta) : Prop :=
  (∃ reader, (exec (store.getWithMetadata key) s).1 = .ok (info, reader)) ∨
    ∃ filter infos, (exec (store.listWithMetadata filter) s).1 = .ok infos ∧ info ∈ infos ∧
      info.key = key

/-- A walk from the state `l`, `s` that hands the visitor entries of `Hands` and ends with
the result and the states `out`. Between the calls the store removes nothing. -/
inductive VisitRun {S : Type} (store : BlobStore (StateM σ))
    (Hands : Key → Option BlobMeta → Prop) (visitor : BlobVisitor (StateM σ) S) :
    S → σ → (Except BlobStorageError Unit × S) × σ → Prop where
  | ends {l : S} {s t : σ} (result : Except BlobStorageError Unit)
      (quiet : ∀ key, Present store s key → Present store t key) :
      VisitRun store Hands visitor l s ((result, l), t)
  | next {l k : S} {s t u : σ} {key : Key} {info : Option BlobMeta}
      {out : (Except BlobStorageError Unit × S) × σ}
      (quiet : ∀ key, Present store s key → Present store t key) (handed : Hands key info)
      (call : execLocal (visitor.visit key info) l t = ((.ok true, k), u))
      (rest : VisitRun store Hands visitor k u out) : VisitRun store Hands visitor l s out
  | stopped {l k : S} {s t u : σ} {key : Key} {info : Option BlobMeta}
      (quiet : ∀ key, Present store s key → Present store t key) (handed : Hands key info)
      (call : execLocal (visitor.visit key info) l t = ((.ok false, k), u)) :
      VisitRun store Hands visitor l s ((.ok (), k), u)
  | failed {l k : S} {s t u : σ} {key : Key} {info : Option BlobMeta} {e : BlobStorageError}
      (quiet : ∀ key, Present store s key → Present store t key) (handed : Hands key info)
      (call : execLocal (visitor.visit key info) l t = ((.error e, k), u)) :
      VisitRun store Hands visitor l s ((.error e, k), u)

/-- What a cleanup relies on. `Hands s` are the entries that a walk begun in the state `s`
may hand out; metadata in them is the store's own. A walk may go wrong for a visitor that
adds to the store while it goes on. -/
structure VisitContract [Clock (StateM σ)] (store : BlobStore (StateM σ))
    (Hands : σ → Key → Option BlobMeta → Prop) : Prop where
  real : ∀ {s key info}, Hands s key (some info) → Reports store s key info
  clock : ∀ s key, Present store s key → Present store (Clock.utcNow (m := StateM σ) s).2 key
  clock_reports : ∀ s key info, Reports store (Clock.utcNow (m := StateM σ) s).2 key info →
    Reports store s key info
  delete_others : ∀ {s keys key}, Present store s key → key ∉ keys →
    Present store (exec (store.delete keys) s).2 key
  delete_reports : ∀ {s keys key info}, Reports store (exec (store.delete keys) s).2 key info →
    Reports store s key info
  visit : ∀ {S : Type} filter (visitor : BlobVisitor (StateM σ) S),
    (∀ key info l s other about,
      Reports store (execLocal (visitor.visit key info) l s).2 other about →
        Reports store s other about) →
    ∀ l s, VisitRun store (Hands s) visitor l s (execLocal (store.visit filter visitor) l s)

namespace BlobCleanup

section Cleanup

variable [Clock (StateM σ)] {self : BlobCleanup (StateM σ)}
  {Hands : σ → Key → Option BlobMeta → Prop}

/-- An entry of the walk that the predicate has chosen, by its metadata or by the
placeholder that stands for it. -/
def Chosen (self : BlobCleanup (StateM σ)) (Hands : Key → Option BlobMeta → Prop) (key : Key) :
    Prop :=
  ∃ info u, Hands key info ∧
    self.predicate key (info.getD (BlobMeta.forKey key (Clock.utcNow (m := StateM σ) u).1)) = true

/-- What is waiting to be deleted was chosen, and so was what is gone. -/
structure OnlyChosen (layer : BlobCleanup (StateM σ)) (Hands : Key → Option BlobMeta → Prop)
    (start : σ) (progress : CleanupProgress) (s : σ) : Prop where
  batch : ∀ key ∈ progress.batch, layer.Chosen Hands key
  gone : ∀ key, Present layer.inner start key → ¬Present layer.inner s key →
    layer.Chosen Hands key

theorem OnlyChosen.quiet {Hands : Key → Option BlobMeta → Prop} {start s t : σ}
    {progress : CleanupProgress} (h : self.OnlyChosen Hands start progress s)
    (hquiet : ∀ key, Present self.inner s key → Present self.inner t key) :
    self.OnlyChosen Hands start progress t :=
  ⟨h.batch, fun key hstart hgone => h.gone key hstart fun hs => hgone (hquiet key hs)⟩

theorem flush_onlyChosen (hcontract : VisitContract self.inner Hands) {start s : σ}
    {progress : CleanupProgress} (h : self.OnlyChosen (Hands start) start progress s) :
    self.OnlyChosen (Hands start) start (execLocal self.flush progress s).1.2
      (execLocal self.flush progress s).2 := by
  rw [flush, execLocal_bind, execLocal_getLocal]
  by_cases hempty : progress.batch = []
  · simp only [hempty, if_true, execLocal_pure]
    exact h
  · simp only [hempty, if_false]
    have hgone : ∀ key, Present self.inner start key →
        ¬Present self.inner (exec (self.inner.delete progress.batch) s).2 key →
          self.Chosen (Hands start) key := by
      intro key hstart hnot
      by_cases hkey : key ∈ progress.batch
      · exact h.batch key hkey
      · exact h.gone key hstart fun hs => hnot (hcontract.delete_others hs hkey)
    rw [execLocal_bind, execLocal_withLocal]
    generalize exec (self.inner.delete progress.batch) s = deleted at hgone
    obtain ⟨r, t⟩ := deleted
    cases r with
    | ok _ => exact ⟨by simp, hgone⟩
    | error e => exact ⟨h.batch, hgone⟩

/-- One call of the visitor. -/
theorem visitor_onlyChosen (hcontract : VisitContract self.inner Hands) {start s : σ}
    {progress : CleanupProgress} (h : self.OnlyChosen (Hands start) start progress s)
    {key : Key} {info : Option BlobMeta} (hhanded : Hands start key info) :
    self.OnlyChosen (Hands start) start (execLocal (self.visitor.visit key info) progress s).1.2
      (execLocal (self.visitor.visit key info) progress s).2 := by
  have hclock := h.quiet (hcontract.clock s)
  rw [visitor, execLocal_bind, execLocal_performLocal]
  by_cases hchosen : self.predicate key
      (info.getD (BlobMeta.forKey key (Clock.utcNow (m := StateM σ) s).1)) = true
  swap
  · simp only [hchosen]
    exact hclock
  simp only [hchosen, if_true]
  rw [execLocal_bind, execLocal_getLocal]
  simp only
  rw [execLocal_bind, execLocal_setLocal]
  simp only
  have hpushed : self.OnlyChosen (Hands start) start
      { progress with batch := progress.batch ++ [key] } (Clock.utcNow (m := StateM σ) s).2 := by
    refine ⟨fun other hother => ?_, hclock.gone⟩
    obtain hother | hother := List.mem_append.mp hother
    · exact h.batch other hother
    · obtain rfl := List.mem_singleton.mp hother
      exact ⟨info, s, hhanded, hchosen⟩
  by_cases hfull : self.batchSize ≤ progress.batch.length + 1
  · simp only [hfull, if_true]
    have hflushed := flush_onlyChosen hcontract hpushed
    rw [execLocal_bind]
    generalize execLocal self.flush _ _ = flushed at hflushed
    obtain ⟨⟨r, k⟩, t⟩ := flushed
    cases r with
    | ok _ => exact hflushed
    | error e => exact hflushed
  · simp only [hfull, if_false, execLocal_pure]
    exact hpushed

/-- A whole walk. -/
theorem visitRun_onlyChosen (hcontract : VisitContract self.inner Hands) {start s : σ}
    {progress : CleanupProgress} {out : (Except BlobStorageError Unit × CleanupProgress) × σ}
    (hrun : VisitRun self.inner (Hands start) self.visitor progress s out)
    (h : self.OnlyChosen (Hands start) start progress s) :
    self.OnlyChosen (Hands start) start out.1.2 out.2 := by
  induction hrun with
  | ends result quiet => exact h.quiet quiet
  | next quiet handed call rest ih =>
      have hstep := visitor_onlyChosen hcontract (h.quiet quiet) handed
      rw [call] at hstep
      exact ih hstep
  | stopped quiet handed call =>
      have hstep := visitor_onlyChosen hcontract (h.quiet quiet) handed
      rw [call] at hstep
      exact hstep
  | failed quiet handed call =>
      have hstep := visitor_onlyChosen hcontract (h.quiet quiet) handed
      rw [call] at hstep
      exact hstep

theorem flush_reports (hcontract : VisitContract self.inner Hands) {s : σ}
    {progress : CleanupProgress} {key : Key} {info : BlobMeta}
    (h : Reports self.inner (execLocal self.flush progress s).2 key info) :
    Reports self.inner s key info := by
  rw [flush, execLocal_bind, execLocal_getLocal] at h
  by_cases hempty : progress.batch = []
  · simp only [hempty, if_true, execLocal_pure] at h
    exact h
  · simp only [hempty, if_false] at h
    rw [execLocal_bind, execLocal_withLocal] at h
    have hdeleted : Reports self.inner (exec (self.inner.delete progress.batch) s).2 key info := by
      generalize exec (self.inner.delete progress.batch) s = deleted at h ⊢
      obtain ⟨r, t⟩ := deleted
      cases r <;> exact h
    exact hcontract.delete_reports hdeleted

/-- The visitor only ever deletes. -/
theorem visitor_reports (hcontract : VisitContract self.inner Hands) (key : Key)
    (info : Option BlobMeta) (progress : CleanupProgress) (s : σ) (other : Key) (about : BlobMeta)
    (h : Reports self.inner (execLocal (self.visitor.visit key info) progress s).2 other about) :
    Reports self.inner s other about := by
  refine hcontract.clock_reports s other about ?_
  rw [visitor, execLocal_bind, execLocal_performLocal] at h
  by_cases hchosen : self.predicate key
      (info.getD (BlobMeta.forKey key (Clock.utcNow (m := StateM σ) s).1)) = true
  swap
  · simp only [hchosen] at h
    exact h
  simp only [hchosen, if_true] at h
  rw [execLocal_bind, execLocal_getLocal] at h
  simp only at h
  rw [execLocal_bind, execLocal_setLocal] at h
  simp only at h
  by_cases hfull : self.batchSize ≤ progress.batch.length + 1
  · simp only [hfull, if_true] at h
    rw [execLocal_bind] at h
    have hflushed : Reports self.inner (execLocal self.flush
        { progress with batch := progress.batch ++ [key] }
        (Clock.utcNow (m := StateM σ) s).2).2 other about := by
      generalize execLocal self.flush _ _ = flushed at h ⊢
      obtain ⟨⟨r, k⟩, t⟩ := flushed
      cases r <;> exact h
    exact flush_reports hcontract hflushed
  · simp only [hfull, if_false, execLocal_pure] at h
    exact h

/-- Whatever comes of the walk, what it has deleted it has chosen. -/
theorem sweep_onlyChosen (hcontract : VisitContract self.inner Hands) (s : σ) {key : Key}
    (hbefore : Present self.inner s key) (hafter : ¬Present self.inner (exec self.sweep s).2 key) :
    self.Chosen (Hands s) key := by
  have hstart : self.OnlyChosen (Hands s) s { batch := [], deletedCount := 0 } s :=
    ⟨by simp, fun other hthere hgone => absurd hthere hgone⟩
  have hwalk := visitRun_onlyChosen hcontract
    (hcontract.visit (prefixFilter []) self.visitor (visitor_reports hcontract) _ s) hstart
  have hend : self.OnlyChosen (Hands s) s
      (execLocal (do self.inner.visit (prefixFilter []) self.visitor; self.flush)
        { batch := [], deletedCount := 0 } s).1.2
      (execLocal (do self.inner.visit (prefixFilter []) self.visitor; self.flush)
        { batch := [], deletedCount := 0 } s).2 := by
    rw [execLocal_bind]
    generalize execLocal (self.inner.visit (prefixFilter []) self.visitor) _ s = walked at hwalk
    obtain ⟨⟨r, k⟩, t⟩ := walked
    cases r with
    | ok _ => exact flush_onlyChosen hcontract hwalk
    | error e => exact hwalk
  refine hend.gone key hbefore fun hpresent => hafter ?_
  rw [sweep, exec_bind, exec_scopeLocal]
  generalize execLocal _ _ s = ended at hpresent ⊢
  obtain ⟨⟨r, k⟩, t⟩ := ended
  cases r <;> exact hpresent

theorem cleanup_onlyChosen (hcontract : VisitContract self.inner Hands) (s : σ) {key : Key}
    (hbefore : Present self.inner s key) (hafter : ¬Present self.inner (exec self.cleanup s).2 key) :
    self.Chosen (Hands s) key := by
  obtain hstate | hstate := @exec_cleanup_state _ _ self s
  · exact sweep_onlyChosen hcontract s hbefore (hstate ▸ hafter)
  · exact absurd (hstate.symm ▸ hbefore) hafter

end Cleanup

end BlobCleanup

/-- For every inner store that meets the contract, in every state and for every
predicate: a blob that a cleanup deletes satisfies the predicate with the metadata that
the store itself reports, or the walk hands out no metadata of it and it satisfies the
predicate with the placeholder of the moment. -/
theorem cleanup_deletes_only [Clock (StateM σ)] {self : BlobCleanup (StateM σ)}
    {Hands : σ → Key → Option BlobMeta → Prop} (hcontract : VisitContract self.inner Hands)
    (s : σ) {key : Key} (hbefore : Present self.inner s key)
    (hafter : ¬Present self.inner (exec self.cleanup s).2 key) :
    (∃ info, Reports self.inner s key info ∧ self.predicate key info = true) ∨
      Hands s key none ∧ ∃ u, self.predicate key
        (BlobMeta.forKey key (Clock.utcNow (m := StateM σ) u).1) = true := by
  obtain ⟨info, u, hhanded, hchosen⟩ := BlobCleanup.cleanup_onlyChosen hcontract s hbefore hafter
  cases info with
  | some info => exact .inl ⟨info, hcontract.real hhanded, hchosen⟩
  | none => exact .inr ⟨hhanded, u, hchosen⟩

section MapStore

namespace MapBlobStore

variable {self : MapBlobStore} {s : MapState}

/-- The map store with the trait's own `visit`. -/
def withDefaultVisit (self : MapBlobStore) : BlobStore (StateM MapState) :=
  { self.toBlobStore with visit := defaultVisit self.list }

theorem present_iff {key : Key} :
    Present self.toBlobStore s key ↔ ValidKey key ∧ (s.find key).isSome := by
  change (exec (existsBlob key) s).1 = .ok true ↔ _
  by_cases hvalid : ValidKey key
  · rw [existsBlob, exec_bind_ok (exec_checkKey_of_valid s hvalid), exec_bind_ok (exec_getState s)]
    simp [hvalid]
  · obtain ⟨e, _, he⟩ := exec_checkKey_of_not_valid s hvalid
    rw [existsBlob, exec_bind_error he]
    simp [hvalid]

theorem exec_listWithMetadata (filter : ListFilter) :
    exec (self.toBlobStore.listWithMetadata filter) s =
      (.ok (sortByKey (self.infos s filter)), s) := rfl

/-- What the store reports is what it holds. -/
theorem reports_iff {key : Key} {info : BlobMeta} :
    Reports self.toBlobStore s key info ↔ ∃ blob, s.find key = some blob ∧ info = blob.info key := by
  constructor
  · rintro (⟨reader, hget⟩ | ⟨filter, infos, hlist, hmem, hkey⟩)
    · replace hget : (exec (getWithMetadata key) s).1 = .ok (info, reader) := hget
      by_cases hvalid : ValidKey key
      · rw [getWithMetadata, exec_bind_ok (exec_checkKey_of_valid s hvalid),
          exec_bind_ok (exec_getState s)] at hget
        cases hfind : s.find key with
        | none =>
            rw [hfind] at hget
            cases hget
        | some blob =>
            rw [hfind] at hget
            cases hget
            exact ⟨blob, rfl, rfl⟩
      · obtain ⟨e, _, he⟩ := exec_checkKey_of_not_valid s hvalid
        rw [getWithMetadata, exec_bind_error he] at hget
        cases hget
    · rw [exec_listWithMetadata] at hlist
      cases hlist
      rw [sortByKey, List.mem_insertionSort, mem_infos_iff] at hmem
      obtain ⟨key', blob, hfind, rfl, _⟩ := hmem
      obtain rfl : key' = key := hkey
      exact ⟨blob, hfind, rfl⟩
  · rintro ⟨blob, hfind, rfl⟩
    refine .inr ⟨suffixFilter [], _, by rw [exec_listWithMetadata], ?_, rfl⟩
    rw [sortByKey, List.mem_insertionSort, mem_infos_iff]
    exact ⟨key, blob, hfind, rfl, by simp, by simp⟩

theorem exec_delete (keys : List Key) :
    exec (delete keys) s = (.ok (), keys.foldl MapState.erase s) ∨
      ∃ e, exec (delete keys) s = (.error e, s) := by
  by_cases hvalid : ∀ key ∈ keys, ValidKey key
  · left
    rw [delete, exec_bind_ok (exec_checkKeys_of_valid s hvalid), exec_bind_ok (exec_getState s)]
    rfl
  · obtain ⟨e, _, he⟩ := exec_checkKeys_of_not_valid s hvalid
    exact .inr ⟨e, by rw [delete, exec_bind_error he]⟩

/-- A walk over entries that are fixed when it begins. -/
theorem visitEach_run {S : Type} {Hands : Key → Option BlobMeta → Prop}
    {store : BlobStore (StateM MapState)}
    (visitor : BlobVisitor (StateM MapState) S) {entries : List (Key × Option BlobMeta)}
    (hentries : ∀ entry ∈ entries, Hands entry.1 entry.2) (l : S) (s : MapState) :
    VisitRun store Hands visitor l s (execLocal (visitEach visitor entries) l s) := by
  induction entries generalizing l s with
  | nil => exact .ends (.ok ()) fun _ h => h
  | cons entry rest ih =>
      obtain ⟨key, info⟩ := entry
      rw [List.forall_mem_cons] at hentries
      rw [visitEach, execLocal_bind]
      cases hcall : execLocal (visitor.visit key info) l s with
      | mk rk t =>
          obtain ⟨r, k⟩ := rk
          cases r with
          | error e => exact .failed (fun _ h => h) hentries.1 hcall
          | ok more =>
              cases more with
              | false => exact .stopped (fun _ h => h) hentries.1 hcall
              | true => exact .next (fun _ h => h) hentries.1 hcall (ih hentries.2 k t)

theorem delete_others {keys : List Key} {key : Key} (h : Present self.toBlobStore s key)
    (hkey : key ∉ keys) : Present self.toBlobStore (exec (delete keys) s).2 key := by
  obtain hdone | ⟨e, hfailed⟩ := @exec_delete s keys
  · rw [hdone]
    rw [present_iff] at h ⊢
    rwa [MapState.find_eraseAll, if_neg hkey]
  · rw [hfailed]
    exact h

theorem delete_reports {keys : List Key} {key : Key} {info : BlobMeta}
    (h : Reports self.toBlobStore (exec (delete keys) s).2 key info) :
    Reports self.toBlobStore s key info := by
  obtain hdone | ⟨e, hfailed⟩ := @exec_delete s keys
  · rw [hdone, reports_iff] at h
    obtain ⟨blob, hfind, rfl⟩ := h
    rw [MapState.find_eraseAll] at hfind
    split at hfind
    · cases hfind
    · exact reports_iff.mpr ⟨blob, hfind, rfl⟩
  · rwa [hfailed] at h

/-- The walk of the map store hands out what the store reports. -/
theorem visitContract (self : MapBlobStore) :
    VisitContract self.toBlobStore fun s key info =>
      ∃ blob, s.find key = some blob ∧ info = some (blob.info key) where
  real := by
    rintro s key info ⟨blob, hfind, hinfo⟩
    exact reports_iff.mpr ⟨blob, hfind, Option.some.inj hinfo⟩
  clock := fun _ _ h => h
  clock_reports := fun _ _ _ h => h
  delete_others := delete_others
  delete_reports := delete_reports
  visit := by
    intro S filter visitor _ l s
    refine visitEach_run visitor ?_ l s
    intro entry hentry
    obtain ⟨info, hinfo, rfl⟩ := List.mem_map.mp hentry
    obtain ⟨key, blob, hfind, rfl, _⟩ := mem_infos_iff.mp hinfo
    exact ⟨blob, hfind, rfl⟩

/-- The trait's own walk hands out no metadata at all. -/
theorem defaultVisitContract (self : MapBlobStore) :
    VisitContract self.withDefaultVisit fun _ _ info => info = none where
  real := by
    rintro s key info ⟨⟩
  clock := fun _ _ h => h
  clock_reports := fun _ _ _ h => h
  delete_others := @delete_others self
  delete_reports := @delete_reports self
  visit := by
    intro S filter visitor _ l s
    refine visitEach_run visitor ?_ l s
    intro entry hentry
    obtain ⟨key, _, rfl⟩ := List.mem_map.mp hentry
    rfl

end MapBlobStore

/-- Two blobs, of one byte and of three. -/
def twoBlobs : MapState := (MapState.empty.write ['s'] [1]).write ['l'] [1, 2, 3]

/-- Delete what is empty. -/
def emptyBlobs (inner : BlobStore (StateM MapState)) : BlobCleanup (StateM MapState) where
  inner := inner
  predicate _ info := decide (info.storedSize = 0)
  batchSize := BlobCleanup.defaultBatchSize

/-- Neither blob is empty, by the store's own account, and a cleanup over the trait's own
walk deletes both. -/
theorem placeholder_deletes_blob :
    VisitContract (MapBlobStore.withDefaultVisit ⟨false⟩) (fun _ _ info => info = none) ∧
    Present (MapBlobStore.withDefaultVisit ⟨false⟩) twoBlobs ['l'] ∧
    ¬Present (MapBlobStore.withDefaultVisit ⟨false⟩)
      (exec (emptyBlobs (MapBlobStore.withDefaultVisit ⟨false⟩)).cleanup twoBlobs).2 ['l'] ∧
    ∀ info, Reports (MapBlobStore.withDefaultVisit ⟨false⟩) twoBlobs ['l'] info →
      (emptyBlobs (MapBlobStore.withDefaultVisit ⟨false⟩)).predicate ['l'] info = false := by
  refine ⟨MapBlobStore.defaultVisitContract _, by decide, by decide, ?_⟩
  intro info hreports
  obtain ⟨blob, hfind, rfl⟩ := (@MapBlobStore.reports_iff ⟨false⟩ _ _ _).mp hreports
  cases hfind
  decide

/-- Delete what is longer than two bytes. -/
def largeBlobs : BlobCleanup (StateM MapState) where
  inner := MapBlobStore.toBlobStore ⟨false⟩
  predicate _ info := decide (2 < info.storedSize)
  batchSize := 1

theorem cleanup_deletes_only_large :
    ∃ info, Reports largeBlobs.inner twoBlobs ['l'] info ∧ largeBlobs.predicate ['l'] info = true := by
  have hcontract : VisitContract largeBlobs.inner _ := MapBlobStore.visitContract ⟨false⟩
  have hbefore : Present largeBlobs.inner twoBlobs ['l'] := by decide
  have hafter : ¬Present largeBlobs.inner (exec largeBlobs.cleanup twoBlobs).2 ['l'] := by decide
  obtain hreported | ⟨⟨blob, _, hnone⟩, _⟩ :=
    cleanup_deletes_only hcontract twoBlobs hbefore hafter
  · exact hreported
  · cases hnone

end MapStore

end BlobStorage
