import BlobStorage.Backend.Map
import BlobStorage.Cleanup
import BlobStorage.Walks

/-!
# A cleanup from one end of the store to the other

Over a store whose walk comes by every blob once, a cleanup passes the blobs that its predicate
chooses to `delete`, in the order of the walk and in batches of the batch size. A batch that
fails ends the walk: what comes after it stays.
-/

namespace BlobStorage

open Fallible Walking

variable {σ B : Type}

/-- What can be read off a state: the blobs that are there, and the batches that have been passed
to `delete`. -/
structure Ledger (σ B : Type) where
  held : σ → Key → Option B
  passed : σ → List (List Key)

namespace Ledger

structure Quiet (ledger : Ledger σ B) (s t : σ) : Prop where
  held : ledger.held t = ledger.held s
  passed : ledger.passed t = ledger.passed s

/-- The blobs that are there, each once. -/
structure Lists (ledger : Ledger σ B) (s : σ) (blobs : List (Key × B)) : Prop where
  once : (blobs.map Prod.fst).Nodup
  all : ∀ key blob, (key, blob) ∈ blobs ↔ ledger.held s key = some blob

end Ledger

/-- A best-effort `delete`, for which the keys of `Fixed` cannot be deleted: it processes all
others of a batch, and reports an error if there is one of these in it. -/
structure DeletesAllBut [Clock (StateM σ)] (store : BlobStore (StateM σ)) (ledger : Ledger σ B)
    (Fixed : Key → Prop) : Prop where
  delete : ∀ {s keys}, (∀ key ∈ keys, ledger.held s key ≠ none) →
    ∃ r t, exec (store.delete keys) s = (r, t) ∧ ledger.passed t = ledger.passed s ++ [keys] ∧
      (∀ key ∈ keys, ¬Fixed key → ledger.held t key = none) ∧
      (∀ key, key ∉ keys ∨ Fixed key → ledger.held t key = ledger.held s key) ∧
      ((∀ key ∈ keys, ¬Fixed key) → r = .ok ()) ∧
      ((∃ key ∈ keys, Fixed key) → ∃ report, r = .error (.batch report))
  clock : ∀ s, ledger.Quiet s (Clock.utcNow (m := StateM σ) s).2

namespace BlobCleanup

/-- How many keys a batch holds when it is deleted. -/
def limit (self : BlobCleanup (StateM σ)) : Nat := max self.batchSize 1

/-- The keys that the predicate chooses, in the order of the blobs. -/
def chosenKeys (self : BlobCleanup (StateM σ)) (about : Key → B → BlobMeta)
    (blobs : List (Key × B)) : List Key :=
  (blobs.filter fun blob => self.predicate blob.1 (about blob.1 blob.2)).map Prod.fst

/-- What a walk hands out of a blob. -/
def handed (about : Key → B → BlobMeta) (blob : Key × B) : Key × Option BlobMeta :=
  (blob.1, some (about blob.1 blob.2))

/-- The batches that have been passed to `delete` so far are gone, and nothing else. -/
structure Deleted (ledger : Ledger σ B) (Fixed : Key → Prop) (start : σ)
    (batches : List (List Key)) (s : σ) : Prop where
  passed : ledger.passed s = ledger.passed start ++ batches
  deletable : ∀ key ∈ batches.flatten, ¬Fixed key
  gone : ∀ key ∈ batches.flatten, ledger.held s key = none
  rest : ∀ key, key ∉ batches.flatten → ledger.held s key = ledger.held start key

/-- The batch `failing` has ended the cleanup. -/
structure Ended (ledger : Ledger σ B) (Fixed : Key → Prop) (start : σ) (batches : List (List Key))
    (failing : List Key) (t : σ) : Prop where
  deletable : ∀ key ∈ batches.flatten, ¬Fixed key
  fixed : ∃ key ∈ failing, Fixed key
  gone : ∀ key ∈ batches.flatten ++ failing, ¬Fixed key → ledger.held t key = none
  rest : ∀ key, key ∉ batches.flatten ++ failing → ledger.held t key = ledger.held start key

theorem Deleted.quiet {ledger : Ledger σ B} {Fixed : Key → Prop} {start s t : σ}
    {batches : List (List Key)} (h : Deleted ledger Fixed start batches s)
    (hquiet : ledger.Quiet s t) : Deleted ledger Fixed start batches t where
  passed := hquiet.passed.trans h.passed
  deletable := h.deletable
  gone key hkey := by rw [hquiet.held, h.gone key hkey]
  rest key hkey := by rw [hquiet.held, h.rest key hkey]

section Flush

variable {self : BlobCleanup (StateM σ)} {s t : σ} {batch : List Key} {count : Nat}

theorem execLocal_flush_nil : execLocal self.flush ⟨[], count⟩ s = ((.ok (), ⟨[], count⟩), s) := rfl

theorem execLocal_flush_ok (hbatch : batch ≠ [])
    (hdelete : exec (self.inner.delete batch) s = (.ok (), t)) :
    execLocal self.flush ⟨batch, count⟩ s = ((.ok (), ⟨[], count + batch.length⟩), t) := by
  rw [flush, execLocal_bind, execLocal_getLocal]
  dsimp only
  rw [if_neg hbatch, execLocal_bind, execLocal_withLocal, hdelete]
  rfl

theorem execLocal_flush_error {e : BlobStorageError} (hbatch : batch ≠ [])
    (hdelete : exec (self.inner.delete batch) s = (.error e, t)) :
    execLocal self.flush ⟨batch, count⟩ s = ((.error e, ⟨batch, count⟩), t) := by
  rw [flush, execLocal_bind, execLocal_getLocal]
  dsimp only
  rw [if_neg hbatch, execLocal_bind, execLocal_withLocal, hdelete]

end Flush

section Sweep

variable [Clock (StateM σ)] {self : BlobCleanup (StateM σ)} {ledger : Ledger σ B}
variable {Fixed : Key → Prop} {about : Key → B → BlobMeta} {start s : σ}
variable {batches : List (List Key)} {batch : List Key}

/-- What comes of flushing a batch of keys that are there. -/
theorem flush_cases (hdeletes : DeletesAllBut self.inner ledger Fixed) (count : Nat)
    (h : Deleted ledger Fixed start batches s) (hbatch : batch ≠ [])
    (hthere : ∀ key ∈ batch, ledger.held s key ≠ none) :
    (∃ t, execLocal self.flush ⟨batch, count⟩ s = ((.ok (), ⟨[], count + batch.length⟩), t) ∧
        Deleted ledger Fixed start (batches ++ [batch]) t) ∨
      ∃ e t, execLocal self.flush ⟨batch, count⟩ s = ((.error e, ⟨batch, count⟩), t) ∧
        Ended ledger Fixed start batches batch t := by
  obtain ⟨r, t, hdelete, hpassed, hdeleted, hkept, hok, herror⟩ := hdeletes.delete hthere
  have hflat : (batches ++ [batch]).flatten = batches.flatten ++ batch := by simp
  have hgone : ∀ key ∈ batches.flatten, ledger.held t key = none := by
    intro key hkey
    by_cases hmem : key ∈ batch
    · exact hdeleted key hmem (h.deletable key hkey)
    · rw [hkept key (.inl hmem), h.gone key hkey]
  have hrest : ∀ key, key ∉ batches.flatten ++ batch →
      ledger.held t key = ledger.held start key := by
    intro key hkey
    rw [List.mem_append, not_or] at hkey
    rw [hkept key (.inl hkey.2), h.rest key hkey.1]
  by_cases hfixed : ∃ key ∈ batch, Fixed key
  · obtain ⟨report, rfl⟩ := herror hfixed
    refine .inr ⟨_, t, execLocal_flush_error hbatch hdelete, h.deletable, hfixed, ?_, hrest⟩
    intro key hkey hnot
    obtain hearly | hlate := List.mem_append.mp hkey
    · exact hgone key hearly
    · exact hdeleted key hlate hnot
  · have hfree : ∀ key ∈ batch, ¬Fixed key := fun key hkey hbad => hfixed ⟨key, hkey, hbad⟩
    rw [hok hfree] at hdelete
    refine .inl ⟨t, execLocal_flush_ok hbatch hdelete, ?_, ?_, ?_, ?_⟩
    · rw [hpassed, h.passed, List.append_assoc]
    · rw [hflat, List.forall_mem_append]
      exact ⟨h.deletable, hfree⟩
    · rw [hflat, List.forall_mem_append]
      exact ⟨hgone, fun key hkey => hdeleted key hkey (hfree key hkey)⟩
    · rw [hflat]
      exact hrest

/-- Before each call: the chosen keys that the walk has come by are in full batches that have
been deleted, or in the batch that is being filled. -/
structure Sweeping (layer : BlobCleanup (StateM σ)) (ledger : Ledger σ B) (Fixed : Key → Prop)
    (start : σ) (sofar : List Key) (progress : CleanupProgress) (s : σ) : Prop where
  room : progress.batch.length < layer.limit
  batches : ∃ batches, Deleted ledger Fixed start batches s ∧
    (∀ batch ∈ batches, batch.length = layer.limit) ∧
    progress.deletedCount = batches.flatten.length ∧ sofar = batches.flatten ++ progress.batch

/-- One call of the visitor, for a blob that is there. -/
theorem visitor_sweeps (hdeletes : DeletesAllBut self.inner ledger Fixed) {sofar : List Key}
    {progress : CleanupProgress} (h : Sweeping self ledger Fixed start sofar progress s)
    {key : Key} (info : BlobMeta) (hthere : ∀ other ∈ sofar ++ [key], ledger.held start other ≠ none)
    (hnew : (sofar ++ [key]).Nodup) :
    (∃ k t, execLocal (self.visitor.visit key (some info)) progress s = ((.ok true, k), t) ∧
        Sweeping self ledger Fixed start
          (if self.predicate key info then sofar ++ [key] else sofar) k t) ∨
      ∃ e k t batches failing,
        execLocal (self.visitor.visit key (some info)) progress s = ((.error e, k), t) ∧
        self.predicate key info = true ∧ Ended ledger Fixed start batches failing t ∧
        (∀ batch ∈ batches, batch.length = self.limit) ∧ failing.length = self.limit ∧
        sofar ++ [key] = batches.flatten ++ failing := by
  obtain ⟨hroom, batches, hdeleted, hfull, hcount, hsofar⟩ := h
  obtain ⟨batch, count⟩ := progress
  have hdeleted := hdeleted.quiet (hdeletes.clock s)
  rw [visitor, execLocal_bind, execLocal_performLocal]
  dsimp only [Option.getD_some] at hroom hsofar hcount ⊢
  by_cases hchosen : self.predicate key info = true
  swap
  · rw [if_neg hchosen, if_neg hchosen]
    exact .inl ⟨_, _, rfl, hroom, batches, hdeleted, hfull, hcount, hsofar⟩
  rw [if_pos hchosen, if_pos hchosen, execLocal_bind, execLocal_getLocal]
  dsimp only
  rw [execLocal_bind, execLocal_setLocal]
  dsimp only
  have hpushed : sofar ++ [key] = batches.flatten ++ (batch ++ [key]) := by
    rw [hsofar, List.append_assoc]
  have hlength : (batch ++ [key]).length = batch.length + 1 := by simp
  by_cases hfullnow : self.batchSize ≤ batch.length + 1
  swap
  · rw [if_neg hfullnow]
    refine .inl ⟨_, _, rfl, ?_, batches, hdeleted, hfull, hcount, hpushed⟩
    rw [hlength]
    exact lt_of_lt_of_le (not_le.mp hfullnow) (Nat.le_max_left _ _)
  rw [if_pos hfullnow, execLocal_bind]
  have hlimit : (batch ++ [key]).length = self.limit := by
    rw [hlength]
    unfold limit at hroom ⊢
    omega
  have hstill : ∀ other ∈ batch ++ [key],
      ledger.held (Clock.utcNow (m := StateM σ) s).2 other ≠ none := by
    intro other hother
    have hmem : other ∈ sofar ++ [key] := by
      rw [hpushed]
      exact List.mem_append_right _ hother
    rw [hdeleted.rest other ?_]
    · exact hthere other hmem
    · rw [hpushed, List.nodup_append] at hnew
      exact fun hearly => hnew.2.2 other hearly other hother rfl
  obtain ⟨t, hflush, hafter⟩ | ⟨e, t, hflush, hended⟩ :=
    flush_cases hdeletes count hdeleted (by simp) hstill
  · refine .inl ⟨_, t, by rw [hflush]; rfl, ?_, batches ++ [batch ++ [key]], hafter, ?_, ?_, ?_⟩
    · exact lt_of_lt_of_le Nat.zero_lt_one (Nat.le_max_right _ _)
    · rw [List.forall_mem_append]
      refine ⟨hfull, fun other hother => ?_⟩
      rw [List.mem_singleton.mp hother, hlimit]
    · rw [hcount, List.flatten_append, List.length_append]
      simp
    · rw [hpushed]
      simp
  · exact .inr ⟨e, _, t, batches, batch ++ [key], by rw [hflush], hchosen, hended, hfull, hlimit,
      hpushed⟩

/-- How a cleanup can end: every chosen key is in a batch that was deleted, or one batch has
failed and the chosen keys after it were not tried. -/
inductive Outcome (layer : BlobCleanup (StateM σ)) (ledger : Ledger σ B) (Fixed : Key → Prop)
    (start : σ) (chosen : List Key) : Except BlobStorageError CleanupResult × σ → Prop where
  | whole {batches : List (List Key)} {t : σ} (deleted : Deleted ledger Fixed start batches t)
      (small : ∀ batch ∈ batches, batch.length ≤ layer.limit) (all : chosen = batches.flatten) :
      Outcome layer ledger Fixed start chosen (.ok { deletedCount := chosen.length }, t)
  | ended {batches : List (List Key)} {failing later : List Key} {t : σ} (e : BlobStorageError)
      (ended : Ended ledger Fixed start batches failing t)
      (full : ∀ batch ∈ batches, batch.length = layer.limit)
      (last : failing.length = layer.limit ∨ failing.length ≤ layer.limit ∧ later = [])
      (all : chosen = batches.flatten ++ failing ++ later) :
      Outcome layer ledger Fixed start chosen (.error e, t)

omit [Clock (StateM σ)] in
theorem chosenKeys_append (about : Key → B → BlobMeta) (seen rest : List (Key × B)) :
    self.chosenKeys about (seen ++ rest) =
      self.chosenKeys about seen ++ self.chosenKeys about rest := by
  simp [chosenKeys]

omit [Clock (StateM σ)] in
theorem chosenKeys_sublist (about : Key → B → BlobMeta) (blobs : List (Key × B)) :
    (self.chosenKeys about blobs).Sublist (blobs.map Prod.fst) :=
  List.filter_sublist.map _

/-- What a walk leaves for the cleanup to do. -/
def WalkLeaves (layer : BlobCleanup (StateM σ)) (ledger : Ledger σ B) (Fixed : Key → Prop)
    (start : σ) (chosen : List Key) (progress : CleanupProgress) (t : σ) :
    Ending BlobStorageError → Prop
  | .complete => Sweeping layer ledger Fixed start chosen progress t
  | .stopped => False
  | .broke _ => True
  | .failed _ => ∃ batches failing later, Ended ledger Fixed start batches failing t ∧
      (∀ batch ∈ batches, batch.length = layer.limit) ∧ failing.length = layer.limit ∧
      chosen = batches.flatten ++ failing ++ later

/-- Before a call: the walk has come by the blobs `seen`. -/
def MidWalk (layer : BlobCleanup (StateM σ)) (ledger : Ledger σ B) (Fixed : Key → Prop)
    (about : Key → B → BlobMeta) (start : σ) (blobs : List (Key × B))
    (entries : List (Key × Option BlobMeta)) (progress : CleanupProgress) (s : σ) : Prop :=
  ∃ seen rest, blobs = seen ++ rest ∧ entries = rest.map (handed about) ∧
    Sweeping layer ledger Fixed start (layer.chosenKeys about seen) progress s

/-- One call in a walk goes on, or a batch fails in it. -/
theorem calls_midWalk (hdeletes : DeletesAllBut self.inner ledger Fixed) {blobs : List (Key × B)}
    (hlists : ledger.Lists start blobs) {entry : Key × Option BlobMeta}
    {entries : List (Key × Option BlobMeta)} {progress k : CleanupProgress} {t : σ}
    {verdict : Verdict BlobStorageError}
    (h : MidWalk self ledger Fixed about start blobs (entry :: entries) progress s)
    (hcall : self.visitor.Calls entry progress s verdict k t) :
    verdict = .goOn ∧ MidWalk self ledger Fixed about start blobs entries k t ∨
      ∃ e, verdict = .fail e ∧
        WalkLeaves self ledger Fixed start (self.chosenKeys about blobs) k t (.failed e) := by
  obtain ⟨seen, rest, rfl, hentries, hsweeping⟩ := h
  obtain _ | ⟨⟨key, blob⟩, rest⟩ := rest
  · cases hentries
  obtain ⟨rfl, rfl⟩ := List.cons.inj hentries
  have hsublist : (self.chosenKeys about seen ++ [key]).Sublist
      ((seen ++ (key, blob) :: rest).map Prod.fst) := by
    rw [List.map_append, List.map_cons]
    exact (chosenKeys_sublist about seen).append ((List.nil_sublist _).cons_cons key)
  have hthere : ∀ other ∈ self.chosenKeys about seen ++ [key], ledger.held start other ≠ none := by
    intro other hother
    obtain ⟨⟨_, stored⟩, hmem, rfl⟩ := List.mem_map.mp (hsublist.subset hother)
    rw [(hlists.all _ stored).mp hmem]
    exact Option.some_ne_none _
  have hchosen : self.chosenKeys about (seen ++ [(key, blob)]) =
      if self.predicate key (about key blob) then self.chosenKeys about seen ++ [key]
      else self.chosenKeys about seen := by
    rw [chosenKeys_append]
    by_cases hpredicate : self.predicate key (about key blob) = true
    · simp [chosenKeys, hpredicate]
    · simp [chosenKeys, hpredicate]
  unfold BlobVisitor.Calls handed at hcall
  obtain ⟨k', t', hexec, hnext⟩ | ⟨e, k', t', batches, failing, hexec, hpredicate, hended, hfull,
      hlimit, hsofar⟩ := visitor_sweeps hdeletes hsweeping (about key blob) hthere
        (hsublist.nodup hlists.once)
  · rw [hexec] at hcall
    cases verdict with
    | goOn =>
        cases hcall
        refine .inl ⟨rfl, seen ++ [(key, blob)], rest, by simp, rfl, ?_⟩
        rw [hchosen]
        exact hnext
    | stop => cases hcall
    | fail e => cases hcall
  · rw [hexec] at hcall
    cases verdict with
    | goOn => cases hcall
    | stop => cases hcall
    | fail e' =>
        cases hcall
        refine .inr ⟨e, rfl, batches, failing, self.chosenKeys about rest, hended, hfull, hlimit, ?_⟩
        rw [← hsofar, List.append_cons, chosenKeys_append, hchosen, if_pos hpredicate]

/-- A whole walk. -/
theorem walk_sweeps (hdeletes : DeletesAllBut self.inner ledger Fixed) {blobs : List (Key × B)}
    (hlists : ledger.Lists start blobs) {left : List (Key × Option BlobMeta)}
    {progress : CleanupProgress} {t : σ} {ending : Ending BlobStorageError}
    (hwalk : Walk ledger.Quiet self.visitor.Calls (blobs.map (handed about))
      { batch := [], deletedCount := 0 } start ending left progress t) :
    WalkLeaves self ledger Fixed start (self.chosenKeys about blobs) progress t ending := by
  refine hwalk.rule (MidWalk self ledger Fixed about start blobs)
    (fun ending _ progress t =>
      WalkLeaves self ledger Fixed start (self.chosenKeys about blobs) progress t ending)
    ?_ ?_ ?_ ?_ ?_ ?_ ?_
  · rintro entries progress s t ⟨seen, rest, hblobs, hentries, hroom, batches, hdeleted, hfull⟩ hquiet
    exact ⟨seen, rest, hblobs, hentries, hroom, batches, hdeleted.quiet hquiet, hfull⟩
  · rintro progress s ⟨seen, rest, rfl, hentries, hsweeping⟩
    obtain rfl := List.map_eq_nil_iff.mp hentries.symm
    rw [List.append_nil]
    exact hsweeping
  · intro entries progress s e _
    trivial
  · intro entry rest progress s k t hmid hcall
    obtain ⟨_, hnext⟩ | ⟨e, hfailed, _⟩ := calls_midWalk hdeletes hlists hmid hcall
    · exact hnext
    · cases hfailed
  · intro entry rest progress s k t hmid hcall
    obtain ⟨hgoes, _⟩ | ⟨e, hfailed, _⟩ := calls_midWalk hdeletes hlists hmid hcall
    · cases hgoes
    · cases hfailed
  · intro entry rest progress s k t e hmid hcall
    obtain ⟨hgoes, _⟩ | ⟨e', hfailed, hleaves⟩ := calls_midWalk hdeletes hlists hmid hcall
    · cases hgoes
    · cases hfailed
      exact hleaves
  · refine ⟨[], blobs, rfl, rfl, lt_of_lt_of_le Nat.zero_lt_one (Nat.le_max_right _ _), [], ?_,
      by simp, rfl, rfl⟩
    exact ⟨(List.append_nil _).symm, by simp, by simp, fun _ _ => rfl⟩

/-- A whole walk, with the last flush. -/
theorem sweep_outcome (hdeletes : DeletesAllBut self.inner ledger Fixed)
    {blobs : List (Key × B)} (hlists : ledger.Lists start blobs)
    {ending : Ending BlobStorageError} (hending : ∀ e, ending ≠ .broke e)
    (hwalk : WalksOver self.inner (prefixFilter []) self.visitor ledger.Quiet self.visitor.Calls
      (blobs.map (handed about)) { batch := [], deletedCount := 0 } start ending) :
    Outcome self ledger Fixed start (self.chosenKeys about blobs) (exec self.sweep start) := by
  obtain ⟨left, progress, t, hexec, hwalk⟩ := hwalk
  have hleaves := walk_sweeps hdeletes hlists hwalk
  rw [sweep, exec_bind, exec_scopeLocal, execLocal_bind, hexec]
  cases ending with
  | stopped => exact hleaves.elim
  | broke e => exact absurd rfl (hending e)
  | failed e =>
      obtain ⟨batches, failing, later, hended, hfull, hlimit, hall⟩ := hleaves
      exact .ended e hended hfull (.inl hlimit) hall
  | complete =>
      obtain ⟨hroom, batches, hdeleted, hfull, hcount, hall⟩ := hleaves
      obtain ⟨batch, count⟩ := progress
      have hsmall : ∀ other ∈ batches, other.length ≤ self.limit :=
        fun other hother => Nat.le_of_eq (hfull other hother)
      dsimp only [Ending.result] at hroom hcount hall ⊢
      by_cases hbatch : batch = []
      · subst hbatch
        rw [List.append_nil] at hall
        have hwhole := Outcome.whole hdeleted hsmall hall
        rw [execLocal_flush_nil]
        rw [hall, ← hcount] at hwhole
        rw [hall]
        exact hwhole
      · have hsublist := @chosenKeys_sublist _ _ self about blobs
        have hnodup := hsublist.nodup hlists.once
        have hthere : ∀ other ∈ batch, ledger.held t other ≠ none := by
          intro other hother
          have hmem : other ∈ self.chosenKeys about blobs := by
            rw [hall]
            exact List.mem_append_right _ hother
          obtain ⟨⟨_, stored⟩, hstored, rfl⟩ := List.mem_map.mp (hsublist.subset hmem)
          rw [hall, List.nodup_append] at hnodup
          rw [hdeleted.rest _ fun hearly => hnodup.2.2 _ hearly _ hother rfl,
            (hlists.all _ stored).mp hstored]
          exact Option.some_ne_none _
        obtain ⟨u, hflush, hafter⟩ | ⟨e, u, hflush, hended⟩ :=
          flush_cases hdeletes count hdeleted hbatch hthere
        · have hwhole : Outcome self ledger Fixed start (self.chosenKeys about blobs) _ :=
            .whole hafter (List.forall_mem_append.mpr ⟨hsmall, fun other hother => by
              rw [List.mem_singleton.mp hother]
              exact hroom.le⟩) (by rw [hall]; simp)
          rw [hflush]
          rw [hall, List.length_append, ← hcount] at hwhole
          rw [hall]
          exact hwhole
        · rw [hflush]
          refine .ended e hended hfull (.inr ⟨hroom.le, rfl⟩) ?_
          rw [hall, List.append_nil]

omit [Clock (StateM σ)] in
theorem mem_chosenKeys {blobs : List (Key × B)} (hlists : ledger.Lists start blobs) {key : Key} :
    key ∈ self.chosenKeys about blobs ↔
      ∃ blob, ledger.held start key = some blob ∧ self.predicate key (about key blob) = true := by
  unfold chosenKeys
  rw [List.mem_map]
  constructor
  · rintro ⟨⟨_, blob⟩, hmem, rfl⟩
    obtain ⟨hblob, hpredicate⟩ := List.mem_filter.mp hmem
    exact ⟨blob, (hlists.all _ blob).mp hblob, hpredicate⟩
  · rintro ⟨blob, hheld, hpredicate⟩
    exact ⟨(key, blob), List.mem_filter.mpr ⟨(hlists.all key blob).mpr hheld, hpredicate⟩, rfl⟩

/-- After the batch in which the first key of `Fixed` falls there are only keys of `Fixed`. -/
def FailuresLast (layer : BlobCleanup (StateM σ)) (Fixed : Key → Prop) (chosen : List Key) : Prop :=
  ∀ front key back, chosen = front ++ key :: back → (∀ other ∈ front, ¬Fixed other) → Fixed key →
    ∀ other ∈ chosen.drop ((front.length / layer.limit + 1) * layer.limit), Fixed other

omit [Clock (StateM σ)] in
theorem length_flatten_full {batches : List (List Key)} {limit : Nat}
    (h : ∀ batch ∈ batches, batch.length = limit) :
    batches.flatten.length = batches.length * limit := by
  induction batches with
  | nil => simp
  | cons batch rest ih =>
      rw [List.forall_mem_cons] at h
      rw [List.flatten_cons, List.length_append, h.1, ih h.2, List.length_cons, Nat.add_mul,
        Nat.one_mul, Nat.add_comm]

/-- Where something holds of a member, there is a first one. -/
theorem exists_first {α : Type} {P : α → Prop} {xs : List α} (h : ∃ x ∈ xs, P x) :
    ∃ front x back, xs = front ++ x :: back ∧ (∀ y ∈ front, ¬P y) ∧ P x := by
  induction xs with
  | nil => simp at h
  | cons first rest ih =>
      by_cases hfirst : P first
      · exact ⟨[], first, rest, rfl, by simp, hfirst⟩
      · obtain ⟨x, hmem, hx⟩ := h
        obtain rfl | hrest := List.mem_cons.mp hmem
        · exact absurd hx hfirst
        · obtain ⟨front, y, back, rfl, hfront, hy⟩ := ih ⟨x, hrest, hx⟩
          exact ⟨first :: front, y, back, rfl, List.forall_mem_cons.mpr ⟨hfirst, hfront⟩, hy⟩

omit [Clock (StateM σ)] in
/-- Where the first undeletable key falls, when a batch has failed. -/
theorem first_fixed {batches : List (List Key)} {failing later front back : List Key} {key : Key}
    (hfull : ∀ batch ∈ batches, batch.length = self.limit) (hlength : failing.length ≤ self.limit)
    (hfree : ∀ other ∈ batches.flatten, ¬Fixed other) (hfixed : ∃ other ∈ failing, Fixed other)
    (hsplit : batches.flatten ++ failing ++ later = front ++ key :: back)
    (hfront : ∀ other ∈ front, ¬Fixed other) (hkey : Fixed key) :
    front.length / self.limit = batches.length := by
  obtain ⟨bad, hbad, hbadfixed⟩ := hfixed
  have hbehind : ∃ middle, front = batches.flatten ++ middle ∧
      failing ++ later = middle ++ key :: back := by
    rw [List.append_assoc] at hsplit
    obtain ⟨middle, hmiddle, hrest⟩ | ⟨middle, hmiddle, hrest⟩ := List.append_eq_append_iff.mp hsplit
    · exact ⟨middle, hmiddle, hrest⟩
    · obtain _ | ⟨first, middle⟩ := middle
      · exact ⟨[], by rw [hmiddle, List.append_nil, List.append_nil], hrest.symm⟩
      · cases hrest
        refine absurd hkey (hfree key ?_)
        rw [hmiddle]
        simp
  obtain ⟨middle, hmiddle, hrest⟩ := hbehind
  have hshort : middle.length < failing.length := by
    obtain ⟨tail, htail, hlater⟩ | ⟨tail, htail, hlater⟩ := List.append_eq_append_iff.mp hrest
    · refine absurd hbadfixed (hfront bad ?_)
      rw [hmiddle, htail]
      simp [hbad]
    · obtain _ | ⟨first, tail⟩ := tail
      · refine absurd hbadfixed (hfront bad ?_)
        rw [hmiddle, ← List.append_nil middle, ← htail]
        simp [hbad]
      · rw [htail, List.length_append, List.length_cons]
        omega
  rw [hmiddle, List.length_append, length_flatten_full hfull, Nat.add_comm, Nat.mul_comm,
    Nat.add_mul_div_left _ _ (by omega), Nat.div_eq_of_lt (by omega), Nat.zero_add]

end Sweep

end BlobCleanup

section Results

open BlobCleanup

variable [Clock (StateM σ)] {self : BlobCleanup (StateM σ)} {ledger : Ledger σ B}
variable {about : Key → B → BlobMeta} {s : σ} {blobs : List (Key × B)}
variable {ending : Ending BlobStorageError}

theorem sweep_exact (hdeletes : DeletesAllBut self.inner ledger fun _ => False)
    (hlists : ledger.Lists s blobs) (hending : ∀ e, ending ≠ .broke e)
    (hwalk : WalksOver self.inner (prefixFilter []) self.visitor ledger.Quiet self.visitor.Calls
      (blobs.map (handed about)) { batch := [], deletedCount := 0 } s ending) :
    ∃ batches t,
      exec self.sweep s = (.ok { deletedCount := (self.chosenKeys about blobs).length }, t) ∧
      ledger.passed t = ledger.passed s ++ batches ∧
      batches.flatten = self.chosenKeys about blobs ∧ batches.flatten.Nodup ∧
      (∀ batch ∈ batches, batch.length ≤ max self.batchSize 1) ∧
      ∀ key, ledger.held t key =
        (ledger.held s key).filter fun blob => !self.predicate key (about key blob) := by
  have hnodup := (@chosenKeys_sublist _ _ self about blobs).nodup hlists.once
  have houtcome := sweep_outcome hdeletes hlists hending hwalk
  generalize hout : exec self.sweep s = out at houtcome
  cases houtcome with
  | ended e ended full last all =>
      obtain ⟨key, _, hfixed⟩ := ended.fixed
      exact hfixed.elim
  | @whole batches t deleted small all =>
      refine ⟨batches, t, rfl, deleted.passed, all.symm, all ▸ hnodup, small, fun key => ?_⟩
      by_cases hkey : key ∈ batches.flatten
      · rw [deleted.gone key hkey]
        rw [← all] at hkey
        obtain ⟨blob, hheld, hpredicate⟩ := (mem_chosenKeys hlists).mp hkey
        rw [hheld]
        simp [Option.filter_some, hpredicate]
      · rw [deleted.rest key hkey]
        rw [← all] at hkey
        cases hheld : ledger.held s key with
        | none => rfl
        | some blob =>
            have hpredicate : ¬self.predicate key (about key blob) = true :=
              fun hpredicate => hkey ((mem_chosenKeys hlists).mpr ⟨blob, hheld, hpredicate⟩)
            simp [Option.filter_some, hpredicate]

/-- Where every delete succeeds, a cleanup passes each chosen key to `delete` once, in batches
of at most the batch size, and leaves the other blobs as they are. With a batch size that no
vector of keys can have it panics and touches nothing. -/
theorem cleanup_exact (hdeletes : DeletesAllBut self.inner ledger fun _ => False)
    (hlists : ledger.Lists s blobs) (hending : ∀ e, ending ≠ .broke e)
    (hwalk : WalksOver self.inner (prefixFilter []) self.visitor ledger.Quiet self.visitor.Calls
      (blobs.map (handed about)) { batch := [], deletedCount := 0 } s ending) :
    (self.batchSize ≤ maxCapacity → ∃ batches t,
      exec self.cleanup s =
        (.ok (.done { deletedCount := (self.chosenKeys about blobs).length }), t) ∧
      ledger.passed t = ledger.passed s ++ batches ∧
      batches.flatten = self.chosenKeys about blobs ∧ batches.flatten.Nodup ∧
      (∀ batch ∈ batches, batch.length ≤ max self.batchSize 1) ∧
      ∀ key, ledger.held t key =
        (ledger.held s key).filter fun blob => !self.predicate key (about key blob)) ∧
    (maxCapacity < self.batchSize → exec self.cleanup s = (.ok .panicked, s)) := by
  refine ⟨fun hbatchSize => ?_, fun hbatchSize => exec_cleanup_of_lt hbatchSize s⟩
  obtain ⟨batches, t, hexec, hswept⟩ := sweep_exact hdeletes hlists hending hwalk
  refine ⟨batches, t, ?_, hswept⟩
  rw [exec_cleanup_of_le hbatchSize, hexec]
  rfl

theorem sweep_deletes_deletable_iff {Fixed : Key → Prop}
    (hdeletes : DeletesAllBut self.inner ledger Fixed)
    (hlists : ledger.Lists s blobs) (hending : ∀ e, ending ≠ .broke e)
    (hwalk : WalksOver self.inner (prefixFilter []) self.visitor ledger.Quiet self.visitor.Calls
      (blobs.map (handed about)) { batch := [], deletedCount := 0 } s ending) :
    (∀ key ∈ self.chosenKeys about blobs, ¬Fixed key →
        ledger.held (exec self.sweep s).2 key = none) ↔
      self.FailuresLast Fixed (self.chosenKeys about blobs) := by
  have hnodup := (@chosenKeys_sublist _ _ self about blobs).nodup hlists.once
  have houtcome := sweep_outcome hdeletes hlists hending hwalk
  generalize exec self.sweep s = out at houtcome
  cases houtcome with
  | @whole batches t deleted small all =>
      rw [all]
      refine iff_of_true (fun key hkey _ => deleted.gone key hkey) ?_
      intro front key back hsplit _ hkey
      refine absurd hkey (deleted.deletable key ?_)
      rw [hsplit]
      simp
  | @ended batches failing later t e ended full last all =>
      have hlength : failing.length ≤ self.limit := by
        obtain hlast | hlast := last
        · exact hlast.le
        · exact hlast.1
      have hlater : ∀ key ∈ later, ledger.held t key = ledger.held s key ∧
          ledger.held s key ≠ none := by
        intro key hkey
        rw [all, List.nodup_append] at hnodup
        have hmem : key ∈ self.chosenKeys about blobs := by
          rw [all]
          exact List.mem_append_right _ hkey
        obtain ⟨blob, hheld, _⟩ := (mem_chosenKeys hlists).mp hmem
        rw [hheld]
        refine ⟨?_, Option.some_ne_none _⟩
        rw [← hheld]
        exact ended.rest key fun hearly => hnodup.2.2 key hearly key hkey rfl
      have hdrop : (self.chosenKeys about blobs).drop ((batches.length + 1) * self.limit) = later := by
        rw [all]
        obtain hlast | ⟨hlast, rfl⟩ := last
        · apply List.drop_left'
          rw [List.length_append, length_flatten_full full, hlast, Nat.add_mul, Nat.one_mul]
        · apply List.drop_eq_nil_of_le
          rw [List.append_nil, List.length_append, length_flatten_full full, Nat.add_mul,
            Nat.one_mul]
          omega
      constructor
      · intro h front key back hsplit hfront hkey other hother
        rw [first_fixed full hlength ended.deletable ended.fixed (all.symm.trans hsplit) hfront hkey,
          hdrop] at hother
        by_contra hfree
        obtain ⟨hsame, hthere⟩ := hlater other hother
        refine hthere (hsame.symm.trans (h other ?_ hfree))
        rw [all]
        exact List.mem_append_right _ hother
      · intro h key hkey hfree
        rw [all] at hkey
        obtain hearly | hlate := List.mem_append.mp hkey
        · exact ended.gone key hearly hfree
        · refine absurd ?_ hfree
          obtain ⟨stuck, hstuck, hfixed⟩ := ended.fixed
          obtain ⟨front, bad, back, hsplit, hfront, hbad⟩ :=
            @exists_first _ Fixed (self.chosenKeys about blobs) ⟨stuck, by simp [all, hstuck], hfixed⟩
          have hall := h front bad back hsplit hfront hbad
          rw [first_fixed full hlength ended.deletable ended.fixed (all.symm.trans hsplit) hfront hbad,
            hdrop] at hall
          exact hall key hlate

/-- A cleanup deletes all that the predicate chooses and that can be deleted exactly when no such
key comes after the batch in which the first undeletable one falls, and the batch can be allocated
unless there is nothing to delete. -/
theorem cleanup_deletes_deletable_iff {Fixed : Key → Prop}
    (hdeletes : DeletesAllBut self.inner ledger Fixed)
    (hlists : ledger.Lists s blobs) (hending : ∀ e, ending ≠ .broke e)
    (hwalk : WalksOver self.inner (prefixFilter []) self.visitor ledger.Quiet self.visitor.Calls
      (blobs.map (handed about)) { batch := [], deletedCount := 0 } s ending) :
    (∀ key blob, ledger.held s key = some blob → self.predicate key (about key blob) = true →
        ¬Fixed key → ledger.held (exec self.cleanup s).2 key = none) ↔
      self.FailuresLast Fixed (self.chosenKeys about blobs) ∧
        (self.batchSize ≤ maxCapacity ∨ ∀ key ∈ self.chosenKeys about blobs, Fixed key) := by
  have hkeys : (∀ key blob, ledger.held s key = some blob →
      self.predicate key (about key blob) = true → ¬Fixed key →
        ledger.held (exec self.cleanup s).2 key = none) ↔
      ∀ key ∈ self.chosenKeys about blobs, ¬Fixed key →
        ledger.held (exec self.cleanup s).2 key = none := by
    constructor
    · intro h key hkey
      obtain ⟨blob, hheld, hpredicate⟩ := (mem_chosenKeys hlists).mp hkey
      exact h key blob hheld hpredicate
    · intro h key blob hheld hpredicate
      exact h key ((mem_chosenKeys hlists).mpr ⟨blob, hheld, hpredicate⟩)
  rw [hkeys]
  obtain hbatchSize | hbatchSize := Nat.lt_or_ge maxCapacity self.batchSize
  · rw [exec_cleanup_of_lt hbatchSize]
    constructor
    · intro h
      have hfixed : ∀ key ∈ self.chosenKeys about blobs, Fixed key := by
        intro key hkey
        by_contra hfree
        obtain ⟨blob, hheld, _⟩ := (mem_chosenKeys hlists).mp hkey
        rw [h key hkey hfree] at hheld
        cases hheld
      exact ⟨fun _ _ _ _ _ _ other hother => hfixed other (List.mem_of_mem_drop hother),
        .inr hfixed⟩
    · rintro ⟨_, hsmall | hfixed⟩ key hkey hfree
      · omega
      · exact absurd (hfixed key hkey) hfree
  · rw [exec_cleanup_of_le hbatchSize,
      ← sweep_deletes_deletable_iff hdeletes hlists hending hwalk]
    exact ⟨fun h => ⟨h, .inl hbatchSize⟩, fun h => h.1⟩

end Results

section Samples

/-- A map and the batches that have been passed to `delete`. -/
structure LockedState where
  objects : MapState
  passed : List (List Key)

instance : Clock (StateM LockedState) where
  utcNow := fun s => (s.objects.clock, s)

namespace LockedState

def ledger : Ledger LockedState StoredBlob where
  held s := s.objects.find
  passed s := s.passed

/-- All blobs, in the order of the map. -/
def blobs (s : LockedState) : List (Key × StoredBlob) :=
  s.objects.objects.entries.map fun entry => (entry.1, entry.2)

theorem lists (s : LockedState) : ledger.Lists s s.blobs where
  once := by
    unfold blobs
    rw [List.map_map]
    exact s.objects.objects.nodupKeys
  all := by
    intro key blob
    unfold blobs
    rw [List.mem_map]
    refine Iff.trans ⟨?_, fun h => ⟨⟨key, blob⟩, h, rfl⟩⟩ AList.mem_lookup_iff.symm
    rintro ⟨entry, hentry, hsame⟩
    cases hsame
    exact hentry

end LockedState

/-- The map store of which some keys cannot be deleted. -/
structure LockingStore where
  locked : List Key

namespace LockingStore

def onMap {α : Type} (x : Fallible (StateM MapState) α) : Fallible (StateM LockedState) α :=
  ExceptT.mk fun s => ((exec x s.objects).1, { s with objects := (exec x s.objects).2 })

def delete (store : LockingStore) (keys : List Key) : Fallible (StateM LockedState) Unit := do
  let s ← getState
  let free := keys.filter fun key => decide (key ∉ store.locked)
  setState { objects := free.foldl MapState.erase s.objects, passed := s.passed ++ [keys] }
  if free = keys then pure ()
  else throw (.batch {
    succeeded := free
    errors := (keys.filter fun key => decide (key ∈ store.locked)).map fun key =>
      { key, error := .permissionDenied "locked" } })

def visit {S : Type} (filter : ListFilter) (visitor : BlobVisitor (StateM LockedState) S) :
    Fallible (StateT S (StateM LockedState)) Unit := do
  let s ← withLocal getState
  visitEach visitor ((s.blobs.filter fun blob => filter.matchesBlob blob.1 none).map
    (BlobCleanup.handed fun key blob => blob.info key))

def toBlobStore (store : LockingStore) : BlobStore (StateM LockedState) where
  put blobs := onMap (MapBlobStore.put blobs)
  get key := onMap (MapBlobStore.get key)
  delete := store.delete
  list filter := onMap (MapBlobStore.list ⟨false⟩ filter)
  existsBlob key := onMap (MapBlobStore.existsBlob key)
  getWithMetadata key := onMap (MapBlobStore.getWithMetadata key)
  visit := visit
  listWithMetadata filter := onMap (MapBlobStore.listWithMetadata ⟨false⟩ filter)

theorem exec_delete (store : LockingStore) (s : LockedState) (keys : List Key) :
    ∃ r t, exec (store.delete keys) s = (r, t) ∧ t.passed = s.passed ++ [keys] ∧
      (∀ key, t.objects.find key =
        if key ∈ keys ∧ key ∉ store.locked then none else s.objects.find key) ∧
      ((∀ key ∈ keys, key ∉ store.locked) → r = .ok ()) ∧
      ((∃ key ∈ keys, key ∈ store.locked) → ∃ report, r = .error (.batch report)) := by
  have hfind : ∀ key, ((keys.filter fun key => decide (key ∉ store.locked)).foldl
      MapState.erase s.objects).find key =
        if key ∈ keys ∧ key ∉ store.locked then none else s.objects.find key := by
    intro key
    rw [MapState.find_eraseAll]
    simp
  rw [delete, exec_bind_ok (exec_getState s), exec_bind_ok (exec_setState s _)]
  by_cases hfree : keys.filter (fun key => decide (key ∉ store.locked)) = keys
  · rw [if_pos hfree]
    refine ⟨_, _, rfl, rfl, hfind, fun _ => rfl, ?_⟩
    rintro ⟨key, hkey, hbad⟩
    rw [← hfree] at hkey
    exact absurd hbad (of_decide_eq_true (List.mem_filter.mp hkey).2)
  · rw [if_neg hfree]
    refine ⟨_, _, rfl, rfl, hfind, fun h => absurd ?_ hfree, fun _ => ⟨_, rfl⟩⟩
    exact List.filter_eq_self.mpr fun key hkey => decide_eq_true (h key hkey)

theorem deletesAllBut (store : LockingStore) {Fixed : Key → Prop}
    (hlocked : ∀ key, Fixed key ↔ key ∈ store.locked) :
    DeletesAllBut store.toBlobStore LockedState.ledger Fixed where
  clock s := ⟨rfl, rfl⟩
  delete := by
    intro s keys _
    obtain ⟨r, t, hexec, hpassed, hfind, hok, herror⟩ := store.exec_delete s keys
    refine ⟨r, t, hexec, hpassed, fun key hkey hfree => ?_, fun key hother => ?_, fun h => hok ?_,
      fun h => herror ?_⟩
    · rw [hlocked] at hfree
      exact (hfind key).trans (if_pos ⟨hkey, hfree⟩)
    · refine (hfind key).trans (if_neg fun hboth => ?_)
      obtain habsent | hfixed := hother
      · exact habsent hboth.1
      · exact hboth.2 ((hlocked key).mp hfixed)
    · exact fun key hkey hbad => h key hkey ((hlocked key).mpr hbad)
    · obtain ⟨key, hkey, hbad⟩ := h
      exact ⟨key, hkey, (hlocked key).mp hbad⟩

/-- The walk comes by every blob once. -/
theorem walksOver (store : LockingStore) {S : Type} (visitor : BlobVisitor (StateM LockedState) S)
    (l : S) (s : LockedState) :
    ∃ ending, WalksOver store.toBlobStore (prefixFilter []) visitor LockedState.ledger.Quiet
        visitor.Calls (s.blobs.map (BlobCleanup.handed fun key blob => blob.info key)) l s ending ∧
      ∀ e, ending ≠ .broke e := by
  obtain ⟨ending, left, k, t, hexec, hwalk, hending⟩ := @walk_visitEach _ _ visitor
    LockedState.ledger.Quiet (fun _ => ⟨rfl, rfl⟩)
    (s.blobs.map (BlobCleanup.handed fun key blob => blob.info key)) l s
  refine ⟨ending, ⟨left, k, t, ?_, hwalk⟩, hending⟩
  have hall : s.blobs.filter (fun blob => (prefixFilter []).matchesBlob blob.1 none) = s.blobs :=
    List.filter_eq_self.mpr fun blob _ => by simp
  change execLocal (visitEach visitor ((s.blobs.filter fun blob =>
    (prefixFilter []).matchesBlob blob.1 none).map _)) l s = _
  rw [hall]
  exact hexec

end LockingStore

/-- Two blobs, `a` before `b`. -/
def lockedPair : LockedState where
  objects := (MapState.empty.write ['b'] [2]).write ['a'] [1]
  passed := []

/-- Delete everything, key by key. -/
def oneByOne (store : LockingStore) : BlobCleanup (StateM LockedState) where
  inner := store.toBlobStore
  predicate _ _ := true
  batchSize := 1

/-- Delete everything, in one batch of `usize::MAX` keys. -/
def allAtOnce (store : LockingStore) : BlobCleanup (StateM LockedState) where
  inner := store.toBlobStore
  predicate _ _ := true
  batchSize := 0xFFFFFFFFFFFFFFFF

theorem cleanup_exact_pair :
    (∃ batches t, exec (oneByOne ⟨[]⟩).cleanup lockedPair =
        (.ok (.done { deletedCount := ((oneByOne ⟨[]⟩).chosenKeys
          (fun key (blob : StoredBlob) => blob.info key) lockedPair.blobs).length }), t) ∧
      t.passed = lockedPair.passed ++ batches ∧
      batches.flatten = (oneByOne ⟨[]⟩).chosenKeys
        (fun key (blob : StoredBlob) => blob.info key) lockedPair.blobs ∧ batches.flatten.Nodup ∧
      (∀ batch ∈ batches, batch.length ≤ max 1 1) ∧
      ∀ key, t.objects.find key = (lockedPair.objects.find key).filter fun _ => !true) ∧
    exec (allAtOnce ⟨[]⟩).cleanup lockedPair = (.ok .panicked, lockedPair) := by
  obtain ⟨ending, hwalk, hending⟩ := LockingStore.walksOver ⟨[]⟩ (oneByOne ⟨[]⟩).visitor
    { batch := [], deletedCount := 0 } lockedPair
  obtain ⟨ending', hwalk', hending'⟩ := LockingStore.walksOver ⟨[]⟩ (allAtOnce ⟨[]⟩).visitor
    { batch := [], deletedCount := 0 } lockedPair
  have hdeletes : DeletesAllBut (LockingStore.toBlobStore ⟨[]⟩) LockedState.ledger fun _ => False :=
    LockingStore.deletesAllBut ⟨[]⟩ (by simp)
  exact ⟨(cleanup_exact hdeletes lockedPair.lists hending hwalk).1
      (by decide),
    (cleanup_exact hdeletes lockedPair.lists hending' hwalk').2
      (by decide)⟩

/-- Nothing fails, and yet the cleanup gives no count and deletes nothing. -/
theorem huge_batch_panics :
    DeletesAllBut (allAtOnce ⟨[]⟩).inner LockedState.ledger (fun _ => False) ∧
      LockedState.ledger.Lists lockedPair lockedPair.blobs ∧
      (∃ ending, WalksOver (allAtOnce ⟨[]⟩).inner (prefixFilter []) (allAtOnce ⟨[]⟩).visitor
          LockedState.ledger.Quiet (allAtOnce ⟨[]⟩).visitor.Calls
          (lockedPair.blobs.map (BlobCleanup.handed fun key blob => blob.info key))
          { batch := [], deletedCount := 0 } lockedPair ending ∧ ∀ e, ending ≠ .broke e) ∧
      (∃ blob, LockedState.ledger.held lockedPair ['b'] = some blob ∧
        (allAtOnce ⟨[]⟩).predicate ['b'] (blob.info ['b']) = true) ∧
      exec (allAtOnce ⟨[]⟩).cleanup lockedPair = (.ok .panicked, lockedPair) :=
  ⟨LockingStore.deletesAllBut ⟨[]⟩ (by simp), lockedPair.lists,
    LockingStore.walksOver ⟨[]⟩ (allAtOnce ⟨[]⟩).visitor _ lockedPair, ⟨_, rfl, rfl⟩,
    BlobCleanup.exec_cleanup_of_lt (by decide) lockedPair⟩

/-- The blob `b` can be deleted and is chosen, and stays because `a` cannot. -/
theorem cleanup_is_blocked :
    DeletesAllBut (oneByOne ⟨[['a']]⟩).inner LockedState.ledger (fun key => key ∈ [['a']]) ∧
      (∃ blob, LockedState.ledger.held lockedPair ['b'] = some blob ∧
        (oneByOne ⟨[['a']]⟩).predicate ['b'] (blob.info ['b']) = true) ∧ ['b'] ∉ [['a']] ∧
      LockedState.ledger.held (exec (oneByOne ⟨[['a']]⟩).cleanup lockedPair).2 ['b'] ≠ none := by
  refine ⟨LockingStore.deletesAllBut ⟨[['a']]⟩ fun _ => Iff.rfl, ⟨_, rfl, rfl⟩, by decide, ?_⟩
  decide

theorem cleanup_deletes_deletable_pair :
    (∀ key blob, LockedState.ledger.held lockedPair key = some blob →
        (oneByOne ⟨[['b']]⟩).predicate key (blob.info key) = true → key ∉ [['b']] →
          LockedState.ledger.held (exec (oneByOne ⟨[['b']]⟩).cleanup lockedPair).2 key = none) ↔
      (oneByOne ⟨[['b']]⟩).FailuresLast (fun key => key ∈ [['b']]) ((oneByOne ⟨[['b']]⟩).chosenKeys
        (fun key (blob : StoredBlob) => blob.info key) lockedPair.blobs) ∧
      (1 ≤ BlobCleanup.maxCapacity ∨ ∀ key ∈ (oneByOne ⟨[['b']]⟩).chosenKeys
        (fun key (blob : StoredBlob) => blob.info key) lockedPair.blobs, key ∈ [['b']]) := by
  obtain ⟨ending, hwalk, hending⟩ := LockingStore.walksOver ⟨[['b']]⟩ (oneByOne ⟨[['b']]⟩).visitor
    { batch := [], deletedCount := 0 } lockedPair
  exact cleanup_deletes_deletable_iff (LockingStore.deletesAllBut ⟨[['b']]⟩ fun _ => Iff.rfl)
    lockedPair.lists hending hwalk

end Samples

end BlobStorage
