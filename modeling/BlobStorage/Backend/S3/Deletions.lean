import BlobStorage.Backend.S3
import BlobStorage.Library.Program

/-!
# Batch deletions over S3

`delete` as a program over the service. It submits the keys chunk by chunk and sorts the
responses into a report, but a request that fails as a whole ends it: the chunks after
that are never submitted.
-/

namespace BlobStorage

open Fallible Program

namespace S3BlobStore

/-- The backend as a program over a service that is somewhere else. -/
def remote (bucket : String) (maxPages : Nat) : S3BlobStore (Program S3Request.Response) :=
  .new ask bucket maxPages

/-- An exchange with the service. -/
abbrev S3Exchange := Exchange S3Request.Response

section Outcomes

/-- The key that the service speaks of was gone already. -/
def absent (fault : DeleteFault) : Bool :=
  fault.code = some "NoSuchKey" ∨ fault.code = some "NotFound"

/-- The keys of each deletion request. -/
def submitted (exchanges : List S3Exchange) : List (List Key) :=
  exchanges.filterMap fun
    | ⟨.deleteObjects keys, _⟩ => some keys
    | _ => none

/-- The keys that an exchange deleted, or that were gone already. -/
def goneIn : S3Exchange → List Key
  | ⟨.deleteObjects _, .ok output⟩ =>
      output.deleted.filterMap id ++ (output.errors.filter absent).filterMap DeleteFault.key
  | _ => []

/-- The keys that an exchange failed to delete: all of them where it failed as a whole. -/
def failedIn : S3Exchange → List Key
  | ⟨.deleteObjects keys, .error _⟩ => keys
  | ⟨.deleteObjects _, .ok output⟩ =>
      (output.errors.filter fun fault => !absent fault).filterMap DeleteFault.key
  | _ => []

/-- A successful response names each of its keys once, as deleted or as a fault. -/
def Partitions : S3Exchange → Prop
  | ⟨.deleteObjects keys, .ok output⟩ =>
      (output.deleted ++ output.errors.map DeleteFault.key).Perm (keys.map some)
  | _ => True

/-- A deletion request that failed as a whole. -/
def RequestFails : S3Exchange → Prop
  | ⟨.deleteObjects _, .error _⟩ => True
  | _ => False

/-- Best effort: every key is submitted once, and the result reports the outcome of each. -/
structure BestEffort (keys : List Key) (exchanges : List S3Exchange)
    (result : Except BlobStorageError Unit) : Prop where
  once : (submitted exchanges).flatten = keys
  small : ∀ chunk ∈ submitted exchanges, chunk.length ≤ 1000
  complete : (exchanges.flatMap goneIn ++ exchanges.flatMap failedIn).Perm keys
  ok : result = .ok () ↔ exchanges.flatMap failedIn = []
  batch : exchanges.flatMap failedIn ≠ [] → ∃ report, result = .error (.batch report) ∧
    report.succeeded.Perm (exchanges.flatMap goneIn) ∧
    (report.errors.map KeyError.key).Perm (exchanges.flatMap failedIn)

end Outcomes

section Chunks

variable {α : Type}

theorem flatten_chunks (size : Nat) (xs : List α) : (chunks size xs).flatten = xs := by
  induction xs using chunks.induct size with
  | case1 => rw [chunks]; rfl
  | case2 x rest ih =>
      rw [chunks, List.flatten_cons, ih, List.take_append_drop]

theorem length_of_mem_chunks {size : Nat} {xs chunk : List α} (h : chunk ∈ chunks size xs) :
    chunk.length ≤ size + 1 := by
  induction xs using chunks.induct size with
  | case1 =>
      rw [chunks] at h
      cases h
  | case2 x rest ih =>
      rw [chunks] at h
      obtain rfl | hrest := List.mem_cons.mp h
      · rw [List.length_take]
        omega
      · exact ih hrest

theorem ne_nil_of_mem_chunks {size : Nat} {xs chunk : List α} (h : chunk ∈ chunks size xs) :
    chunk ≠ [] := by
  induction xs using chunks.induct size with
  | case1 =>
      rw [chunks] at h
      cases h
  | case2 x rest ih =>
      rw [chunks] at h
      obtain rfl | hrest := List.mem_cons.mp h
      · simp
      · exact ih hrest

end Chunks

theorem faultError_eq_none_iff {fault : DeleteFault} :
    faultError fault = none ↔ absent fault = true := by
  unfold faultError absent
  cases hcode : fault.code with
  | none => simp
  | some code =>
      dsimp only [Option.getD_some]
      by_cases hdenied : code = "AccessDenied"
      · simp [hdenied]
      · rw [if_neg hdenied]
        by_cases hgone : code = "NoSuchKey" ∨ code = "NotFound"
        · simp [hgone]
        · simp [hgone]

section Responses

variable {keys : List Key} {output : DeleteObjectsOutput}
  (h : (output.deleted ++ output.errors.map DeleteFault.key).Perm (keys.map some))

include h

/-- In a response that partitions its keys every fault names one. -/
theorem faultKey_of_partitions {fault : DeleteFault} (hfault : fault ∈ output.errors) :
    fault.key = some (faultKey fault) := by
  have hmem : fault.key ∈ keys.map some :=
    h.mem_iff.mp (List.mem_append_right _ (List.mem_map_of_mem hfault))
  obtain ⟨key, _, hkey⟩ := List.mem_map.mp hmem
  rw [faultKey, ← hkey]
  rfl

theorem succeededIn_eq : succeededIn output = goneIn ⟨.deleteObjects keys, .ok output⟩ := by
  have hfaults : ∀ faults : List DeleteFault, (∀ fault ∈ faults, fault ∈ output.errors) →
      (faults.filter fun fault => faultError fault = none).map faultKey =
        (faults.filter absent).filterMap DeleteFault.key := by
    intro faults
    induction faults with
    | nil => intro _; rfl
    | cons fault rest ih =>
        intro hall
        rw [List.forall_mem_cons] at hall
        rw [List.filter_cons, List.filter_cons]
        by_cases hgone : absent fault = true
        · rw [if_pos (decide_eq_true (faultError_eq_none_iff.mpr hgone)), if_pos hgone, List.map_cons,
            List.filterMap_cons, faultKey_of_partitions h hall.1, ih hall.2]
        · rw [if_neg (by simpa using fun hnone => hgone (faultError_eq_none_iff.mp hnone)),
            if_neg hgone, ih hall.2]
  unfold succeededIn goneIn
  rw [hfaults output.errors fun _ hfault => hfault]

theorem errorsIn_eq :
    (errorsIn output).map KeyError.key = failedIn ⟨.deleteObjects keys, .ok output⟩ := by
  have hfaults : ∀ faults : List DeleteFault, (∀ fault ∈ faults, fault ∈ output.errors) →
      (faults.filterMap fun fault => (faultError fault).map fun error =>
        ({ key := faultKey fault, error } : KeyError)).map KeyError.key =
        (faults.filter fun fault => !absent fault).filterMap DeleteFault.key := by
    intro faults
    induction faults with
    | nil => intro _; rfl
    | cons fault rest ih =>
        intro hall
        rw [List.forall_mem_cons] at hall
        rw [List.filterMap_cons, List.filter_cons]
        cases herror : faultError fault with
        | none =>
            rw [faultError_eq_none_iff.mp herror]
            exact ih hall.2
        | some error =>
            have hthere : absent fault = false := by
              rw [Bool.eq_false_iff]
              intro hgone
              rw [faultError_eq_none_iff.mpr hgone] at herror
              cases herror
            rw [hthere, Bool.not_false, if_pos rfl, List.filterMap_cons,
              faultKey_of_partitions h hall.1]
            exact congrArg (faultKey fault :: ·) (ih hall.2)
  exact hfaults output.errors fun _ hfault => hfault

theorem gone_failed_perm :
    (goneIn ⟨.deleteObjects keys, .ok output⟩ ++ failedIn ⟨.deleteObjects keys, .ok output⟩).Perm
      keys := by
  have hkeys : (output.deleted.filterMap id ++ output.errors.filterMap DeleteFault.key).Perm
      keys := by
    have hall := h.filterMap id
    rw [List.filterMap_append, List.filterMap_map, List.filterMap_map] at hall
    exact hall.trans (List.Perm.of_eq (List.filterMap_some))
  refine List.Perm.trans ?_ hkeys
  unfold goneIn failedIn
  rw [List.append_assoc]
  refine List.Perm.append_left _ ?_
  rw [← List.filterMap_append]
  exact (List.filter_append_perm absent output.errors).filterMap _

end Responses

section Loop

variable {bucket : String} {maxPages : Nat}

/-- A deletion request, and what `?` makes of its response. -/
theorem traces_deleteObjects {chunk : List Key} {message : String} {exchanges : List S3Exchange}
    {r : Except BlobStorageError DeleteObjectsOutput}
    (h : Traces ((remote bucket maxPages).request (.deleteObjects chunk) message) exchanges r) :
    (∃ output, exchanges = [⟨.deleteObjects chunk, .ok output⟩] ∧ r = .ok output) ∨
      ∃ failure, exchanges = [⟨.deleteObjects chunk, .error failure⟩] ∧
        r = .error ((remote bucket maxPages).requestError message failure) := by
  obtain ⟨response, rfl, rfl⟩ := traces_ask_iff.mp h
  cases response with
  | ok output => exact .inl ⟨output, rfl, rfl⟩
  | error failure => exact .inr ⟨failure, rfl, rfl⟩

/-- What the loop has submitted and collected: everything, or all up to a request that
failed, which ends it. -/
inductive ChunksDone (bucket : String) (maxPages : Nat) : List (List Key) → List S3Exchange →
    Except BlobStorageError (List Key × List KeyError) → Prop where
  | nil : ChunksDone bucket maxPages [] [] (.ok ([], []))
  | fail (chunk : List Key) (rest : List (List Key)) (failure : SdkError) :
      ChunksDone bucket maxPages (chunk :: rest) [⟨.deleteObjects chunk, .error failure⟩]
        (.error ((remote bucket maxPages).requestError "S3 batch delete failed" failure))
  | next (chunk : List Key) {rest : List (List Key)} (output : DeleteObjectsOutput)
      {exchanges : List S3Exchange} {r : Except BlobStorageError (List Key × List KeyError)}
      (later : ChunksDone bucket maxPages rest exchanges r) :
      ChunksDone bucket maxPages (chunk :: rest) (⟨.deleteObjects chunk, .ok output⟩ :: exchanges)
        (r.map fun collected =>
          (succeededIn output ++ collected.1, errorsIn output ++ collected.2))

theorem chunksDone_of_traces {chs : List (List Key)} {exchanges : List S3Exchange}
    {r : Except BlobStorageError (List Key × List KeyError)}
    (h : Traces ((remote bucket maxPages).deleteChunks chs) exchanges r) :
    ChunksDone bucket maxPages chs exchanges r := by
  induction chs generalizing exchanges r with
  | nil =>
      obtain ⟨rfl, rfl⟩ := traces_pure_iff.mp h
      exact .nil
  | cons chunk rest ih =>
      rw [deleteChunks] at h
      obtain ⟨e, rfl, hrequest⟩ | ⟨output, first, second, rfl, hrequest, hrest⟩ :=
        traces_bind_iff.mp h
      · obtain ⟨_, _, hok⟩ | ⟨failure, rfl, hfailure⟩ := traces_deleteObjects hrequest
        · cases hok
        · cases hfailure
          exact .fail chunk rest failure
      · obtain ⟨_, rfl, hok⟩ | ⟨_, _, hfailure⟩ := traces_deleteObjects hrequest
        · cases hok
          obtain ⟨e, rfl, hlater⟩ | ⟨collected, third, fourth, rfl, hlater, hpure⟩ :=
            traces_bind_iff.mp hrest
          · exact .next chunk output (ih hlater)
          · obtain ⟨rfl, rfl⟩ := traces_pure_iff.mp hpure
            rw [List.append_nil]
            exact .next chunk output (ih hlater)
        · cases hfailure

variable {chs : List (List Key)} {exchanges : List S3Exchange}
  {r : Except BlobStorageError (List Key × List KeyError)}

/-- Where no request fails as a whole, everything is submitted and collected. -/
theorem ChunksDone.collected (h : ChunksDone bucket maxPages chs exchanges r)
    (hparts : ∀ x ∈ exchanges, Partitions x) (hok : ∀ x ∈ exchanges, ¬RequestFails x) :
    ∃ collected, r = .ok collected ∧ submitted exchanges = chs ∧
      collected.1 = exchanges.flatMap goneIn ∧
      collected.2.map KeyError.key = exchanges.flatMap failedIn ∧
      (exchanges.flatMap goneIn ++ exchanges.flatMap failedIn).Perm chs.flatten := by
  induction h with
  | nil => exact ⟨_, rfl, rfl, rfl, rfl, List.Perm.refl []⟩
  | fail chunk rest failure => exact absurd trivial (hok _ (List.mem_singleton_self _))
  | @next chunk rest output exchanges r later ih =>
      rw [List.forall_mem_cons] at hparts hok
      obtain ⟨collected, rfl, hsubmitted, hgone, hfailed, hperm⟩ := ih hparts.2 hok.2
      have hpart : (output.deleted ++ output.errors.map DeleteFault.key).Perm (chunk.map some) :=
        hparts.1
      refine ⟨_, rfl, congrArg (chunk :: ·) hsubmitted, ?_, ?_, ?_⟩
      · dsimp only
        rw [List.flatMap_cons, succeededIn_eq hpart, hgone]
      · dsimp only
        rw [List.map_append, List.flatMap_cons, errorsIn_eq hpart, hfailed]
      · have hfirst := gone_failed_perm hpart
        rw [List.flatMap_cons, List.flatMap_cons, List.flatten_cons]
        refine List.Perm.trans ?_ (hfirst.append hperm)
        rw [List.append_assoc, List.append_assoc]
        refine List.Perm.append_left _ ?_
        rw [← List.append_assoc, ← List.append_assoc]
        exact List.perm_append_comm.append_right _

/-- A request that fails as a whole is the end, though its keys have failed. -/
theorem ChunksDone.broken (h : ChunksDone bucket maxPages chs exchanges r)
    (hne : ∀ chunk ∈ chs, chunk ≠ []) (hfails : ∃ x ∈ exchanges, RequestFails x) :
    (∃ e, r = .error e ∧ ∀ report, e ≠ .batch report) ∧ exchanges.flatMap failedIn ≠ [] := by
  induction h with
  | nil =>
      obtain ⟨x, hx, _⟩ := hfails
      cases hx
  | fail chunk rest failure =>
      rw [List.forall_mem_cons] at hne
      refine ⟨⟨_, rfl, ?_⟩, ?_⟩
      · intro report
        unfold requestError
        split <;> simp
      · rw [List.flatMap_cons]
        exact fun hnil => hne.1 (List.append_eq_nil_iff.mp hnil).1
  | @next chunk rest output exchanges r later ih =>
      rw [List.forall_mem_cons] at hne
      obtain ⟨x, hx, hfail⟩ := hfails
      have hlater : x ∈ exchanges := by
        obtain rfl | hlater := List.mem_cons.mp hx
        · exact absurd hfail id
        · exact hlater
      obtain ⟨⟨e, rfl, hbatch⟩, hfailed⟩ := ih hne.2 ⟨x, hlater, hfail⟩
      refine ⟨⟨e, rfl, hbatch⟩, ?_⟩
      rw [List.flatMap_cons]
      exact fun hnil => hfailed (List.append_eq_nil_iff.mp hnil).2

theorem traces_checkKeys {keys : List Key} (h : ∀ key ∈ keys, ValidKey key)
    {r : Except BlobStorageError Unit}
    (htrace : Traces (checkKeys keys : Fallible (Program S3Request.Response) Unit) exchanges r) :
    exchanges = [] ∧ r = .ok () := by
  induction keys generalizing exchanges r with
  | nil => exact traces_pure_iff.mp htrace
  | cons key rest ih =>
      rw [List.forall_mem_cons] at h
      have hkey : (checkKey key : Fallible (Program S3Request.Response) Unit) = pure () := by
        unfold checkKey
        rw [validateBlobKey_ok h.1]
      rw [checkKeys, hkey] at htrace
      obtain ⟨_, _, herror⟩ | ⟨_, first, second, rfl, hfirst, hsecond⟩ :=
        traces_bind_iff.mp htrace
      · cases (traces_pure_iff.mp herror).2
      · obtain ⟨rfl, _⟩ := traces_pure_iff.mp hfirst
        exact ih h.2 hsecond

end Loop

/-- Deleting is best effort exactly where no request fails as a whole. -/
theorem delete_bestEffort_iff {bucket : String} {maxPages : Nat} {keys : List Key}
    {exchanges : List S3Exchange} {result : Except BlobStorageError Unit}
    (hvalid : ∀ key ∈ keys, ValidKey key)
    (hrun : Traces ((remote bucket maxPages).delete keys) exchanges result)
    (hparts : ∀ x ∈ exchanges, Partitions x) :
    BestEffort keys exchanges result ↔ ∀ x ∈ exchanges, ¬RequestFails x := by
  have hloop : ∃ collected, ChunksDone bucket maxPages (chunks 999 keys) exchanges collected ∧
      result = collected >>= fun all =>
        if all.2 = [] then .ok () else .error (.batch { succeeded := all.1, errors := all.2 }) := by
    rw [delete] at hrun
    obtain ⟨_, _, hcheck⟩ | ⟨_, first, second, rfl, hcheck, hrest⟩ := traces_bind_iff.mp hrun
    · cases (traces_checkKeys hvalid hcheck).2
    · obtain ⟨rfl, _⟩ := traces_checkKeys hvalid hcheck
      obtain ⟨e, rfl, hchunks⟩ | ⟨⟨gone, failed⟩, third, fourth, rfl, hchunks, hend⟩ :=
        traces_bind_iff.mp hrest
      · exact ⟨_, chunksDone_of_traces hchunks, rfl⟩
      · refine ⟨.ok (gone, failed), ?_, ?_⟩
        · have hnothing : fourth = [] := by
            dsimp only at hend
            split at hend
            · exact (traces_pure_iff.mp hend).1
            · exact (traces_throw_iff.mp hend).1
          rw [hnothing, List.append_nil]
          exact chunksDone_of_traces hchunks
        · dsimp only at hend
          change result = if failed = [] then _ else _
          split at hend
          · next hnil => rw [if_pos hnil, (traces_pure_iff.mp hend).2]
          · next hnil => rw [if_neg hnil, (traces_throw_iff.mp hend).2]
  obtain ⟨collected, hdone, rfl⟩ := hloop
  constructor
  · intro h x hx hfails
    obtain ⟨⟨e, rfl, hbatch⟩, hfailed⟩ :=
      hdone.broken (fun _ hchunk => ne_nil_of_mem_chunks hchunk) ⟨x, hx, hfails⟩
    obtain ⟨report, hreport, _⟩ := h.batch hfailed
    exact hbatch report (Except.error.inj hreport)
  · intro hok
    obtain ⟨⟨gone, failed⟩, rfl, hsubmitted, hgone, hfailed, hperm⟩ := hdone.collected hparts hok
    rw [flatten_chunks] at hperm
    dsimp only at hgone hfailed
    have hempty : failed = [] ↔ exchanges.flatMap failedIn = [] := by
      rw [← hfailed, List.map_eq_nil_iff]
    change BestEffort keys exchanges (if failed = [] then _ else _)
    refine ⟨?_, ?_, hperm, ?_, ?_⟩
    · rw [hsubmitted, flatten_chunks]
    · intro chunk hchunk
      rw [hsubmitted] at hchunk
      exact length_of_mem_chunks hchunk
    · rw [← hempty]
      split
      · next hnil => simp [hnil]
      · next hnil => simp [hnil]
    · intro hne
      rw [if_neg (mt hempty.mp hne)]
      exact ⟨_, rfl, List.Perm.of_eq hgone, List.Perm.of_eq hfailed⟩

theorem checkKeys_of_valid {keys : List Key} (h : ∀ key ∈ keys, ValidKey key) :
    (checkKeys keys : Fallible (Program S3Request.Response) Unit) = pure () := by
  induction keys with
  | nil => rfl
  | cons key rest ih =>
      rw [List.forall_mem_cons] at h
      rw [checkKeys, ih h.2]
      unfold checkKey
      rw [validateBlobKey_ok h.1]
      rfl

/-- The run in which the first request fails as a whole. -/
theorem traces_delete_broken {bucket : String} {maxPages : Nat} {keys : List Key}
    (hvalid : ∀ key ∈ keys, ValidKey key) (hne : keys ≠ []) (failure : SdkError) :
    Traces ((remote bucket maxPages).delete keys)
      [⟨.deleteObjects (keys.take 1000), .error failure⟩]
      (.error ((remote bucket maxPages).requestError "S3 batch delete failed" failure)) := by
  have hrequest : Traces ((remote bucket maxPages).request (.deleteObjects (keys.take 1000))
      "S3 batch delete failed") [⟨.deleteObjects (keys.take 1000), .error failure⟩]
      (.error ((remote bucket maxPages).requestError "S3 batch delete failed" failure)) :=
    traces_ask_iff.mpr ⟨.error failure, rfl, rfl⟩
  rw [delete, checkKeys_of_valid hvalid, chunks_of_ne_nil 999 hne]
  refine traces_bind_iff.mpr (.inr ⟨(), [], _, rfl, traces_pure_iff.mpr ⟨rfl, rfl⟩, ?_⟩)
  refine traces_bind_iff.mpr (.inl ⟨_, rfl, ?_⟩)
  exact traces_bind_iff.mpr (.inl ⟨_, rfl, hrequest⟩)

/-- A request that is answered. -/
def answered (answer : List Key × DeleteObjectsOutput) : S3Exchange :=
  ⟨.deleteObjects answer.1, .ok answer.2⟩

/-- The run of the loop in which every request is answered. -/
theorem traces_deleteChunks_answered (bucket : String) (maxPages : Nat)
    (answers : List (List Key × DeleteObjectsOutput)) :
    Traces ((remote bucket maxPages).deleteChunks (answers.map Prod.fst)) (answers.map answered)
      (.ok (answers.flatMap fun answer => succeededIn answer.2,
        answers.flatMap fun answer => errorsIn answer.2)) := by
  induction answers with
  | nil => exact traces_pure_iff.mpr ⟨rfl, rfl⟩
  | cons answer rest ih =>
      have hrequest : Traces ((remote bucket maxPages).request (.deleteObjects answer.1)
          "S3 batch delete failed") [answered answer] (.ok answer.2) :=
        traces_ask_iff.mpr ⟨.ok answer.2, rfl, rfl⟩
      rw [List.map_cons, deleteChunks]
      refine traces_bind_iff.mpr (.inr ⟨_, _, _, rfl, hrequest, ?_⟩)
      exact traces_bind_iff.mpr (.inr ⟨_, _, [], (List.append_nil _).symm, ih,
        traces_pure_iff.mpr ⟨rfl, rfl⟩⟩)

/-- The key of so many letters `k`, and one more. -/
def letters (n : Nat) : Key := 'k' :: List.replicate n 'k'

/-- That many keys: `k`, `kk`, and so on. -/
@[irreducible] def keysOfLetters (count : Nat) : List Key := (List.range count).map letters

theorem valid_of_mem_keysOfLetters {count : Nat} {key : Key} (hkey : key ∈ keysOfLetters count) :
    ValidKey key := by
  rw [keysOfLetters] at hkey
  obtain ⟨n, _, rfl⟩ := List.mem_map.mp hkey
  have hchars : ∀ c ∈ letters n, c = 'k' := by
    intro c hc
    obtain rfl | hc := List.mem_cons.mp hc
    · rfl
    · exact List.eq_of_mem_replicate hc
  have hno : ∀ c : Char, c ≠ 'k' → c ∉ letters n := fun c hne hmem => hne (hchars c hmem)
  refine ⟨hno '\\' (by decide), fun component hcomponent => ?_⟩
  have hpieces : (letters n).splitOn keySeparator = [letters n] :=
    List.splitOn_eq_singleton (hno '/' (by decide))
  rw [hpieces, List.mem_singleton] at hcomponent
  rw [hcomponent]
  refine ⟨List.cons_ne_nil _ _, ?_, ?_⟩
  · intro heq
    cases (List.cons.inj heq).1
  · intro heq
    cases (List.cons.inj heq).1

theorem length_keysOfLetters (count : Nat) : (keysOfLetters count).length = count := by
  rw [keysOfLetters, List.length_map, List.length_range]

theorem drop_keysOfLetters (count : Nat) :
    (keysOfLetters (count + 1)).drop count = [letters count] := by
  rw [keysOfLetters, ← List.map_drop, List.range_succ, List.drop_left' List.length_range]
  rfl

/-- A thousand and one keys. -/
def manyKeys : List Key := keysOfLetters 1001

theorem manyKeys_valid : ∀ key ∈ manyKeys, ValidKey key :=
  fun _ hkey => valid_of_mem_keysOfLetters hkey

theorem length_manyKeys : manyKeys.length = 1001 :=
  length_keysOfLetters 1001

/-- The last of them. -/
def lastKey : Key := letters 1000

theorem drop_manyKeys : manyKeys.drop 1000 = [lastKey] :=
  drop_keysOfLetters 1000

theorem chunks_manyKeys : chunks 999 manyKeys = [manyKeys.take 1000, manyKeys.drop 1000] := by
  have hne : manyKeys ≠ [] := List.ne_nil_of_length_pos (by rw [length_manyKeys]; omega)
  have hrest : manyKeys.drop 1000 ≠ [] := by
    rw [drop_manyKeys]
    exact List.cons_ne_nil _ _
  have htake : (manyKeys.drop 1000).take 1000 = manyKeys.drop 1000 := by
    rw [drop_manyKeys]
    exact List.take_of_length_le (Nat.le_add_left 1 999)
  have hdrop : (manyKeys.drop 1000).drop 1000 = [] := by
    rw [drop_manyKeys]
    exact List.drop_of_length_le (Nat.le_add_left 1 999)
  rw [chunks_of_ne_nil 999 hne, chunks_of_ne_nil 999 hrest, htake, hdrop, chunks]

/-- The first request deletes its thousand keys, the second fails to delete the last one. -/
def manyAnswers : List (List Key × DeleteObjectsOutput) :=
  [(manyKeys.take 1000, { deleted := (manyKeys.take 1000).map some, errors := [] }),
    (manyKeys.drop 1000, { deleted := [], errors :=
      [{ key := some lastKey, code := some "AccessDenied", message := some "Access Denied" }] })]

theorem delete_bestEffort_many :
    (∀ key ∈ manyKeys, ValidKey key) ∧ (∀ x ∈ manyAnswers.map answered, Partitions x) ∧
      ∃ report, Traces ((remote "b" 1).delete manyKeys) (manyAnswers.map answered)
          (.error (.batch report)) ∧
        report.errors.map KeyError.key = [lastKey] ∧
        BestEffort manyKeys (manyAnswers.map answered) (.error (.batch report)) := by
  have hparts : ∀ x ∈ manyAnswers.map answered, Partitions x := by
    simp only [manyAnswers, List.map_cons, List.map_nil, List.forall_mem_cons]
    refine ⟨?_, ?_, List.forall_mem_nil _⟩
    · exact List.Perm.of_eq (List.append_nil _)
    · change List.Perm _ ((manyKeys.drop 1000).map some)
      rw [drop_manyKeys]
      exact List.Perm.refl _
  have hchunks := traces_deleteChunks_answered "b" 1 manyAnswers
  have hsplit : manyAnswers.map Prod.fst = chunks 999 manyKeys := chunks_manyKeys.symm
  rw [hsplit] at hchunks
  have hrun : Traces ((remote "b" 1).delete manyKeys) (manyAnswers.map answered)
      (.error (.batch { succeeded := manyAnswers.flatMap fun answer => succeededIn answer.2
                        errors := manyAnswers.flatMap fun answer => errorsIn answer.2 })) := by
    rw [delete, checkKeys_of_valid manyKeys_valid]
    refine traces_bind_iff.mpr (.inr ⟨(), [], _, rfl, traces_pure_iff.mpr ⟨rfl, rfl⟩, ?_⟩)
    exact traces_bind_iff.mpr (.inr ⟨_, _, [], (List.append_nil _).symm, hchunks,
      traces_throw_iff.mpr ⟨rfl, rfl⟩⟩)
  refine ⟨manyKeys_valid, hparts, _, hrun, rfl,
    (delete_bestEffort_iff manyKeys_valid hrun hparts).mpr ?_⟩
  simp only [manyAnswers, List.map_cons, List.map_nil, List.forall_mem_cons]
  exact ⟨id, id, List.forall_mem_nil _⟩

/-- Of a thousand and one keys the last is never submitted when the first request fails as a
whole, and the error does not report on any key. -/
theorem delete_aborts_after_failed_request :
    (∀ key ∈ manyKeys, ValidKey key) ∧
      ∃ exchanges result, Traces ((remote "b" 1).delete manyKeys) exchanges result ∧
        (∀ x ∈ exchanges, Partitions x) ∧
        (submitted exchanges).flatten.length = 1000 ∧ manyKeys.length = 1001 ∧
        result = .error (.storage "S3 batch delete failed" (some (.sdk (some "InternalError")))) ∧
        ¬BestEffort manyKeys exchanges result := by
  have hlength := length_manyKeys
  have hne : manyKeys ≠ [] := List.ne_nil_of_length_pos (by omega)
  have hsubmitted : (submitted [(⟨.deleteObjects (manyKeys.take 1000),
      .error ⟨some "InternalError"⟩⟩ : S3Exchange)]).flatten.length = 1000 := by
    change ([manyKeys.take 1000].flatten).length = 1000
    rw [List.flatten_singleton, List.length_take, hlength]
    rfl
  refine ⟨manyKeys_valid, _, _, traces_delete_broken manyKeys_valid hne ⟨some "InternalError"⟩, ?_,
    hsubmitted, hlength, rfl, fun h => ?_⟩
  · intro x hx
    obtain rfl := List.mem_singleton.mp hx
    trivial
  · have honce := congrArg List.length h.once
    rw [hsubmitted, hlength] at honce
    omega

end S3BlobStore

end BlobStorage
