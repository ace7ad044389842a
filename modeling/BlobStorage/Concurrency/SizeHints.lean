import BlobStorage.Concurrency.RekeyCalls

/-!
# Size hints

The hints that the encrypted layer gives the inner store. The one for the ciphertext is what the
caller says of the plaintext, or 0 when the caller says nothing, and the one for a re-wrapped
header is the length of the header it replaces; neither is known to be the length of the stream.
Only the header that a put writes is measured.
-/

namespace BlobStorage

open Fallible Program

variable {headerSuffix : Key}

/-- The hint, if there is one, is the number of bytes that the stream delivers. -/
def BlobInput.HintIsTrue (input : BlobInput) : Prop :=
  ∀ size, input.sizeHint = some size → size = input.data.bytes.length

theorem BlobInput.withSize_hintIsTrue_iff {key : Key} {data : Reader} {size : Nat} :
    (BlobInput.withSize key data size).HintIsTrue ↔ size = data.bytes.length := by
  constructor
  · intro h
    exact h size rfl
  · rintro rfl _ hsize
    exact (Option.some.inj hsize).symm

/-- What the exchange hands to the inner store has true hints. -/
def HintsTrue : StoreExchange → Prop
  | ⟨.put blobs, _⟩ => ∀ blob ∈ blobs, blob.HintIsTrue
  | _ => True

/-- The runs of the provider's `encrypt_stream`, in order. -/
def encryptions (es : List StoreExchange) : List EncryptRun :=
  es.filterMap fun x =>
    match x with
    | ⟨.encryptStream _, run⟩ => some run
    | _ => none

/-- A header that the provider re-wraps is as long as before. -/
def KeepsLength : StoreExchange → Prop
  | ⟨.rekeyHeader header, .ok (some newHeader)⟩ => newHeader.length = header.length
  | _ => True

theorem hintsTrue_put_singleton {key : Key} {data : Reader} {size : Nat}
    {written : Except BlobStorageError PutResult × List (Key × Bytes)} :
    HintsTrue ⟨.put [BlobInput.withSize key data size], written⟩ ↔ size = data.bytes.length :=
  List.forall_mem_singleton.trans BlobInput.withSize_hintIsTrue_iff

section Put

/-- A blob is encrypted once, and of its requests only the first put can be wrong. -/
theorem putRequests_hints {blob : BlobInput} {es : List StoreExchange}
    {r : Except BlobStorageError PutResult}
    (h : Path (putRequests headerSuffix blob) es (.done r)) :
    ∃ run, encryptions es = [run] ∧
      ((∀ x ∈ es, HintsTrue x) ↔ blob.sizeHint.getD 0 = run.written.length) := by
  obtain ⟨_, hend⟩ | ⟨run, es₁, rfl, h₁⟩ := path_request_iff.mp h
  · cases hend
  obtain ⟨_, hend⟩ | ⟨⟨result, objects⟩, es₂, rfl, h₂⟩ := path_request_iff.mp h₁
  · cases hend
  have hrest : encryptions es₂ = [] ∧ ∀ x ∈ es₂, HintsTrue x := by
    cases result with
    | error e =>
        obtain ⟨rfl, _⟩ := path_done_iff.mp h₂
        exact ⟨rfl, List.forall_mem_nil _⟩
    | ok result =>
        cases hrun : EncryptRun.result run blob.key with
        | error e =>
            simp only [hrun] at h₂
            obtain ⟨_, hend⟩ | ⟨deleted, es₃, rfl, h₃⟩ := path_request_iff.mp h₂
            · cases hend
            obtain ⟨rfl, _⟩ := path_done_iff.mp h₃
            exact ⟨rfl, List.forall_mem_singleton.mpr trivial⟩
        | ok header =>
            simp only [hrun] at h₂
            obtain ⟨_, hend⟩ | ⟨⟨headerResult, headerObjects⟩, es₃, rfl, h₃⟩ :=
              path_request_iff.mp h₂
            · cases hend
            have hheader : HintsTrue ⟨.put [BlobInput.withSize (blob.key ++ headerSuffix)
                (Reader.ofBytes header) header.length], (headerResult, headerObjects)⟩ :=
              hintsTrue_put_singleton.mpr rfl
            cases headerResult with
            | error e =>
                obtain ⟨_, hend⟩ | ⟨deleted, es₄, rfl, h₄⟩ := path_request_iff.mp h₃
                · cases hend
                obtain ⟨rfl, _⟩ := path_done_iff.mp h₄
                exact ⟨rfl, List.forall_mem_cons.mpr
                  ⟨hheader, List.forall_mem_singleton.mpr trivial⟩⟩
            | ok headerResult =>
                obtain ⟨rfl, _⟩ := path_done_iff.mp h₃
                exact ⟨rfl, List.forall_mem_singleton.mpr hheader⟩
  refine ⟨run, congrArg (run :: ·) hrest.1, ?_⟩
  rw [List.forall_mem_cons, List.forall_mem_cons, hintsTrue_put_singleton]
  constructor
  · rintro ⟨_, hsize, _⟩
    exact hsize
  · intro hsize
    exact ⟨trivial, hsize, hrest.2⟩

theorem encryptions_append (es fs : List StoreExchange) :
    encryptions (es ++ fs) = encryptions es ++ encryptions fs :=
  List.filterMap_append

/-- The hints of a batch are true if the hints of the callers fit what was encrypted. -/
theorem putBlobs_hints {blobs : List BlobInput} {es : List StoreExchange}
    {r : Except BlobStorageError (List BlobMeta)}
    (h : Traces ((requestLayer headerSuffix).putBlobs blobs) es r) :
    (∀ x ∈ es, HintsTrue x) ↔
      ∀ pair ∈ blobs.zip (encryptions es), pair.1.sizeHint.getD 0 = pair.2.written.length := by
  induction blobs generalizing es r with
  | nil =>
      obtain ⟨rfl, _⟩ := traces_pure_iff.mp h
      simp
  | cons blob rest ih =>
      have hfirst : ∀ {es : List StoreExchange} {r : Except BlobStorageError (List BlobMeta)},
          Traces ((requestLayer headerSuffix).putBlob blob) es r → ∃ run, encryptions es = [run] ∧
            ((∀ x ∈ es, HintsTrue x) ↔ blob.sizeHint.getD 0 = run.written.length) := by
        intro es r hblob
        unfold Traces at hblob
        rw [putBlob_run] at hblob
        obtain ⟨z, hpath, hz⟩ := path_map hblob
        obtain ⟨result, rfl, _⟩ := map_eq_done_iff.mp hz.symm
        exact putRequests_hints hpath
      obtain ⟨e, rfl, hblob⟩ | ⟨infos, es₁, es₂, rfl, hblob, hothers⟩ := traces_bind_iff.mp h
      · obtain ⟨run, hrun, htrue⟩ := hfirst hblob
        rw [htrue, hrun, List.zip_cons_cons, List.zip_nil_right, List.forall_mem_singleton]
      · obtain ⟨run, hrun, htrue⟩ := hfirst hblob
        have hrest : (∀ x ∈ es₂, HintsTrue x) ↔ ∀ pair ∈ rest.zip (encryptions es₂),
            pair.1.sizeHint.getD 0 = pair.2.written.length := by
          obtain ⟨e, rfl, hrest⟩ | ⟨others, es₃, es₄, rfl, hrest, hpure⟩ :=
            traces_bind_iff.mp hothers
          · exact ih hrest
          · obtain ⟨rfl, _⟩ := traces_pure_iff.mp hpure
            rw [List.append_nil]
            exact ih hrest
        rw [List.forall_mem_append, htrue, hrest, encryptions_append, hrun, List.singleton_append,
          List.zip_cons_cons, List.forall_mem_cons]

theorem put_hints {blobs : List BlobInput} {es : List StoreExchange}
    {r : Except BlobStorageError PutResult}
    (h : Traces ((requestLayer headerSuffix).put blobs) es r) :
    (∀ x ∈ es, HintsTrue x) ↔
      ∀ pair ∈ blobs.zip (encryptions es), pair.1.sizeHint.getD 0 = pair.2.written.length := by
  unfold EncryptedBlobStore.put at h
  obtain ⟨_, hcheck⟩ | ⟨_, e, hcheck⟩ :=
    checkPutKeys_cases headerSuffix (blobs.map BlobInput.key)
  · rw [hcheck] at h
    change Traces (do let infos ← (requestLayer headerSuffix).putBlobs blobs
                      pure { blobs := infos }) es r at h
    obtain ⟨e, rfl, hblobs⟩ | ⟨infos, es₁, es₂, rfl, hblobs, hpure⟩ := traces_bind_iff.mp h
    · exact putBlobs_hints hblobs
    · obtain ⟨rfl, _⟩ := traces_pure_iff.mp hpure
      rw [List.append_nil]
      exact putBlobs_hints hblobs
  · rw [hcheck] at h
    obtain ⟨rfl, _⟩ := traces_throw_iff.mp h
    refine iff_of_true (List.forall_mem_nil _) ?_
    rw [encryptions, List.filterMap_nil, List.zip_nil_right]
    exact List.forall_mem_nil _

end Put

section Rekey

theorem RekeyStep.hints {key : Key} {es : List StoreExchange} (h : RekeyStep key es) :
    (∀ x ∈ es, HintsTrue x) ↔ ∀ x ∈ es, KeepsLength x := by
  cases h with
  | fetched response =>
      rw [List.forall_mem_singleton, List.forall_mem_singleton]
      exact Iff.rfl
  | kept reader header response nothingNew =>
      rw [List.forall_mem_cons, List.forall_mem_singleton, List.forall_mem_cons,
        List.forall_mem_singleton]
      refine iff_of_true ⟨trivial, trivial⟩ ⟨trivial, ?_⟩
      obtain _ | _ | newHeader := response
      · trivial
      · trivial
      · exact absurd rfl (nothingNew newHeader)
  | replaced reader header newHeader written read =>
      rw [List.forall_mem_cons, List.forall_mem_cons, List.forall_mem_singleton,
        List.forall_mem_cons, List.forall_mem_cons, List.forall_mem_singleton,
        hintsTrue_put_singleton, Reader.ofBytes_bytes]
      constructor
      · rintro ⟨_, _, hsize⟩
        exact ⟨trivial, hsize.symm, trivial⟩
      · rintro ⟨_, hlength, _⟩
        exact ⟨trivial, trivial, hlength.symm⟩

theorem rekey_hints {es : List StoreExchange} {r : Except BlobStorageError RekeyResult}
    (h : Traces (requestLayer headerSuffix).rekey es r) :
    (∀ x ∈ es, HintsTrue x) ↔ ∀ x ∈ es, KeepsLength x := by
  obtain ⟨response, steps, rfl, hsteps⟩ := rekey_steps h
  have hall : (∀ x ∈ steps.flatten, HintsTrue x) ↔ ∀ x ∈ steps.flatten, KeepsLength x := by
    rw [List.forall_mem_flatten, List.forall_mem_flatten]
    refine forall₂_congr fun step hstep => ?_
    obtain ⟨_, _, _, _, _, hkey⟩ := hsteps step hstep
    exact hkey.hints
  rw [List.forall_mem_cons, List.forall_mem_cons, hall]
  exact and_congr_left fun _ => Iff.rfl

end Rekey

/-- The hints that a put gives the inner store are true exactly if the provider writes as many
bytes for each blob that it encrypts as the caller says the blob has, and none for a blob that the
caller says nothing of. Those of a rekey are true exactly if each header that the provider
re-wraps is as long as before. -/
theorem size_hints_true_iff (headerSuffix : Key) :
    (∀ blobs es r, Traces ((requestLayer headerSuffix).put blobs) es r →
      ((∀ x ∈ es, HintsTrue x) ↔
        ∀ pair ∈ blobs.zip (encryptions es), pair.1.sizeHint.getD 0 = pair.2.written.length)) ∧
    (∀ key info count es r,
      TracesLocal ((requestLayer headerSuffix).rekeyVisitor.visit key info) count es r →
        ((∀ x ∈ es, HintsTrue x) ↔ ∀ x ∈ es, KeepsLength x)) ∧
    ∀ es r, Traces (requestLayer headerSuffix).rekey es r →
      ((∀ x ∈ es, HintsTrue x) ↔ ∀ x ∈ es, KeepsLength x) :=
  ⟨fun _ _ _ => put_hints, fun _ _ _ _ _ h => (rekeyVisitor_traces h).hints,
    fun _ _ => rekey_hints⟩

/-- A blob of one byte that comes without a hint. -/
def unsizedBlob : BlobInput := BlobInput.new ['k'] (Reader.ofBytes [1])

/-- Its ciphertext has two bytes. -/
def paddedRun : EncryptRun := { written := [2, 3], outcome := .header [4] }

/-- Its put. -/
def unsizedPut : List StoreExchange :=
  [⟨.encryptStream unsizedBlob.data, paddedRun⟩,
    ⟨.put [BlobInput.withSize ['k'] paddedRun.reader 0], (.ok { blobs := [] }, [])⟩,
    ⟨.put [BlobInput.withSize (['k'] ++ defaultHeaderSuffix) (Reader.ofBytes [4]) 1],
      (.ok { blobs := [] }, [])⟩]

/-- The rekey of its header to one of two bytes. -/
def longerRekey : List StoreExchange :=
  [⟨.get ['k'], .ok (Reader.ofBytes [4])⟩, ⟨.rekeyHeader [4], .ok (some [5, 6])⟩,
    ⟨.put [BlobInput.withSize ['k'] (Reader.ofBytes [5, 6]) 1], (.ok { blobs := [] }, [])⟩]

theorem unsizedPut_traces :
    Traces ((requestLayer defaultHeaderSuffix).put [unsizedBlob]) unsizedPut
      (.ok { blobs := [] }) := by
  unfold Traces
  have haccepts : AcceptsPut defaultHeaderSuffix unsizedBlob.key := by
    unfold AcceptsPut
    decide
  rw [put_run _ haccepts]
  exact .cons _ (.cons _ (.cons _ (.nil _)))

theorem longerRekey_traces :
    TracesLocal ((requestLayer defaultHeaderSuffix).rekeyVisitor.visit ['k'] none) 0 longerRekey
      (.ok true) :=
  ⟨1, .cons _ (.cons _ (.cons _ (.nil _)))⟩

/-- A put tells the inner store to expect nothing and hands it two bytes, and a rekey announces
one byte of two. -/
theorem size_hints_untrue :
    (Traces ((requestLayer defaultHeaderSuffix).put [unsizedBlob]) unsizedPut
        (.ok { blobs := [] }) ∧ ¬∀ x ∈ unsizedPut, HintsTrue x) ∧
      TracesLocal ((requestLayer defaultHeaderSuffix).rekeyVisitor.visit ['k'] none) 0 longerRekey
        (.ok true) ∧ ¬∀ x ∈ longerRekey, HintsTrue x := by
  refine ⟨⟨unsizedPut_traces, fun hall => ?_⟩, longerRekey_traces, fun hall => ?_⟩
  · have hdata := hall _ (List.mem_cons_of_mem _ List.mem_cons_self)
    cases hintsTrue_put_singleton.mp hdata
  · have hheader := hall _ (List.mem_cons_of_mem _ (List.mem_cons_of_mem _ List.mem_cons_self))
    cases hintsTrue_put_singleton.mp hheader

theorem size_hints_true_iff_unsized : ¬∀ x ∈ unsizedPut, HintsTrue x := by
  rw [(size_hints_true_iff defaultHeaderSuffix).1 _ _ _ unsizedPut_traces]
  intro hall
  cases hall (unsizedBlob, paddedRun) List.mem_cons_self

end BlobStorage
