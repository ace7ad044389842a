import BlobStorage.Concurrency.Requests
import BlobStorage.Prefix

/-!
# Put and get, request by request

What a `put` of one blob and a `get` have exchanged with the inner store, at every
point at which they can be. A put encrypts, writes the data object and then the
header object, and deletes the data object again when it has no header to write or
could not write it.
-/

namespace BlobStorage

open Fallible Program

variable {headerSuffix : Key}

/-- The program of `put` for one blob that passes validation. -/
def putRequests (headerSuffix : Key) (blob : BlobInput) :
    StoreProgram (Except BlobStorageError PutResult) :=
  .request (.encryptStream blob.data) fun run =>
  .request (.put [BlobInput.withSize blob.key run.reader (blob.sizeHint.getD 0)]) fun written =>
  match written.1 with
  | .error e => .done (.error e)
  | .ok result =>
      match run.result blob.key with
      | .error e => .request (.delete blob.key) fun _ => .done (.error e)
      | .ok header =>
          .request (.put [BlobInput.withSize (blob.key ++ headerSuffix) (Reader.ofBytes header)
            header.length]) fun headerWritten =>
          match headerWritten.1 with
          | .error e => .request (.delete blob.key) fun _ => .done (.error e)
          | .ok _ => .done (.ok
              { blobs := result.blobs.filter fun info => decide ¬headerSuffix <:+ info.key })

/-- The keys that `put` accepts. -/
def AcceptsPut (headerSuffix key : Key) : Prop :=
  ValidKey key ∧ ¬headerSuffix <:+ key ∧ ValidKey (key ++ headerSuffix)

theorem AcceptsPut.ne_headerKey {key : Key} (h : AcceptsPut headerSuffix key) (other : Key) :
    key ≠ other ++ headerSuffix := by
  rintro rfl
  exact h.2.1 (List.suffix_append other headerSuffix)

/-- A rollback is one delete, whatever comes of it. -/
theorem rollback_run {α : Type} (key : Key) (e : BlobStorageError) :
    (do let _ ← attempt (requestStore.delete [key])
        throw e : Fallible StoreProgram α).run =
      .request (.delete key) fun _ => .done (.error e) := by
  change Program.request _ _ = _
  congr 1
  funext response
  rcases response with (_ | _) | _ <;> rfl

theorem putBlob_run (blob : BlobInput) :
    ((requestLayer headerSuffix).putBlob blob).run =
      putRequests headerSuffix blob >>= fun result => pure (result.map PutResult.blobs) := by
  change Program.request _ _ = Program.request _ _
  congr 1
  funext run
  change Program.request _ _ = Program.request _ _
  congr 1
  funext written
  obtain ⟨result, objects⟩ := written
  cases result with
  | error e => rfl
  | ok result =>
      cases hrun : run.result blob.key with
      | error e => exact rollback_run blob.key e
      | ok header =>
          change Program.request _ _ = Program.request _ _
          congr 1
          funext headerWritten
          obtain ⟨headerResult, headerObjects⟩ := headerWritten
          cases headerResult with
          | error e => exact rollback_run blob.key e
          | ok _ => rfl

/-- Validation lets a batch through or ends it, and makes no request either way. -/
theorem checkPutKeys_cases (headerSuffix : Key) (keys : List Key) :
    ((∀ key ∈ keys, AcceptsPut headerSuffix key) ∧
        (requestLayer headerSuffix).checkPutKeys keys = pure ()) ∨
      ((¬∀ key ∈ keys, AcceptsPut headerSuffix key) ∧
        ∃ e, (requestLayer headerSuffix).checkPutKeys keys = throw e) := by
  induction keys with
  | nil => exact .inl ⟨by simp, rfl⟩
  | cons key rest ih =>
      rw [List.forall_mem_cons, EncryptedBlobStore.checkPutKeys]
      by_cases hvalid : ValidKey key
      · rw [checkKey_of_valid hvalid]
        by_cases hsuffix : headerSuffix <:+ key
        · have hcollision : (requestLayer headerSuffix).checkNoHeaderCollision key =
              throw _ := if_pos hsuffix
          rw [hcollision]
          exact .inr ⟨fun h => h.1.2.1 hsuffix, _, rfl⟩
        · have hcollision : (requestLayer headerSuffix).checkNoHeaderCollision key =
              pure () := if_neg hsuffix
          rw [hcollision]
          by_cases hheader : ValidKey (key ++ headerSuffix)
          · have hcheck : (checkKey ((requestLayer headerSuffix).headerKey key) :
                Fallible StoreProgram Unit) = pure () := checkKey_of_valid hheader
            rw [hcheck]
            rcases ih with ⟨hall, hrest⟩ | ⟨hnot, e, hrest⟩
            · exact .inl ⟨⟨⟨hvalid, hsuffix, hheader⟩, hall⟩, hrest⟩
            · exact .inr ⟨fun h => hnot h.2, e, hrest⟩
          · obtain ⟨e, _, he⟩ := @checkKey_of_not_valid StoreProgram _ _ hheader
            have hcheck : (checkKey ((requestLayer headerSuffix).headerKey key) :
                Fallible StoreProgram Unit) = throw e := he
            rw [hcheck]
            exact .inr ⟨fun h => hheader h.1.2.2, e, rfl⟩
      · obtain ⟨e, _, he⟩ := @checkKey_of_not_valid StoreProgram _ _ hvalid
        rw [he]
        exact .inr ⟨fun h => hvalid h.1.1, e, rfl⟩

theorem checkPutKeys_of_accepts {keys : List Key} (h : ∀ key ∈ keys, AcceptsPut headerSuffix key) :
    (requestLayer headerSuffix).checkPutKeys keys = pure () := by
  rcases checkPutKeys_cases headerSuffix keys with ⟨_, hcheck⟩ | ⟨hnot, _⟩
  · exact hcheck
  · exact absurd h hnot

/-- After validation, `put` is its requests. -/
theorem put_run (blob : BlobInput) (h : AcceptsPut headerSuffix blob.key) :
    ((requestLayer headerSuffix).put [blob]).run = putRequests headerSuffix blob := by
  change (do (requestLayer headerSuffix).checkPutKeys [blob.key]
             let infos ← (do let infos ← (requestLayer headerSuffix).putBlob blob
                             let others ← pure []
                             pure (infos ++ others))
             pure { blobs := infos } : Fallible StoreProgram PutResult).run = _
  rw [checkPutKeys_of_accepts (List.forall_mem_singleton.mpr h)]
  change (do let infos ← (do let infos ← (requestLayer headerSuffix).putBlob blob
                             let others ← pure []
                             pure (infos ++ others))
             pure { blobs := infos } : Fallible StoreProgram PutResult).run = _
  have hbind : (do let infos ← (do let infos ← (requestLayer headerSuffix).putBlob blob
                                   let others ← pure []
                                   pure (infos ++ others))
                   pure { blobs := infos } : Fallible StoreProgram PutResult).run =
      ((requestLayer headerSuffix).putBlob blob).run >>= fun result =>
        .done (result.map fun infos => { blobs := infos }) := by
    change (((requestLayer headerSuffix).putBlob blob).run >>= _ >>= _) = _
    rw [bind_assoc]
    congr 1
    funext result
    cases result with
    | error e => rfl
    | ok infos =>
        change Program.done _ = _
        rw [List.append_nil]
        rfl
  rw [hbind, putBlob_run, bind_assoc]
  conv_rhs => rw [← bind_done (putRequests headerSuffix blob)]
  congr 1
  funext result
  cases result <;> rfl

/-- A put that is not accepted makes no request at all. -/
theorem put_run_of_not_accepts (blob : BlobInput) (h : ¬AcceptsPut headerSuffix blob.key) :
    ∃ e, ((requestLayer headerSuffix).put [blob]).run = .done (.error e) := by
  obtain ⟨hall, _⟩ | ⟨_, e, he⟩ := checkPutKeys_cases headerSuffix [blob.key]
  · exact absurd (hall blob.key (List.mem_singleton_self _)) h
  refine ⟨e, ?_⟩
  change (do (requestLayer headerSuffix).checkPutKeys [blob.key]
             let infos ← (requestLayer headerSuffix).putBlobs [blob]
             pure { blobs := infos } : Fallible StoreProgram PutResult).run = _
  rw [he]
  rfl

/-- What a put of one blob has exchanged, at each point at which it can be. -/
inductive PutTrace (headerSuffix : Key) (blob : BlobInput) : List StoreExchange → Prop where
  | start : PutTrace headerSuffix blob []
  | encrypted (run : EncryptRun) : PutTrace headerSuffix blob [⟨.encryptStream blob.data, run⟩]
  | dataPut (run : EncryptRun) (written : Except BlobStorageError PutResult × List (Key × Bytes)) :
      PutTrace headerSuffix blob [⟨.encryptStream blob.data, run⟩,
        ⟨.put [BlobInput.withSize blob.key run.reader (blob.sizeHint.getD 0)], written⟩]
  | unencrypted (run : EncryptRun) (result : PutResult) (objects : List (Key × Bytes))
      (deleted : Except DeleteFailure Unit) (noHeader : ∀ header, run.outcome ≠ .header header) :
      PutTrace headerSuffix blob [⟨.encryptStream blob.data, run⟩,
        ⟨.put [BlobInput.withSize blob.key run.reader (blob.sizeHint.getD 0)],
          (.ok result, objects)⟩,
        ⟨.delete blob.key, deleted⟩]
  | headerPut (run : EncryptRun) (result : PutResult) (objects : List (Key × Bytes))
      (header : Bytes) (written : Except BlobStorageError PutResult × List (Key × Bytes))
      (hasHeader : run.outcome = .header header) :
      PutTrace headerSuffix blob [⟨.encryptStream blob.data, run⟩,
        ⟨.put [BlobInput.withSize blob.key run.reader (blob.sizeHint.getD 0)],
          (.ok result, objects)⟩,
        ⟨.put [BlobInput.withSize (blob.key ++ headerSuffix) (Reader.ofBytes header)
          header.length], written⟩]
  | rolledBack (run : EncryptRun) (result : PutResult) (objects : List (Key × Bytes))
      (header : Bytes) (e : BlobStorageError) (headerObjects : List (Key × Bytes))
      (deleted : Except DeleteFailure Unit) (hasHeader : run.outcome = .header header) :
      PutTrace headerSuffix blob [⟨.encryptStream blob.data, run⟩,
        ⟨.put [BlobInput.withSize blob.key run.reader (blob.sizeHint.getD 0)],
          (.ok result, objects)⟩,
        ⟨.put [BlobInput.withSize (blob.key ++ headerSuffix) (Reader.ofBytes header)
          header.length], (.error e, headerObjects)⟩,
        ⟨.delete blob.key, deleted⟩]

/-- What a put that returned `Ok` exchanged. -/
def PutDone (headerSuffix : Key) (blob : BlobInput) (es : List StoreExchange) : Prop :=
  ∃ run result objects header headerResult headerObjects, run.outcome = .header header ∧
    es = [⟨.encryptStream blob.data, run⟩,
      ⟨.put [BlobInput.withSize blob.key run.reader (blob.sizeHint.getD 0)],
        (.ok result, objects)⟩,
      ⟨.put [BlobInput.withSize (blob.key ++ headerSuffix) (Reader.ofBytes header)
        header.length], (.ok headerResult, headerObjects)⟩]

theorem putRequests_path {blob : BlobInput} {es : List StoreExchange}
    {rest : StoreProgram (Except BlobStorageError PutResult)}
    (h : Path (putRequests headerSuffix blob) es rest) :
    PutTrace headerSuffix blob es ∧
      ∀ result, rest = .done (.ok result) → PutDone headerSuffix blob es := by
  rcases path_request_iff.mp h with ⟨rfl, rfl⟩ | ⟨run, es₁, rfl, h₁⟩
  · exact ⟨.start, fun _ h => by cases h⟩
  rcases path_request_iff.mp h₁ with ⟨rfl, rfl⟩ | ⟨⟨result, objects⟩, es₂, rfl, h₂⟩
  · exact ⟨.encrypted run, fun _ h => by cases h⟩
  cases result with
  | error e =>
      obtain ⟨rfl, rfl⟩ := path_done_iff.mp h₂
      exact ⟨.dataPut run _, fun _ h => by cases h⟩
  | ok result =>
      cases hrun : EncryptRun.result run blob.key with
      | error e =>
          have hnone : ∀ header, EncryptRun.outcome run ≠ .header header := by
            intro header houtcome
            rw [EncryptRun.result_eq_ok_iff.mpr houtcome] at hrun
            cases hrun
          simp only [hrun] at h₂
          rcases path_request_iff.mp h₂ with ⟨rfl, rfl⟩ | ⟨deleted, es₃, rfl, h₃⟩
          · exact ⟨.dataPut run _, fun _ h => by cases h⟩
          · obtain ⟨rfl, rfl⟩ := path_done_iff.mp h₃
            exact ⟨.unencrypted run result objects deleted hnone, fun _ h => by cases h⟩
      | ok header =>
          have hheader : EncryptRun.outcome run = .header header :=
            EncryptRun.result_eq_ok_iff.mp hrun
          simp only [hrun] at h₂
          rcases path_request_iff.mp h₂ with
            ⟨rfl, rfl⟩ | ⟨⟨headerResult, headerObjects⟩, es₃, rfl, h₃⟩
          · exact ⟨.dataPut run _, fun _ h => by cases h⟩
          cases headerResult with
          | error e =>
              rcases path_request_iff.mp h₃ with ⟨rfl, rfl⟩ | ⟨deleted, es₄, rfl, h₄⟩
              · exact ⟨.headerPut run result objects header _ hheader, fun _ h => by cases h⟩
              · obtain ⟨rfl, rfl⟩ := path_done_iff.mp h₄
                exact ⟨.rolledBack run result objects header e headerObjects deleted hheader,
                  fun _ h => by cases h⟩
          | ok headerResult =>
              obtain ⟨rfl, rfl⟩ := path_done_iff.mp h₃
              exact ⟨.headerPut run result objects header _ hheader,
                fun _ _ => ⟨run, result, objects, header, headerResult, headerObjects, hheader, rfl⟩⟩

theorem eq_dropLast_of_append {α : Type} {front l : List α} {x : α} (h : front ++ [x] = l) :
    front = l.dropLast ∧ l.getLast? = some x := by
  subst h
  simp

/-- The two writes of a put: the ciphertext after the encryption alone, the header
after both. -/
theorem PutTrace.put_inv {blob : BlobInput} {es : List StoreExchange} {blobs : List BlobInput}
    {written : Except BlobStorageError PutResult × List (Key × Bytes)}
    (h : PutTrace headerSuffix blob (es ++ [⟨.put blobs, written⟩])) :
    ∃ run, (es = [⟨.encryptStream blob.data, run⟩] ∧
        blobs = [BlobInput.withSize blob.key run.reader (blob.sizeHint.getD 0)]) ∨
      ∃ result objects header, run.outcome = .header header ∧
        es = [⟨.encryptStream blob.data, run⟩,
          ⟨.put [BlobInput.withSize blob.key run.reader (blob.sizeHint.getD 0)],
            (.ok result, objects)⟩] ∧
        blobs = [BlobInput.withSize (blob.key ++ headerSuffix) (Reader.ofBytes header)
          header.length] := by
  generalize htrace : es ++ [⟨.put blobs, written⟩] = trace at h
  cases h with
  | start => simp at htrace
  | encrypted run =>
      obtain ⟨_, hlast⟩ := eq_dropLast_of_append htrace
      cases hlast
  | dataPut run written' =>
      obtain ⟨rfl, hlast⟩ := eq_dropLast_of_append htrace
      cases hlast
      exact ⟨run, .inl ⟨rfl, rfl⟩⟩
  | unencrypted run result objects deleted noHeader =>
      obtain ⟨_, hlast⟩ := eq_dropLast_of_append htrace
      cases hlast
  | headerPut run result objects header written' hasHeader =>
      obtain ⟨rfl, hlast⟩ := eq_dropLast_of_append htrace
      cases hlast
      exact ⟨run, .inr ⟨result, objects, header, hasHeader, rfl, rfl⟩⟩
  | rolledBack run result objects header e headerObjects deleted hasHeader =>
      obtain ⟨_, hlast⟩ := eq_dropLast_of_append htrace
      cases hlast

/-- A put encrypts once, before anything else. -/
theorem PutTrace.head {blob : BlobInput} {es : List StoreExchange}
    (h : PutTrace headerSuffix blob es) :
    es = [] ∨ ∃ run rest, es = ⟨.encryptStream blob.data, run⟩ :: rest ∧
      ∀ input run', (⟨.encryptStream input, run'⟩ : StoreExchange) ∉ rest := by
  cases h with
  | start => exact .inl rfl
  | encrypted run => exact .inr ⟨run, _, rfl, by simp⟩
  | dataPut run _ => exact .inr ⟨run, _, rfl, by simp⟩
  | unencrypted run _ _ _ _ => exact .inr ⟨run, _, rfl, by simp⟩
  | headerPut run _ _ _ _ _ => exact .inr ⟨run, _, rfl, by simp⟩
  | rolledBack run _ _ _ _ _ _ _ => exact .inr ⟨run, _, rfl, by simp⟩

theorem PutTrace.encrypt_inv {blob : BlobInput} {es : List StoreExchange} {input : Reader}
    {run : EncryptRun} (h : PutTrace headerSuffix blob es)
    (hmem : (⟨.encryptStream input, run⟩ : StoreExchange) ∈ es) :
    es.head? = some ⟨.encryptStream input, run⟩ := by
  rcases h.head with rfl | ⟨run', rest, rfl, hrest⟩
  · cases hmem
  · rcases List.mem_cons.mp hmem with hmem | hmem
    · rw [List.head?_cons, hmem]
    · exact absurd hmem (hrest input run)

/-- The program of `get` for a key that is not reserved. -/
def getRequests (headerSuffix key : Key) : StoreProgram (Except BlobStorageError Reader) :=
  .request (.get key) fun data =>
  match data with
  | .error e => .done (.error (PrefixBlobStore.mapError key e))
  | .ok encData =>
      .request (.get (key ++ headerSuffix)) fun header =>
      match header with
      | .error e => .done (.error (PrefixBlobStore.mapError key e))
      | .ok headerData =>
          match headerData.readToEnd with
          | .error e => .done (.error (.ofIo e))
          | .ok headerBytes =>
              .request (.decryptStream encData headerBytes) fun run =>
              .done (.ok (run.reader key))

theorem get_run (key : Key) (h : ¬headerSuffix <:+ key) :
    ((requestLayer headerSuffix).get key).run = getRequests headerSuffix key := by
  have hcollision : (requestLayer headerSuffix).checkNoHeaderCollision key = pure () := if_neg h
  rw [EncryptedBlobStore.get, hcollision]
  change Program.request _ _ = Program.request _ _
  congr 1
  funext data
  cases data with
  | error e => cases e <;> rfl
  | ok encData =>
      change Program.request _ _ = Program.request _ _
      congr 1
      funext header
      cases header with
      | error e => cases e <;> rfl
      | ok headerData =>
          change ExceptT.run (match headerData.readToEnd with | .error _ => _ | .ok _ => _) =
            match headerData.readToEnd with | .error _ => _ | .ok _ => _
          cases headerData.readToEnd <;> rfl

theorem get_run_of_reserved {key : Key} (h : headerSuffix <:+ key) :
    ∃ e, ((requestLayer headerSuffix).get key).run = .done (.error e) := by
  have hcollision : (requestLayer headerSuffix).checkNoHeaderCollision key = throw _ := if_pos h
  rw [EncryptedBlobStore.get, hcollision]
  exact ⟨_, rfl⟩

/-- What a get has exchanged, at each point at which it can be. -/
inductive GetTrace (headerSuffix key : Key) : List StoreExchange → Prop where
  | start : GetTrace headerSuffix key []
  | dataRead (data : Except BlobStorageError Reader) : GetTrace headerSuffix key [⟨.get key, data⟩]
  | headerRead (encData : Reader) (header : Except BlobStorageError Reader) :
      GetTrace headerSuffix key [⟨.get key, .ok encData⟩, ⟨.get (key ++ headerSuffix), header⟩]
  | decrypted (encData headerData : Reader) (headerBytes : Bytes) (run : DecryptRun)
      (read : headerData.readToEnd = .ok headerBytes) :
      GetTrace headerSuffix key [⟨.get key, .ok encData⟩,
        ⟨.get (key ++ headerSuffix), .ok headerData⟩,
        ⟨.decryptStream encData headerBytes, run⟩]

/-- What a get has exchanged that returned this result. -/
def GetDone (headerSuffix key : Key) (es : List StoreExchange) :
    Except BlobStorageError Reader → Prop
  | .ok reader => ∃ encData headerData headerBytes run,
      headerData.readToEnd = .ok headerBytes ∧
      es = [⟨.get key, .ok encData⟩, ⟨.get (key ++ headerSuffix), .ok headerData⟩,
        ⟨.decryptStream encData headerBytes, run⟩] ∧ reader = run.reader key
  | .error e => (∃ e', e = PrefixBlobStore.mapError key e' ∧
      (es = [⟨.get key, .error e'⟩] ∨
        ∃ encData, es = [⟨.get key, .ok encData⟩, ⟨.get (key ++ headerSuffix), .error e'⟩])) ∨
      ∃ encData headerData failure, headerData.readToEnd = .error failure ∧
        es = [⟨.get key, .ok encData⟩, ⟨.get (key ++ headerSuffix), .ok headerData⟩]

theorem getRequests_path {key : Key} {es : List StoreExchange}
    {rest : StoreProgram (Except BlobStorageError Reader)}
    (h : Path (getRequests headerSuffix key) es rest) :
    GetTrace headerSuffix key es ∧
      ∀ result, rest = .done result → GetDone headerSuffix key es result := by
  rcases path_request_iff.mp h with ⟨rfl, rfl⟩ | ⟨data, es₁, rfl, h₁⟩
  · exact ⟨.start, fun _ h => by cases h⟩
  cases data with
  | error e =>
      obtain ⟨rfl, rfl⟩ := path_done_iff.mp h₁
      refine ⟨.dataRead _, fun result h => ?_⟩
      cases h
      exact .inl ⟨e, rfl, .inl rfl⟩
  | ok encData =>
      rcases path_request_iff.mp h₁ with ⟨rfl, rfl⟩ | ⟨header, es₂, rfl, h₂⟩
      · exact ⟨.dataRead _, fun _ h => by cases h⟩
      cases header with
      | error e =>
          obtain ⟨rfl, rfl⟩ := path_done_iff.mp h₂
          refine ⟨.headerRead encData _, fun result h => ?_⟩
          cases h
          exact .inl ⟨e, rfl, .inr ⟨encData, rfl⟩⟩
      | ok headerData =>
          cases hread : headerData.readToEnd with
          | error failure =>
              simp only [hread] at h₂
              obtain ⟨rfl, rfl⟩ := path_done_iff.mp h₂
              refine ⟨.headerRead encData _, fun result h => ?_⟩
              cases h
              exact .inr ⟨encData, headerData, failure, hread, rfl⟩
          | ok headerBytes =>
              simp only [hread] at h₂
              rcases path_request_iff.mp h₂ with ⟨rfl, rfl⟩ | ⟨run, es₃, rfl, h₃⟩
              · exact ⟨.headerRead encData _, fun _ h => by cases h⟩
              · obtain ⟨rfl, rfl⟩ := path_done_iff.mp h₃
                refine ⟨.decrypted encData headerData headerBytes run hread, fun result h => ?_⟩
                cases h
                exact ⟨encData, headerData, headerBytes, run, hread, rfl, rfl⟩

end BlobStorage
