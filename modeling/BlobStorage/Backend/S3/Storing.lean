import BlobStorage.Backend.S3.Reliable
import BlobStorage.Backend.S3.Uploads
import BlobStorage.Refinement.Contract

/-!
# Puts to a reliable service

What a put leaves in the bucket of a reliable service is known exactly: the blobs before the first
one whose stream breaks off or takes more parts than the service allows, and no unfinished upload.
-/

namespace BlobStorage

open Fallible

namespace S3BlobStore

variable {σ : Type}

/-- The blob can be stored: its stream does not break off, and there are enough parts for it. -/
def Fits (self : S3BlobStore (StateM σ)) (limits : ServiceLimits) (blob : BlobInput) : Prop :=
  blob.data.failure = none ∧ blob.data.bytes.length ≤ limits.parts * self.partSize

instance (self : S3BlobStore (StateM σ)) (limits : ServiceLimits) :
    DecidablePred (self.Fits limits) := fun blob => by
  unfold Fits
  infer_instance

/-- The number of parts of a stream. -/
theorem length_partsOf_le_iff {partSize : Nat} (hpositive : 0 < partSize) (content : Bytes)
    (n : Nat) : (partsOf partSize content).length ≤ n ↔ content.length ≤ n * partSize := by
  have hsize : partSize - 1 + 1 = partSize := Nat.sub_add_cancel hpositive
  rw [partsOf, length_chunks, hsize, ← Nat.add_sub_assoc hpositive, Nat.div_le_iff_le_mul hpositive,
    Nat.mul_comm]
  omega

section Put

variable [Clock (StateM σ)] {self : S3BlobStore (StateM σ)} {vault : σ → Vault Unit}
  {limits : ServiceLimits} (R : self.Reliable vault limits) {s : σ} {key : Key}
  {uploadId : String} {upload : Upload Unit}

omit [Clock (StateM σ)] in
theorem exec_sent (self : S3BlobStore (StateM σ)) (q : S3Request) (message : String) (s : σ) :
    exec (self.request q message) s =
      ((self.send q s).1.mapError (self.requestError message), (self.send q s).2) := rfl

include R

theorem Reliable.exec_abortUpload (hmine : (vault s).uploads uploadId = some upload)
    (hkey : upload.key = key) :
    ∃ t, exec (self.abortUpload key uploadId) s = (.ok (), t) ∧
      vault t = (vault s).discard uploadId := by
  have haborts := R.aborts hmine
  rw [hkey] at haborts
  exact ⟨_, rfl, (R.carries haborts).abortMultipartUpload_inv⟩

/-- How the parts of a stream go when there are enough for all of it. -/
theorem Reliable.exec_uploadParts (hpart : self.partSize ≤ limits.partSize) {number : Nat}
    (hnumber : 1 ≤ number) {reader : Reader} (hunbroken : reader.failure = none)
    (hmine : (vault s).uploads uploadId = some upload) (hkey : upload.key = key)
    (hfew : number + (partsOf self.partSize reader.bytes).length ≤ limits.parts + 1) :
    ∃ completed upload' t,
      exec (self.uploadParts key uploadId number reader) s =
        (.ok (completed, reader.bytes.length), t) ∧
      vault t = (vault s).replace uploadId upload' ∧ upload'.key = key ∧
      (∀ n < number, upload'.parts n = upload.parts n) ∧
      upload'.contents completed = some (partsOf self.partSize reader.bytes) ∧
      completed.map CompletedPart.partNumber = List.range' number completed.length := by
  induction hlength : reader.bytes.length using Nat.strong_induction_on
    generalizing number reader upload s with
  | _ length ih =>
  subst hlength
  rw [uploadParts]
  split
  · next e hread =>
      obtain ⟨rest, hok, _⟩ | ⟨e', _, hfailure⟩ := @readPart_cases reader self.partSize
      · rw [hok] at hread
        cases hread
      · rw [hunbroken] at hfailure
        cases hfailure
  · next buffer rest hread =>
      obtain ⟨rest', hok, hbytes, hfailure, _⟩ | ⟨e', herror, _⟩ :=
        @readPart_cases reader self.partSize
      swap
      · rw [herror] at hread
        cases hread
      rw [hok] at hread
      cases hread
      by_cases hempty : reader.bytes = []
      · have hbuffer : reader.bytes.take self.partSize = [] := by rw [hempty, List.take_nil]
        rw [dif_pos hbuffer, hempty, partsOf_nil]
        exact ⟨[], upload, s, rfl, ((vault s).replace_self _ _ hmine).symm, hkey,
          fun _ _ => rfl, rfl, rfl⟩
      have hbuffer : reader.bytes.take self.partSize ≠ [] := by
        rw [Ne, List.take_eq_nil_iff]
        rintro (hzero | hnil)
        · exact absurd hzero (Nat.ne_of_gt self.partSize_pos)
        · exact hempty hnil
      rw [partsOf_of_ne_nil self.partSize_pos hempty, List.length_cons] at hfew
      obtain ⟨eTag, htaken⟩ := R.takes hmine hnumber (by omega)
        (Nat.le_trans (List.length_take_le self.partSize reader.bytes) hpart)
      rw [hkey] at htaken
      obtain ⟨tag, rfl, hvault⟩ := (R.carries htaken).uploadPart_inv hmine
      have hthere : (vault (self.send (.uploadPart key uploadId number
          (reader.bytes.take self.partSize)) s).2).uploads uploadId =
            some (upload.receive number (reader.bytes.take self.partSize) tag) := by
        rw [hvault]
        exact (vault s).receive_uploads_self _ _ _ _ _
      obtain ⟨completed, upload', t, hexec, hvault', hkey', hbefore, hcontents, hnumbers⟩ :=
        ih _ (readPart_shorter self.partSize_pos hok hbuffer) (Nat.le_succ_of_le hnumber)
          (hfailure.trans hunbroken) hthere hkey (by rw [hbytes]; omega) rfl
      refine ⟨{ eTag := tag, partNumber := number } :: completed, upload', t, ?_, ?_, hkey',
        fun n hn => ?_, ?_, ?_⟩
      · rw [dif_neg hbuffer, exec_bind, exec_perform, htaken]
        dsimp only
        have htotal : (reader.bytes.take self.partSize).length + rest.bytes.length =
            reader.bytes.length := by
          rw [hbytes, ← List.length_append, List.take_append_drop]
        rw [exec_bind_ok hexec, ← htotal]
        rfl
      · rw [hvault', hvault, Vault.receive, Vault.replace_replace]
      · rw [hbefore n (Nat.lt_succ_of_lt hn), Upload.receive_parts_of_ne _ _ _ (Nat.ne_of_lt hn)]
      · have hlast := hbefore number (Nat.lt_succ_self number)
        rw [Upload.receive_parts_self] at hlast
        rw [Upload.contents]
        dsimp only
        rw [hlast]
        dsimp only
        rw [if_pos rfl, hcontents, hbytes, Option.map_some, partsOf_of_ne_nil self.partSize_pos hempty]
      · rw [List.map_cons, hnumbers, List.length_cons, List.range'_succ]

/-- How they go when the stream breaks off, or there are not enough parts for it. -/
theorem Reliable.exec_uploadParts_error (hpart : self.partSize ≤ limits.partSize) {number : Nat}
    (hnumber : 1 ≤ number) (hroom : number ≤ limits.parts + 1) {reader : Reader}
    (hmine : (vault s).uploads uploadId = some upload) (hkey : upload.key = key)
    (hbad : reader.failure ≠ none ∨
      limits.parts + 1 < number + (partsOf self.partSize reader.bytes).length) :
    ∃ e t, exec (self.uploadParts key uploadId number reader) s = (.error e, t) ∧
      vault t = (vault s).discard uploadId := by
  induction hlength : reader.bytes.length using Nat.strong_induction_on
    generalizing number reader upload s with
  | _ length ih =>
  subst hlength
  rw [uploadParts]
  split
  · next e hread =>
      obtain ⟨t, habort, hvault⟩ := R.exec_abortUpload hmine hkey
      exact ⟨_, t, exec_bind_ok habort, hvault⟩
  · next buffer rest hread =>
      obtain ⟨rest', hok, hbytes, hfailure, hends⟩ | ⟨e', herror, _⟩ :=
        @readPart_cases reader self.partSize
      swap
      · rw [herror] at hread
        cases hread
      rw [hok] at hread
      cases hread
      by_cases hempty : reader.bytes = []
      · rw [hempty, partsOf_nil] at hbad
        obtain hbroken | hmore := hbad
        · exact absurd (hends (by rw [hempty]; exact self.partSize_pos)) hbroken
        · exact absurd hroom (Nat.not_le_of_lt hmore)
      have hbuffer : reader.bytes.take self.partSize ≠ [] := by
        rw [Ne, List.take_eq_nil_iff]
        rintro (hzero | hnil)
        · exact absurd hzero (Nat.ne_of_gt self.partSize_pos)
        · exact hempty hnil
      rw [dif_neg hbuffer]
      by_cases hlast : number ≤ limits.parts
      swap
      · -- The service takes no part with this number.
        obtain ⟨e, hrefused⟩ := R.takesNoMore s key uploadId
          (reader.bytes.take self.partSize) (Nat.lt_of_not_le hlast)
        have hstays := R.refuses hrefused
        obtain ⟨t, habort, hvault⟩ := R.exec_abortUpload
          (s := (self.send (.uploadPart key uploadId number (reader.bytes.take self.partSize)) s).2)
          (by rw [hstays]; exact hmine) hkey
        rw [hstays] at hvault
        rw [exec_bind, exec_perform, hrefused]
        exact ⟨_, t, exec_bind_ok habort, hvault⟩
      obtain ⟨eTag, htaken⟩ := R.takes hmine hnumber hlast
        (Nat.le_trans (List.length_take_le self.partSize reader.bytes) hpart)
      rw [hkey] at htaken
      obtain ⟨tag, rfl, hvault⟩ := (R.carries htaken).uploadPart_inv hmine
      have hthere : (vault (self.send (.uploadPart key uploadId number
          (reader.bytes.take self.partSize)) s).2).uploads uploadId =
            some (upload.receive number (reader.bytes.take self.partSize) tag) := by
        rw [hvault]
        exact (vault s).receive_uploads_self _ _ _ _ _
      have hbad' : rest.failure ≠ none ∨
          limits.parts + 1 < number + 1 + (partsOf self.partSize rest.bytes).length := by
        rw [partsOf_of_ne_nil self.partSize_pos hempty, List.length_cons] at hbad
        rw [hfailure, hbytes]
        refine hbad.imp_right fun hmore => ?_
        omega
      obtain ⟨e, t, hexec, hvault'⟩ := ih _ (readPart_shorter self.partSize_pos hok hbuffer)
        (Nat.le_succ_of_le hnumber) (Nat.succ_le_succ hlast) hthere hkey hbad' rfl
      refine ⟨e, t, ?_, ?_⟩
      · rw [exec_bind, exec_perform, htaken]
        exact exec_bind_error hexec
      · rw [hvault', hvault, Vault.receive, Vault.discard_replace]

/-- The parts of a stream are put together to its content. -/
theorem Reliable.exec_completeMultipart (hobject : limits.parts * self.partSize ≤ limits.objectSize)
    {content : Bytes} (hmore : content ≠ []) (hfits : content.length ≤ limits.parts * self.partSize)
    (hmine : (vault s).uploads uploadId = some upload) (hkey : upload.key = key)
    {completed : List CompletedPart}
    (hcontents : upload.contents completed = some (partsOf self.partSize content))
    (hnumbers : completed.map CompletedPart.partNumber = List.range' 1 completed.length) :
    ∃ info t, exec (self.completeMultipart key uploadId completed content.length) s =
        (.ok info, t) ∧ info.key = key ∧
      vault t = ((vault s).discard uploadId).store key content := by
  have hwhole : (partsOf self.partSize content).flatten = content := flatten_chunks _ _
  have htakes : limits.Takes (partsOf self.partSize content) := by
    refine ⟨?_, fun part hpart => ?_, ?_⟩
    · rw [partsOf_of_ne_nil self.partSize_pos hmore]
      exact List.cons_ne_nil _ _
    · rw [length_of_mem_dropLast_chunks hpart, Nat.sub_add_cancel self.partSize_pos]
      exact self.minPartSize
    · rw [hwhole]
      exact Nat.le_trans hfits hobject
  obtain ⟨eTag, hcompleted⟩ := R.completes hmine hcontents htakes
    (by rw [hnumbers]; exact List.pairwise_lt_range' 1)
  rw [hkey] at hcompleted
  obtain ⟨contents, hsame, hvault⟩ := (R.carries hcompleted).completeMultipartUpload_inv hmine
  rw [hcontents] at hsame
  cases hsame
  rw [completeMultipart, exec_bind, exec_sent, hcompleted]
  refine ⟨_, _, rfl, rfl, (R.clock _).trans ?_⟩
  rw [hvault, hwhole]

/-- The upload of a stream, from its beginning. -/
theorem Reliable.exec_uploadMultipart (hpart : self.partSize ≤ limits.partSize)
    (hobject : limits.parts * self.partSize ≤ limits.objectSize)
    (hkey : limits.takesKey key = true) {reader : Reader} (hmore : reader.bytes ≠ []) :
    (reader.failure = none ∧ reader.bytes.length ≤ limits.parts * self.partSize →
      ∃ info t, exec (self.uploadMultipart key reader) s = (.ok info, t) ∧ info.key = key ∧
        vault t = (vault s).store key reader.bytes) ∧
    (¬(reader.failure = none ∧ reader.bytes.length ≤ limits.parts * self.partSize) →
      ∃ e t, exec (self.uploadMultipart key reader) s = (.error e, t) ∧ vault t = vault s) := by
  obtain ⟨uploadId, hstarted⟩ := R.starts s hkey
  obtain ⟨_, hsame, hfresh, hvault⟩ := (R.carries hstarted).createMultipartUpload_inv
  cases hsame
  have hstart : exec (self.startMultipart key) s =
      (.ok uploadId, (self.send (.createMultipartUpload key) s).2) := by
    rw [startMultipart, exec_bind, exec_sent, hstarted]
    rfl
  have hthere : (vault (self.send (.createMultipartUpload key) s).2).uploads uploadId =
      some { client := (), key, parts := fun _ => none } := by
    rw [hvault]
    exact (vault s).start_uploads_self key uploadId ()
  have hcount := length_partsOf_le_iff self.partSize_pos reader.bytes limits.parts
  constructor
  · rintro ⟨hunbroken, hfits⟩
    obtain ⟨completed, upload, t, hexec, hvault', hkey', _, hcontents, hnumbers⟩ :=
      R.exec_uploadParts hpart (Nat.le_refl 1) hunbroken hthere rfl (by omega)
    obtain ⟨info, u, hcomplete, hinfo, hstored⟩ := R.exec_completeMultipart hobject hmore hfits
      (show (vault t).uploads uploadId = some upload by
        rw [hvault']
        exact Function.update_self ..) hkey' hcontents hnumbers
    refine ⟨info, u, ?_, hinfo, ?_⟩
    · rw [uploadMultipart, exec_bind_ok hstart, exec_bind_ok hexec]
      exact hcomplete
    · rw [hstored, hvault', hvault, Vault.start, Vault.replace_replace, Vault.discard_replace,
        Vault.discard_of_fresh _ _ hfresh]
  · intro hbad
    have hbad' : reader.failure ≠ none ∨
        limits.parts + 1 < 1 + (partsOf self.partSize reader.bytes).length := by
      rw [not_and_or] at hbad
      refine hbad.imp_right fun hmany => ?_
      rw [← hcount] at hmany
      omega
    obtain ⟨e, t, hexec, hvault'⟩ := R.exec_uploadParts_error hpart (Nat.le_refl 1) (by omega)
      hthere rfl hbad'
    refine ⟨e, t, ?_, ?_⟩
    · rw [uploadMultipart, exec_bind_ok hstart]
      exact exec_bind_error hexec
    · rw [hvault', hvault, Vault.start, Vault.discard_replace, Vault.discard_of_fresh _ _ hfresh]

theorem Reliable.exec_putObject (hkey : limits.takesKey key = true) {content : Bytes}
    (hfits : content.length ≤ limits.partSize) :
    ∃ info t, exec (self.putObject key content) s = (.ok info, t) ∧ info.key = key ∧
      vault t = (vault s).store key content := by
  obtain ⟨eTag, hput⟩ := R.puts s hkey hfits
  rw [putObject, exec_bind, exec_sent, hput]
  exact ⟨_, _, rfl, rfl, (R.clock _).trans (R.carries hput).putObject_inv⟩

/-- A blob is stored if it fits, and otherwise leaves nothing behind. -/
theorem Reliable.exec_putBlobs_cons (hpart : self.partSize ≤ limits.partSize)
    (hobject : limits.parts * self.partSize ≤ limits.objectSize) {blob : BlobInput}
    (hkey : limits.takesKey blob.key = true) (rest : List BlobInput) :
    (self.Fits limits blob → ∃ info t, info.key = blob.key ∧
      vault t = (vault s).store blob.key blob.data.bytes ∧
      exec (self.putBlobs (blob :: rest)) s = exec (do
        let others ← self.putBlobs rest
        pure (info :: others)) t) ∧
    (¬self.Fits limits blob → ∃ e t, exec (self.putBlobs (blob :: rest)) s = (.error e, t) ∧
      vault t = vault s) := by
  rw [putBlobs]
  cases hfill : fillLookahead [] blob.data with
  | error e =>
      refine ⟨fun hfits => ?_, fun _ => ⟨_, s, rfl, rfl⟩⟩
      obtain ⟨lookahead, reader, hok, _⟩ := @fillLookahead_of_unbroken [] blob.data hfits.1
      rw [hfill] at hok
      cases hok
  | ok filled =>
      obtain ⟨lookahead, reader⟩ := filled
      obtain ⟨hfailure, hbytes, hend⟩ := fillLookahead_ok hfill
      rw [List.nil_append] at hbytes
      dsimp only
      split
      · next hshort =>
          obtain ⟨hnothing, hunbroken⟩ := hend hshort
          rw [hnothing, List.append_nil] at hbytes
          rw [hbytes] at hshort ⊢
          have hsmall : blob.data.bytes.length ≤ self.partSize :=
            Nat.le_trans (Nat.le_of_lt hshort) self.minPartSize
          have hfits : self.Fits limits blob :=
            ⟨hunbroken, Nat.le_trans hsmall (Nat.le_mul_of_pos_left _ limits.somePart)⟩
          refine ⟨fun _ => ?_, fun hbad => absurd hfits hbad⟩
          obtain ⟨info, t, hexec, hinfo, hvault⟩ := @Reliable.exec_putObject σ _ self vault limits R
            s blob.key hkey _ (Nat.le_trans hsmall hpart)
          exact ⟨info, t, hinfo, hvault, exec_bind_ok hexec⟩
      · next hlong =>
          have hmore : (Reader.chain lookahead reader).bytes ≠ [] := by
            intro hnil
            obtain ⟨hnone, _⟩ := List.append_eq_nil_iff.mp hnil
            rw [hnone] at hlong
            exact hlong (by decide)
          have hchain : (Reader.chain lookahead reader).failure = blob.data.failure := hfailure
          have hwhole : (Reader.chain lookahead reader).bytes = blob.data.bytes := hbytes
          obtain ⟨hgood, hbad⟩ := @Reliable.exec_uploadMultipart σ _ self vault limits R s blob.key
            hpart hobject hkey _ hmore
          rw [hchain, hwhole] at hgood hbad
          constructor
          · intro hfits
            obtain ⟨info, t, hexec, hinfo, hvault⟩ := hgood hfits
            exact ⟨info, t, hinfo, hvault, exec_bind_ok hexec⟩
          · intro hnot
            obtain ⟨e, t, hexec, hvault⟩ := hbad hnot
            exact ⟨e, t, exec_bind_error hexec, hvault⟩

/-- The batch is stored up to the first blob that does not fit. -/
theorem Reliable.exec_putBlobs (hpart : self.partSize ≤ limits.partSize)
    (hobject : limits.parts * self.partSize ≤ limits.objectSize) {blobs : List BlobInput}
    (hkeys : ∀ blob ∈ blobs, limits.takesKey blob.key = true) :
    ∃ result t, exec (self.putBlobs blobs) s = (result, t) ∧
      vault t = (vault s).storeAll
        (entriesOf (blobs.takeWhile fun blob => decide (self.Fits limits blob))) ∧
      ((∀ blob ∈ blobs, self.Fits limits blob) →
        ∃ infos, result = .ok infos ∧ infos.map BlobMeta.key = blobs.map BlobInput.key) ∧
      ((¬∀ blob ∈ blobs, self.Fits limits blob) → ∃ e, result = .error e) := by
  induction blobs generalizing s with
  | nil =>
      exact ⟨.ok [], s, rfl, rfl, fun _ => ⟨[], rfl, rfl⟩,
        fun h => absurd (List.forall_mem_nil _) h⟩
  | cons blob rest ih =>
      rw [List.forall_mem_cons] at hkeys
      obtain ⟨hstored, hleft⟩ := R.exec_putBlobs_cons (s := s) hpart hobject hkeys.1 rest
      rw [List.forall_mem_cons, List.takeWhile_cons]
      by_cases hfits : self.Fits limits blob
      · obtain ⟨info, t, hinfo, hvault, hexec⟩ := hstored hfits
        obtain ⟨result, u, hothers, hvault', hgood, hbad⟩ := ih (s := t) hkeys.2
        rw [hexec, exec_bind, hothers, if_pos (decide_eq_true hfits), entriesOf_cons,
          Vault.storeAll_cons, ← hvault]
        cases result with
        | ok infos =>
            refine ⟨_, u, rfl, hvault', fun hall => ?_, fun hnot => ?_⟩
            · obtain ⟨infos', hsame, hinfos⟩ := hgood hall.2
              cases hsame
              exact ⟨info :: infos, rfl, by rw [List.map_cons, List.map_cons, hinfo, hinfos]⟩
            · obtain ⟨e, he⟩ := hbad fun hall => hnot ⟨hfits, hall⟩
              cases he
        | error e =>
            refine ⟨_, u, rfl, hvault', fun hall => ?_, fun _ => ⟨e, rfl⟩⟩
            obtain ⟨infos', hsame, _⟩ := hgood hall.2
            cases hsame
      · obtain ⟨e, t, hexec, hvault⟩ := hleft hfits
        rw [if_neg (by simpa using hfits)]
        exact ⟨.error e, t, hexec, hvault, fun hall => absurd hall.1 hfits, fun _ => ⟨e, rfl⟩⟩

/-- A put of valid keys stores the blobs before the first one that does not fit. -/
theorem Reliable.exec_put (hpart : self.partSize ≤ limits.partSize)
    (hobject : limits.parts * self.partSize ≤ limits.objectSize) {blobs : List BlobInput}
    (hkeys : ∀ blob ∈ blobs, ValidKey blob.key ∧ limits.takesKey blob.key = true) :
    ∃ result t, exec (self.put blobs) s = (result, t) ∧
      vault t = (vault s).storeAll
        (entriesOf (blobs.takeWhile fun blob => decide (self.Fits limits blob))) ∧
      ((∀ blob ∈ blobs, self.Fits limits blob) → ∃ stored, result = .ok stored ∧
        stored.blobs.map BlobMeta.key = blobs.map BlobInput.key) ∧
      ((¬∀ blob ∈ blobs, self.Fits limits blob) → ∃ e, result = .error e) := by
  obtain ⟨result, t, hexec, hvault, hgood, hbad⟩ := R.exec_putBlobs (s := s) hpart hobject
    fun blob hblob => (hkeys blob hblob).2
  have hvalid : ∀ key ∈ blobs.map BlobInput.key, ValidKey key := by
    rw [List.forall_mem_map]
    exact fun blob hblob => (hkeys blob hblob).1
  have hput : exec (self.put blobs) s = (result.map fun infos => { blobs := infos }, t) := by
    rw [S3BlobStore.put, exec_bind_ok (exec_checkKeys_of_valid s hvalid), exec_bind, hexec]
    cases result <;> rfl
  refine ⟨_, t, hput, hvault, fun hall => ?_, fun hnot => ?_⟩
  · obtain ⟨infos, rfl, hinfos⟩ := hgood hall
    exact ⟨_, rfl, hinfos⟩
  · obtain ⟨e, rfl⟩ := hbad hnot
    exact ⟨e, rfl⟩

end Put

end S3BlobStore

open S3BlobStore in
/-- A put of valid keys to a reliable service stores the blobs before the first one whose stream
breaks off or takes more parts than there are, whole and in order, and leaves no upload behind. It
returns `Ok` if and only if there is no such blob. -/
theorem put_stores_leading_blobs {σ : Type} [Clock (StateM σ)] {store : S3BlobStore (StateM σ)}
    {vault : σ → Vault Unit} {limits : ServiceLimits} (R : store.Reliable vault limits)
    (hpart : store.partSize ≤ limits.partSize)
    (hobject : limits.parts * store.partSize ≤ limits.objectSize) (s : σ)
    {blobs : List BlobInput}
    (hkeys : ∀ blob ∈ blobs, ValidKey blob.key ∧ limits.takesKey blob.key = true) :
    ∃ result t, exec (store.put blobs) s = (result, t) ∧
      (vault t).objects = KeyMap.insertAll (vault s).objects
        (entriesOf (blobs.takeWhile fun blob => decide (store.Fits limits blob))) ∧
      (vault t).uploads = (vault s).uploads ∧
      ((∃ stored, result = .ok stored) ↔ ∀ blob ∈ blobs, store.Fits limits blob) := by
  obtain ⟨result, t, hexec, hvault, hgood, hbad⟩ := R.exec_put (s := s) hpart hobject hkeys
  refine ⟨result, t, hexec, ?_, ?_, fun hstored => ?_, fun hall => ?_⟩
  · rw [hvault, Vault.storeAll_objects]
  · rw [hvault, Vault.storeAll_uploads]
  · by_contra hnot
    obtain ⟨e, rfl⟩ := hbad hnot
    obtain ⟨stored, hsame⟩ := hstored
    cases hsame
  · obtain ⟨stored, rfl, _⟩ := hgood hall
    exact ⟨stored, rfl⟩

/-- The second stream of the batch breaks off. -/
def brokenBatch : List BlobInput :=
  [.new ['a'] (.ofBytes [1, 2]),
    .new ['b'] { bytes := [3], failure := some ⟨.other, "connection reset"⟩ },
    .new ['c'] (.ofBytes [4])]

theorem put_stores_leading_blobs_broken :
    ∃ result t, exec ((Bucket.backend 1).put brokenBatch) Bucket.empty = (result, t) ∧
      t.vault.objects = KeyMap.insertAll Bucket.empty.vault.objects
        (entriesOf (brokenBatch.takeWhile fun blob =>
          decide ((Bucket.backend 1).Fits Bucket.limits blob))) ∧
      t.vault.uploads = Bucket.empty.vault.uploads ∧
      ((∃ stored, result = .ok stored) ↔
        ∀ blob ∈ brokenBatch, (Bucket.backend 1).Fits Bucket.limits blob) :=
  put_stores_leading_blobs (Bucket.backend_reliable 1) (by decide) (by decide) Bucket.empty
    (by decide)

end BlobStorage
