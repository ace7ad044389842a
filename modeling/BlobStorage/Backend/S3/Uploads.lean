import BlobStorage.Backend.S3.Deletions

/-!
# Uploads to S3

A session is what the store and the service have exchanged; the service answers in the light of
it. An upload sends a stream as it is, in one request or cut into parts, however the reader
delivers it. An upload that got an identifier is aborted on every failure but that of its last
request.
-/

namespace BlobStorage

open Fallible Program S3BlobStore

/-- A service, answering each request after what has been exchanged before it. -/
structure S3Service where
  respond : List S3Exchange → (q : S3Request) → q.Response

/-- A client's session. -/
structure S3Session where
  exchanged : List S3Exchange
  clock : DateTime

instance : Clock (StateM S3Session) where
  utcNow := fun s => (s.clock, s)

def S3Session.sends (s : S3Session) (es : List S3Exchange) : S3Session :=
  { s with exchanged := s.exchanged ++ es }

namespace S3Session

variable (s : S3Session) (es fs : List S3Exchange)

@[simp] theorem sends_exchanged : (s.sends es).exchanged = s.exchanged ++ es := rfl

@[simp] theorem sends_nil : s.sends [] = s := by
  unfold sends
  rw [List.append_nil]

@[simp] theorem sends_sends : (s.sends es).sends fs = s.sends (es ++ fs) := by
  unfold sends
  rw [List.append_assoc]

end S3Session

def S3Service.send (service : S3Service) (q : S3Request) : StateM S3Session q.Response := fun s =>
  (service.respond s.exchanged q, s.sends [⟨q, service.respond s.exchanged q⟩])

section Parts

/-- The parts of a stream. -/
def partsOf (partSize : Nat) (content : Bytes) : List Bytes := chunks (partSize - 1) content

variable {α : Type}

theorem length_chunks (size : Nat) (xs : List α) :
    (chunks size xs).length = (xs.length + size) / (size + 1) := by
  induction xs using chunks.induct size with
  | case1 =>
      rw [chunks, List.length_nil, List.length_nil, Nat.zero_add]
      exact (Nat.div_eq_of_lt (Nat.lt_succ_self size)).symm
  | case2 x rest ih =>
      rw [chunks, List.length_cons, ih, List.length_drop]
      generalize hlength : (x :: rest).length = length
      have hpositive : 0 < length := by
        rw [← hlength]
        exact Nat.succ_pos _
      obtain hshort | hlong := Nat.lt_or_ge length (size + 1)
      · have hleft : length - (size + 1) + size = size := by omega
        have hright : length + size = (length - 1) + (size + 1) := by omega
        rw [hleft, hright, Nat.add_div_right _ (Nat.succ_pos size),
          Nat.div_eq_of_lt (Nat.lt_succ_self size), Nat.div_eq_of_lt (by omega)]
      · have hright : length + size = (length - (size + 1) + size) + (size + 1) := by omega
        rw [hright, Nat.add_div_right _ (Nat.succ_pos size)]

/-- Every chunk but the last is full. -/
theorem length_of_mem_dropLast_chunks {size : Nat} {xs chunk : List α}
    (h : chunk ∈ (chunks size xs).dropLast) : chunk.length = size + 1 := by
  induction xs using chunks.induct size with
  | case1 =>
      rw [chunks] at h
      cases h
  | case2 x rest ih =>
      rw [chunks] at h
      by_cases hlast : chunks size ((x :: rest).drop (size + 1)) = []
      · rw [hlast] at h
        cases h
      · rw [List.dropLast_cons_of_ne_nil hlast] at h
        obtain rfl | hrest := List.mem_cons.mp h
        · have hmore : (x :: rest).drop (size + 1) ≠ [] := by
            intro hnil
            rw [hnil, chunks] at hlast
            exact hlast rfl
          rw [List.length_take]
          rw [Ne, List.drop_eq_nil_iff] at hmore
          omega
        · exact ih hrest

end Parts

/-- A part that has been sent, and the tag that came back. -/
abbrev SentPart := Bytes × Option String

def partExchanges (key : Key) (uploadId : String) (number : Nat) (parts : List SentPart) :
    List S3Exchange :=
  (parts.zipIdx number).map fun part =>
    ⟨.uploadPart key uploadId part.2 part.1.1, .ok part.1.2⟩

def completedParts (number : Nat) (parts : List SentPart) : List CompletedPart :=
  (parts.zipIdx number).map fun part => { eTag := part.1.2.getD "", partNumber := part.2 }

@[simp] theorem partExchanges_cons (key : Key) (uploadId : String) (number : Nat) (part : SentPart)
    (rest : List SentPart) :
    partExchanges key uploadId number (part :: rest) =
      ⟨.uploadPart key uploadId number part.1, .ok part.2⟩ ::
        partExchanges key uploadId (number + 1) rest := rfl

@[simp] theorem completedParts_cons (number : Nat) (part : SentPart) (rest : List SentPart) :
    completedParts number (part :: rest) =
      { eTag := part.2.getD "", partNumber := number } :: completedParts (number + 1) rest := rfl

namespace S3Service

variable (service : S3Service)

/-- The service accepts the parts, sent one after another, with these tags. -/
def Accepts (key : Key) (uploadId : String) (number : Nat) (history : List S3Exchange) :
    List SentPart → Prop
  | [] => True
  | part :: rest =>
      service.respond history (.uploadPart key uploadId number part.1) = .ok part.2 ∧
        Accepts key uploadId (number + 1)
          (history ++ [⟨.uploadPart key uploadId number part.1, .ok part.2⟩]) rest

/-- The tags are determined by the parts. -/
theorem Accepts.unique {service : S3Service} {key : Key} {uploadId : String} {number : Nat}
    {history : List S3Exchange} {parts others : List SentPart}
    (h : service.Accepts key uploadId number history parts)
    (h' : service.Accepts key uploadId number history others)
    (hsame : parts.map Prod.fst = others.map Prod.fst) : parts = others := by
  induction parts generalizing number history others with
  | nil =>
      rw [List.map_nil, eq_comm, List.map_eq_nil_iff] at hsame
      exact hsame.symm
  | cons part rest ih =>
      obtain _ | ⟨other, others⟩ := others
      · cases hsame
      obtain ⟨content, eTag⟩ := part
      obtain ⟨content', eTag'⟩ := other
      obtain ⟨rfl, hrest⟩ := List.cons.inj hsame
      have htag := h.1.symm.trans h'.1
      cases htag
      rw [ih h.2 h'.2 hrest]

end S3Service

namespace S3BlobStore

variable {service : S3Service} {self : S3BlobStore (StateM S3Session)} {s : S3Session} {key : Key}

section Sessions

variable (hsend : self.send = service.send)

include hsend

theorem exec_send (q : S3Request) :
    exec (perform (self.send q) : Fallible (StateM S3Session) q.Response) s =
      (.ok (service.respond s.exchanged q),
        s.sends [⟨q, service.respond s.exchanged q⟩]) := by
  rw [hsend]
  rfl

theorem exec_request (q : S3Request) (message : String) :
    exec (self.request q message) s =
      ((service.respond s.exchanged q).mapError (self.requestError message),
        s.sends [⟨q, service.respond s.exchanged q⟩]) := by
  unfold request
  rw [hsend]
  rfl

theorem exec_abortUpload (uploadId : String) :
    exec (self.abortUpload key uploadId) s =
      (.ok (), s.sends [⟨.abortMultipartUpload key uploadId,
        service.respond s.exchanged (.abortMultipartUpload key uploadId)⟩]) := by
  rw [abortUpload, exec_bind_ok (exec_send hsend _)]
  rfl

end Sessions

/-- What reading a part leaves, unless the stream breaks off in it. -/
theorem readPart_cases {reader : Reader} {limit : Nat} :
    (∃ rest, reader.readPart limit = .ok (reader.bytes.take limit, rest) ∧
        rest.bytes = reader.bytes.drop limit ∧ rest.failure = reader.failure ∧
        (reader.bytes.length < limit → reader.failure = none)) ∨
      ∃ e, reader.readPart limit = .error e ∧ reader.failure = some e := by
  unfold Reader.readPart
  obtain hshort | hlong := Nat.lt_or_ge reader.bytes.length limit
  · rw [if_neg (by omega)]
    cases hfailure : reader.failure with
    | some e => exact .inr ⟨e, rfl, rfl⟩
    | none =>
        refine .inl ⟨{ bytes := [], failure := none, cuts := [] }, ?_, ?_, rfl, fun _ => rfl⟩
        · rw [List.take_of_length_le (Nat.le_of_lt hshort)]
        · exact (List.drop_eq_nil_of_le (Nat.le_of_lt hshort)).symm
  · rw [if_pos hlong]
    exact .inl ⟨_, rfl, rfl, rfl, fun hshort => absurd hlong (by omega)⟩

theorem partsOf_nil (partSize : Nat) : partsOf partSize [] = [] := by
  rw [partsOf, chunks]

theorem partsOf_of_ne_nil {partSize : Nat} (hpositive : 0 < partSize) {content : Bytes}
    (h : content ≠ []) :
    partsOf partSize content =
      content.take partSize :: partsOf partSize (content.drop partSize) := by
  unfold partsOf
  rw [chunks_of_ne_nil _ h, Nat.sub_add_cancel hpositive]

/-- How the loop over the parts ends: all are sent, or the upload is aborted. -/
inductive PartsOutcome (service : S3Service) (self : S3BlobStore (StateM S3Session)) (key : Key)
    (uploadId : String) (number : Nat) (reader : Reader) (s : S3Session) :
    Except BlobStorageError (List CompletedPart × Nat) × S3Session → Prop where
  | sent (parts : List SentPart) (unbroken : reader.failure = none)
      (cut : parts.map Prod.fst = partsOf self.partSize reader.bytes)
      (accepted : service.Accepts key uploadId number s.exchanged parts) :
      PartsOutcome service self key uploadId number reader s
        (.ok (completedParts number parts, reader.bytes.length),
          s.sends (partExchanges key uploadId number parts))
  | aborted (e : BlobStorageError) (sent : List S3Exchange)
      (response : (S3Request.abortMultipartUpload key uploadId).Response)
      (parts_only : ∀ x ∈ sent, ∃ n part, x.request = .uploadPart key uploadId n part)
      (reason : reader.failure ≠ none ∨ ∀ parts,
        parts.map Prod.fst = partsOf self.partSize reader.bytes →
          ¬service.Accepts key uploadId number s.exchanged parts) :
      PartsOutcome service self key uploadId number reader s
        (.error e, s.sends (sent ++ [⟨.abortMultipartUpload key uploadId, response⟩]))

/-- If all parts are accepted, the first one is, and then the others are. -/
theorem Accepts.first {uploadId : String} {number : Nat} {exchanged : List S3Exchange}
    {partSize : Nat} (hpositive : 0 < partSize) {content : Bytes} (hne : content ≠ [])
    {parts : List SentPart} (hparts : parts.map Prod.fst = partsOf partSize content)
    (h : service.Accepts key uploadId number exchanged parts) :
    ∃ tag others, service.respond exchanged
        (.uploadPart key uploadId number (content.take partSize)) = .ok tag ∧
      others.map Prod.fst = partsOf partSize (content.drop partSize) ∧
      service.Accepts key uploadId (number + 1) (exchanged ++
        [⟨.uploadPart key uploadId number (content.take partSize), .ok tag⟩]) others := by
  rw [partsOf_of_ne_nil hpositive hne] at hparts
  obtain _ | ⟨⟨part, tag⟩, others⟩ := parts
  · cases hparts
  obtain ⟨rfl, hothers⟩ := List.cons.inj hparts
  exact ⟨tag, others, h.1, hothers, h.2⟩

theorem uploadParts_outcome (hsend : self.send = service.send) (uploadId : String) (number : Nat)
    (reader : Reader) (s : S3Session) :
    PartsOutcome service self key uploadId number reader s
      (exec (self.uploadParts key uploadId number reader) s) := by
  have hpositive := self.partSize_pos
  induction hlength : reader.bytes.length using Nat.strong_induction_on
    generalizing number reader s with
  | _ length ih =>
  subst hlength
  rw [uploadParts]
  split
  · next e hread =>
      obtain ⟨rest, hok, _⟩ | ⟨e', herror, hfailure⟩ := @readPart_cases reader self.partSize
      · rw [hok] at hread
        cases hread
      · rw [exec_bind_ok (exec_abortUpload hsend uploadId)]
        exact .aborted _ [] _ (by simp) (.inl (by simp [hfailure]))
  · next buffer rest hread =>
      obtain ⟨rest', hok, hbytes, hfailure, hends⟩ | ⟨e', herror, _⟩ :=
        @readPart_cases reader self.partSize
      swap
      · rw [herror] at hread
        cases hread
      rw [hok] at hread
      cases hread
      by_cases hempty : reader.bytes = []
      · have hbuffer : reader.bytes.take self.partSize = [] := by rw [hempty, List.take_nil]
        rw [dif_pos hbuffer]
        have hunbroken : reader.failure = none := hends (by rw [hempty]; exact hpositive)
        have hsent := @PartsOutcome.sent service self key uploadId number reader s [] hunbroken
          (by rw [hempty, partsOf_nil]; rfl) trivial
        simpa [completedParts, partExchanges, hempty] using hsent
      have hbuffer : reader.bytes.take self.partSize ≠ [] := by
        rw [Ne, List.take_eq_nil_iff]
        rintro (hzero | hnil)
        · omega
        · exact hempty hnil
      rw [dif_neg hbuffer, exec_bind_ok (exec_send hsend _)]
      generalize hresponse : service.respond s.exchanged
        (.uploadPart key uploadId number (reader.bytes.take self.partSize)) = response
      cases response with
      | error e =>
          dsimp only
          rw [exec_bind_ok (exec_abortUpload hsend uploadId), exec_throw, S3Session.sends_sends]
          refine .aborted _ [_] _ ?_ (.inr fun parts hparts haccepts => ?_)
          · intro x hx
            obtain rfl := List.mem_singleton.mp hx
            exact ⟨number, _, rfl⟩
          · obtain ⟨_, _, haccepted, _⟩ := Accepts.first hpositive hempty hparts haccepts
            rw [hresponse] at haccepted
            cases haccepted
      | ok eTag =>
          dsimp only
          have hshorter : rest.bytes.length < reader.bytes.length :=
            readPart_shorter hpositive hok hbuffer
          have houtcome := ih _ hshorter (number + 1) rest
            (s.sends [⟨.uploadPart key uploadId number (reader.bytes.take self.partSize),
              .ok eTag⟩]) rfl
          rw [exec_bind]
          generalize exec (self.uploadParts key uploadId (number + 1) rest) _ = out at houtcome
          cases houtcome with
          | sent parts unbroken cut accepted =>
              rw [hfailure] at unbroken
              have hsent := @PartsOutcome.sent service self key uploadId number reader s
                ((reader.bytes.take self.partSize, eTag) :: parts) unbroken
                (by rw [partsOf_of_ne_nil hpositive hempty, List.map_cons, cut, hbytes])
                ⟨hresponse, accepted⟩
              have htotal : (reader.bytes.take self.partSize).length + rest.bytes.length =
                  reader.bytes.length := by
                rw [hbytes, ← List.length_append, List.take_append_drop]
              rw [← htotal] at hsent
              simpa using hsent
          | aborted e sent response parts_only reason =>
              dsimp only
              rw [S3Session.sends_sends, ← List.append_assoc]
              refine .aborted e _ response ?_ ?_
              · rw [List.forall_mem_append]
                refine ⟨fun x hx => ?_, parts_only⟩
                obtain rfl := List.mem_singleton.mp hx
                exact ⟨number, _, rfl⟩
              · obtain hbroken | hrefused := reason
                · rw [hfailure] at hbroken
                  exact .inl hbroken
                · refine .inr fun parts hparts haccepts => ?_
                  obtain ⟨tag, others, htag, hothers, hrest⟩ :=
                    Accepts.first hpositive hempty hparts haccepts
                  rw [hresponse] at htag
                  cases htag
                  rw [← hbytes] at hothers
                  exact hrefused others hothers hrest

end S3BlobStore

section Finished

/-- Each upload that got an identifier was completed, with the result `Ok`, or was asked to be
aborted, with an error. -/
def UploadsFinished {α : Type} (key : Key) (es : List S3Exchange)
    (result : Except BlobStorageError α) : Prop :=
  ∀ uploadId, (⟨.createMultipartUpload key, .ok (some uploadId)⟩ : S3Exchange) ∈ es →
    (∃ parts eTag, (⟨.completeMultipartUpload key uploadId parts, .ok eTag⟩ : S3Exchange) ∈ es) ∧
        (∃ value, result = .ok value) ∨
      (∃ response, (⟨.abortMultipartUpload key uploadId, response⟩ : S3Exchange) ∈ es) ∧
        ∃ e, result = .error e

/-- What an upload has exchanged when all of its parts are sent. -/
def uploadHistory (key : Key) (uploadId : String) (parts : List SentPart) : List S3Exchange :=
  ⟨.createMultipartUpload key, .ok (some uploadId)⟩ :: partExchanges key uploadId 1 parts

/-- The service begins the upload, the stream can be read to its end, every part is accepted, and
the last request is refused. -/
def S3Service.RefusesCompletion (service : S3Service) (partSize : Nat) (key : Key)
    (reader : Reader) (history : List S3Exchange) : Prop :=
  ∃ uploadId parts e,
    service.respond history (.createMultipartUpload key) = .ok (some uploadId) ∧
    reader.failure = none ∧ parts.map Prod.fst = partsOf partSize reader.bytes ∧
    service.Accepts key uploadId 1
      (history ++ [⟨.createMultipartUpload key, .ok (some uploadId)⟩]) parts ∧
    service.respond (history ++ uploadHistory key uploadId parts)
      (.completeMultipartUpload key uploadId (completedParts 1 parts)) = .error e

/-- The backend over a service. -/
def S3Service.store (service : S3Service) (bucket : String) (maxPages partSize : Nat) :
    S3BlobStore (StateM S3Session) :=
  (S3BlobStore.new service.send bucket maxPages).withMultipartPartSize partSize

theorem mem_partExchanges {key : Key} {uploadId : String} {number : Nat} {parts : List SentPart}
    {x : S3Exchange} (h : x ∈ partExchanges key uploadId number parts) :
    ∃ n part, x.request = .uploadPart key uploadId n part := by
  obtain ⟨part, _, rfl⟩ := List.mem_map.mp h
  exact ⟨_, _, rfl⟩

namespace S3BlobStore

variable {service : S3Service} {self : S3BlobStore (StateM S3Session)} {s : S3Session} {key : Key}

theorem exec_startMultipart (hsend : self.send = service.send) :
    (∃ uploadId, service.respond s.exchanged (.createMultipartUpload key) = .ok (some uploadId) ∧
        exec (self.startMultipart key) s =
          (.ok uploadId, s.sends [⟨.createMultipartUpload key, .ok (some uploadId)⟩])) ∨
      ∃ e response, (∀ uploadId, response ≠ .ok (some uploadId)) ∧
        service.respond s.exchanged (.createMultipartUpload key) = response ∧
        exec (self.startMultipart key) s =
          (.error e, s.sends [⟨.createMultipartUpload key, response⟩]) := by
  rw [startMultipart, exec_bind, exec_request hsend]
  generalize service.respond s.exchanged (.createMultipartUpload key) = response
  match response with
  | .error e => exact .inr ⟨_, _, by simp, rfl, rfl⟩
  | .ok none => exact .inr ⟨_, _, by simp, rfl, rfl⟩
  | .ok (some uploadId) => exact .inl ⟨uploadId, rfl, rfl⟩

theorem exec_completeMultipart (hsend : self.send = service.send) (uploadId : String)
    (parts : List CompletedPart) (totalSize : Nat) :
    exec (self.completeMultipart key uploadId parts totalSize) s =
      ((match service.respond s.exchanged (.completeMultipartUpload key uploadId parts) with
        | .ok eTag => .ok { key, storedSize := totalSize, modifiedAt := s.clock, etag := eTag }
        | .error e => .error (self.requestError
            s!"S3 CompleteMultipartUpload failed for key '{String.ofList key}'" e)),
        s.sends [⟨.completeMultipartUpload key uploadId parts,
          service.respond s.exchanged (.completeMultipartUpload key uploadId parts)⟩]) := by
  rw [completeMultipart, exec_bind, exec_request hsend]
  generalize service.respond s.exchanged (.completeMultipartUpload key uploadId parts) = response
  cases response <;> rfl

/-- An upload whose parts are all sent ends as its last request does. -/
theorem exec_uploadMultipart_of_accepts (hsend : self.send = service.send) {reader : Reader}
    {uploadId : String} {parts : List SentPart}
    (hcreate : service.respond s.exchanged (.createMultipartUpload key) = .ok (some uploadId))
    (hunbroken : reader.failure = none)
    (hcut : parts.map Prod.fst = partsOf self.partSize reader.bytes)
    (haccepts : service.Accepts key uploadId 1
      (s.exchanged ++ [⟨.createMultipartUpload key, .ok (some uploadId)⟩]) parts) :
    exec (self.uploadMultipart key reader) s =
      exec (self.completeMultipart key uploadId (completedParts 1 parts) reader.bytes.length)
        (s.sends (uploadHistory key uploadId parts)) := by
  obtain ⟨uploadId', hcreate', hstart⟩ | ⟨e, response, hnot, hcreate', _⟩ :=
    @exec_startMultipart service self s key hsend
  swap
  · exact absurd (hcreate'.symm.trans hcreate) (hnot uploadId)
  rw [hcreate] at hcreate'
  cases hcreate'
  rw [uploadMultipart, exec_bind_ok hstart]
  have houtcome := @uploadParts_outcome service self key hsend uploadId 1 reader
    (s.sends [⟨.createMultipartUpload key, .ok (some uploadId)⟩])
  rw [exec_bind]
  generalize exec (self.uploadParts key uploadId 1 reader) _ = out at houtcome
  cases houtcome with
  | sent parts' unbroken cut accepted =>
      rw [accepted.unique haccepts (cut.trans hcut.symm)]
      dsimp only
      rw [S3Session.sends_sends]
      rfl
  | aborted e sent response parts_only reason =>
      obtain hbroken | hrefused := reason
      · exact absurd hunbroken hbroken
      · exact absurd haccepts (hrefused parts hcut)

/-- With one identifier obtained, there is one upload to finish. -/
theorem uploadsFinished_iff {α : Type} {rest : List S3Exchange} {uploadId : String}
    {result : Except BlobStorageError α}
    (hothers : ∀ x ∈ rest, ∀ response, x ≠ ⟨.createMultipartUpload key, response⟩) :
    UploadsFinished key (⟨.createMultipartUpload key, .ok (some uploadId)⟩ :: rest) result ↔
      (∃ parts eTag, (⟨.completeMultipartUpload key uploadId parts, .ok eTag⟩ : S3Exchange) ∈ rest) ∧
          (∃ value, result = .ok value) ∨
        (∃ response, (⟨.abortMultipartUpload key uploadId, response⟩ : S3Exchange) ∈ rest) ∧
          ∃ e, result = .error e := by
  constructor
  · intro h
    simpa using h uploadId List.mem_cons_self
  · intro h other hother
    obtain hsame | hlater := List.mem_cons.mp hother
    · cases hsame
      simpa using h
    · exact absurd rfl (hothers _ hlater _)

/-- An upload leaves its identifier neither completed nor aborted exactly when its last request
is refused. -/
theorem uploadMultipart_finished_iff (hsend : self.send = service.send) (reader : Reader) :
    ∃ es, (exec (self.uploadMultipart key reader) s).2 = s.sends es ∧
      (UploadsFinished key es (exec (self.uploadMultipart key reader) s).1 ↔
        ¬service.RefusesCompletion self.partSize key reader s.exchanged) := by
  obtain ⟨uploadId, hcreate, hstart⟩ | ⟨e, response, hnot, hcreate, hstart⟩ :=
    @exec_startMultipart service self s key hsend
  swap
  · -- Nothing was obtained, and nothing is refused at the end.
    have hended : exec (self.uploadMultipart key reader) s =
        (.error e, s.sends [⟨.createMultipartUpload key, response⟩]) := by
      rw [uploadMultipart, exec_bind_error hstart]
    refine ⟨_, by rw [hended], iff_of_true ?_ ?_⟩
    · intro uploadId hmem
      have hresponse := List.mem_singleton.mp hmem
      cases hresponse
      exact absurd rfl (hnot uploadId)
    · rintro ⟨uploadId, _, _, hcreate', _⟩
      exact hnot uploadId (hcreate.symm.trans hcreate')
  have houtcome := @uploadParts_outcome service self key hsend uploadId 1 reader
    (s.sends [⟨.createMultipartUpload key, .ok (some uploadId)⟩])
  generalize hout : exec (self.uploadParts key uploadId 1 reader) _ = out at houtcome
  cases houtcome with
  | aborted e sent response parts_only reason =>
      have hended : exec (self.uploadMultipart key reader) s =
          (.error e, s.sends (⟨.createMultipartUpload key, .ok (some uploadId)⟩ ::
            (sent ++ [⟨.abortMultipartUpload key uploadId, response⟩]))) := by
        rw [uploadMultipart, exec_bind_ok hstart, exec_bind_error hout, S3Session.sends_sends]
        rfl
      refine ⟨_, by rw [hended], ?_⟩
      rw [hended]
      refine (uploadsFinished_iff ?_).trans ?_
      swap
      · refine iff_of_true (.inr ⟨⟨response, by simp⟩, e, rfl⟩) ?_
        rintro ⟨uploadId', parts, e', hcreate', hunbroken, hcut, haccepts, _⟩
        rw [hcreate] at hcreate'
        cases hcreate'
        obtain hbroken | hrefused := reason
        · exact hbroken hunbroken
        · exact hrefused parts hcut haccepts
      · rintro x hx answer rfl
        obtain hpart | hlast := List.mem_append.mp hx
        · obtain ⟨n, part, hrequest⟩ := parts_only _ hpart
          cases hrequest
        · simp at hlast
  | sent parts unbroken cut accepted =>
      have hended := exec_uploadMultipart_of_accepts hsend hcreate unbroken cut accepted
      rw [exec_completeMultipart hsend, S3Session.sends_exchanged, S3Session.sends_sends] at hended
      refine ⟨_, by rw [hended], ?_⟩
      rw [hended]
      refine (uploadsFinished_iff ?_).trans ?_
      · rintro x hx answer rfl
        obtain hpart | hlast := List.mem_append.mp hx
        · obtain ⟨n, part, hrequest⟩ := mem_partExchanges hpart
          cases hrequest
        · simp at hlast
      generalize hresponse : service.respond (s.exchanged ++ uploadHistory key uploadId parts)
        (.completeMultipartUpload key uploadId (completedParts 1 parts)) = response
      cases response with
      | ok eTag =>
          refine iff_of_true (.inl ⟨⟨completedParts 1 parts, eTag, by simp⟩, _, rfl⟩) ?_
          rintro ⟨uploadId', parts', e', hcreate', _, hcut', haccepts', hrefused⟩
          rw [hcreate] at hcreate'
          cases hcreate'
          rw [haccepts'.unique accepted (hcut'.trans cut.symm), hresponse] at hrefused
          cases hrefused
      | error e =>
          refine iff_of_false ?_ (not_not_intro
            ⟨uploadId, parts, e, hcreate, unbroken, cut, accepted, hresponse⟩)
          rintro (⟨_, value, hok⟩ | ⟨⟨answer, habort⟩, _⟩)
          · cases hok
          · obtain hpart | hlast := List.mem_append.mp habort
            · obtain ⟨n, part, hrequest⟩ := mem_partExchanges hpart
              cases hrequest
            · simp at hlast

end S3BlobStore

theorem S3Service.exists_accepts {service : S3Service} {key : Key} {uploadId : String}
    (h : ∀ history number part, ∃ eTag,
      service.respond history (.uploadPart key uploadId number part) = .ok eTag)
    (number : Nat) (history : List S3Exchange) (contents : List Bytes) :
    ∃ parts, parts.map Prod.fst = contents ∧ service.Accepts key uploadId number history parts := by
  induction contents generalizing number history with
  | nil => exact ⟨[], rfl, trivial⟩
  | cons part rest ih =>
      obtain ⟨eTag, heTag⟩ := h history number part
      obtain ⟨parts, hparts, haccepts⟩ := ih (number + 1)
        (history ++ [⟨.uploadPart key uploadId number part, .ok eTag⟩])
      exact ⟨(part, eTag) :: parts, congrArg (part :: ·) hparts, heTag, haccepts⟩

/-- For every stream and every choice of what the service refuses, an upload that obtained an
identifier is completed, with the result `Ok`, or aborted, with an error, unless its parts all go
through and the request that completes it is refused. -/
theorem multipart_upload_finished_iff (service : S3Service) (bucket : String)
    (maxPages partSize : Nat) (key : Key) (reader : Reader) (s : S3Session) :
    ∃ es, (exec ((service.store bucket maxPages partSize).uploadMultipart key reader) s).2 =
        s.sends es ∧
      (UploadsFinished key es
          (exec ((service.store bucket maxPages partSize).uploadMultipart key reader) s).1 ↔
        ¬service.RefusesCompletion (service.store bucket maxPages partSize).partSize key reader
          s.exchanged) :=
  S3BlobStore.uploadMultipart_finished_iff rfl reader

/-- A service that refuses nothing, but perhaps to complete an upload. -/
def sampleService (completion : Except SdkError (Option String)) : S3Service where
  respond _ q :=
    match q with
    | .putObject _ _ => .ok none
    | .getObject _ => .ok { body := .ofBytes [], contentLength := none, eTag := none,
                            lastModified := none }
    | .headObject _ => .ok ()
    | .deleteObjects _ => .ok { deleted := [], errors := [] }
    | .listObjectsV2 _ _ => .ok { contents := [], nextContinuationToken := none }
    | .createMultipartUpload _ => .ok (some "u")
    | .uploadPart _ _ _ _ => .ok none
    | .completeMultipartUpload _ _ _ => completion
    | .abortMultipartUpload _ _ => .ok ()

def refusingService : S3Service := sampleService (.error ⟨some "InternalError"⟩)

/-- A stream of as many bytes as take a multipart upload. -/
def longReader : Reader := .ofBytes (List.replicate minMultipartPartSize 0)

theorem upload_left_unfinished :
    ∃ es, (exec ((refusingService.store "b" 1 defaultMultipartPartSize).uploadMultipart ['k']
        longReader) ⟨[], 0⟩).2 = S3Session.sends ⟨[], 0⟩ es ∧
      ¬UploadsFinished ['k'] es (exec ((refusingService.store "b" 1
        defaultMultipartPartSize).uploadMultipart ['k'] longReader) ⟨[], 0⟩).1 := by
  have hsend : (refusingService.store "b" 1 defaultMultipartPartSize).send =
      refusingService.send := rfl
  obtain ⟨es, hes, hfinished⟩ := @S3BlobStore.uploadMultipart_finished_iff _ _ ⟨[], 0⟩ ['k'] hsend
    longReader
  refine ⟨es, hes, fun h => hfinished.mp h ?_⟩
  obtain ⟨parts, hparts, haccepts⟩ := @S3Service.exists_accepts refusingService
    ['k'] "u" (fun _ _ _ => ⟨none, rfl⟩) 1
    [⟨.createMultipartUpload ['k'], .ok (some "u")⟩] (partsOf _ longReader.bytes)
  exact ⟨"u", parts, ⟨some "InternalError"⟩, rfl, rfl, hparts, haccepts, rfl⟩

end Finished

section Whole

/-- How the contents of a blob reach the service: in one request, or cut into numbered parts
that are all of the part size but the last. -/
inductive SentWhole (partSize : Nat) (key : Key) (content : Bytes) : List S3Exchange → Prop where
  | single (eTag : Option String) (short : content.length < minMultipartPartSize) :
      SentWhole partSize key content [⟨.putObject key content, .ok eTag⟩]
  | parts (uploadId : String) (parts : List SentPart) (eTag : Option String)
      (long : minMultipartPartSize ≤ content.length)
      (count : parts.length = (content.length + partSize - 1) / partSize)
      (whole : (parts.map Prod.fst).flatten = content)
      (full : ∀ part ∈ (parts.map Prod.fst).dropLast, part.length = partSize)
      (last : ∀ part ∈ parts.map Prod.fst, part ≠ [] ∧ part.length ≤ partSize) :
      SentWhole partSize key content
        ([⟨.createMultipartUpload key, .ok (some uploadId)⟩] ++
          ((parts.zipIdx 1).map fun part =>
            ⟨.uploadPart key uploadId part.2 part.1.1, .ok part.1.2⟩) ++
          [⟨.completeMultipartUpload key uploadId ((parts.zipIdx 1).map fun part =>
            { eTag := part.1.2.getD "", partNumber := part.2 }), .ok eTag⟩])

/-- The service answers every request, and gives an identifier to each upload. -/
structure S3Service.FaultFree (service : S3Service) : Prop where
  answers : ∀ history q, ∃ output, service.respond history q = .ok output
  uploads : ∀ history key, ∃ uploadId,
    service.respond history (.createMultipartUpload key) = .ok (some uploadId)

/-- One read of a stream that does not break off takes some of its bytes, if there are any. -/
theorem readBuf_of_unbroken {reader : Reader} {room : Nat} (hunbroken : reader.failure = none)
    (hroom : 0 < room) :
    ∃ n rest, 0 < n ∧ n ≤ room ∧ reader.readBuf room = .ok (reader.bytes.take n, rest) ∧
      rest.bytes = reader.bytes.drop n ∧ rest.failure = none := by
  unfold Reader.readBuf
  by_cases hempty : reader.bytes = []
  · refine ⟨room, reader, hroom, le_rfl, ?_, ?_, hunbroken⟩
    · rw [if_pos hempty, hunbroken, hempty, List.take_nil]
    · rw [hempty, List.drop_nil]
  · rw [if_neg hempty]
    cases hcuts : reader.cuts with
    | nil => exact ⟨room, _, hroom, le_rfl, rfl, rfl, hunbroken⟩
    | cons cut cuts =>
        exact ⟨min room (cut + 1), _, by omega, Nat.min_le_left _ _, rfl, rfl, hunbroken⟩

namespace S3BlobStore

/-- The lookahead is filled up to its size or to the end of the stream, and nothing is lost. -/
theorem fillLookahead_of_unbroken {filled : Bytes} {reader : Reader}
    (hunbroken : reader.failure = none) :
    ∃ lookahead rest, fillLookahead filled reader = .ok (lookahead, rest) ∧
      rest.failure = none ∧ lookahead ++ rest.bytes = filled ++ reader.bytes ∧
      (lookahead.length < minMultipartPartSize → rest.bytes = []) := by
  induction hroom : minMultipartPartSize - filled.length using Nat.strong_induction_on
    generalizing filled reader with
  | _ room ih =>
  subst hroom
  rw [fillLookahead]
  by_cases hmore : filled.length < minMultipartPartSize
  swap
  · rw [if_neg hmore]
    exact ⟨filled, reader, rfl, hunbroken, rfl, fun h => absurd h hmore⟩
  rw [if_pos hmore]
  obtain ⟨n, rest, hpositive, _, hread, hrest, hfailure⟩ :=
    @readBuf_of_unbroken reader (minMultipartPartSize - filled.length) hunbroken (by omega)
  rw [hread]
  cases hchunk : reader.bytes.take n with
  | nil =>
      have hempty : reader.bytes = [] := by
        obtain hzero | hnil := List.take_eq_nil_iff.mp hchunk
        · omega
        · exact hnil
      refine ⟨filled, rest, rfl, hfailure, ?_, fun _ => ?_⟩
      · rw [hrest, hempty, List.drop_nil]
      · rw [hrest, hempty, List.drop_nil]
  | cons byte chunk =>
      dsimp only
      have hlonger : minMultipartPartSize - (filled ++ byte :: chunk).length <
          minMultipartPartSize - filled.length := by
        rw [List.length_append, List.length_cons]
        omega
      obtain ⟨lookahead, last, hfill, hlast, hwhole, hend⟩ :=
        @ih _ hlonger (filled ++ byte :: chunk) rest hfailure rfl
      refine ⟨lookahead, last, hfill, hlast, ?_, hend⟩
      rw [hwhole, hrest, List.append_assoc, ← hchunk, List.take_append_drop]

/-- What a read leaves of the stream. -/
theorem readBuf_ok {reader rest : Reader} {room : Nat} {chunk : Bytes} (hroom : 0 < room)
    (h : reader.readBuf room = .ok (chunk, rest)) :
    rest.failure = reader.failure ∧ chunk ++ rest.bytes = reader.bytes ∧
      (chunk = [] → rest.bytes = [] ∧ reader.failure = none) := by
  unfold Reader.readBuf at h
  split at h
  · next hempty =>
      split at h
      · next hfailure =>
          cases h
          exact ⟨rfl, rfl, fun _ => ⟨hempty, hfailure⟩⟩
      · cases h
  · next hmore =>
      cases h
      refine ⟨rfl, List.take_append_drop _ _, fun hchunk => ?_⟩
      obtain hzero | hnil := List.take_eq_nil_iff.mp hchunk
      · split at hzero
        · omega
        · omega
      · exact absurd hnil hmore

/-- The lookahead and what is left make up the stream. A lookahead that is not full is all
of it. -/
theorem fillLookahead_ok {filled lookahead : Bytes} {reader rest : Reader}
    (h : fillLookahead filled reader = .ok (lookahead, rest)) :
    rest.failure = reader.failure ∧ lookahead ++ rest.bytes = filled ++ reader.bytes ∧
      (lookahead.length < minMultipartPartSize → rest.bytes = [] ∧ reader.failure = none) := by
  induction filled, reader using fillLookahead.induct with
  | case1 filled reader hmore e hread =>
      rw [fillLookahead, if_pos hmore, hread] at h
      cases h
  | case2 filled reader hmore rest' hread =>
      rw [fillLookahead, if_pos hmore, hread] at h
      cases h
      obtain ⟨hfailure, hbytes, hend⟩ := readBuf_ok (Nat.sub_pos_of_lt hmore) hread
      exact ⟨hfailure, by rw [← hbytes, List.nil_append], fun _ => hend rfl⟩
  | case3 filled reader hmore byte chunk rest' hread ih =>
      rw [fillLookahead, if_pos hmore, hread] at h
      obtain ⟨hfailure, hbytes, _⟩ := readBuf_ok (Nat.sub_pos_of_lt hmore) hread
      obtain ⟨hfailure', hbytes', hend⟩ := ih h
      rw [hfailure] at hfailure' hend
      refine ⟨hfailure', ?_, hend⟩
      rw [hbytes', ← hbytes, List.append_assoc]
  | case4 filled reader hfull =>
      rw [fillLookahead, if_neg hfull] at h
      cases h
      exact ⟨rfl, rfl, fun hmore => absurd hmore hfull⟩

variable {service : S3Service} {self : S3BlobStore (StateM S3Session)} {s : S3Session} {key : Key}

/-- An upload of a stream of at least one part, to a service that refuses nothing. -/
theorem exec_uploadMultipart_of_faultFree (hsend : self.send = service.send)
    (hservice : service.FaultFree) {reader : Reader} (hunbroken : reader.failure = none)
    (hlong : minMultipartPartSize ≤ reader.bytes.length) :
    ∃ info es, exec (self.uploadMultipart key reader) s = (.ok info, s.sends es) ∧
      SentWhole self.partSize key reader.bytes es ∧ info.key = key ∧
      info.storedSize = reader.bytes.length := by
  obtain ⟨uploadId, hcreate⟩ := hservice.uploads s.exchanged key
  obtain ⟨parts, hcut, haccepts⟩ := @S3Service.exists_accepts service key uploadId
    (fun history number part => hservice.answers history (.uploadPart key uploadId number part)) 1
    (s.exchanged ++ [⟨.createMultipartUpload key, .ok (some uploadId)⟩])
    (partsOf self.partSize reader.bytes)
  obtain ⟨eTag, hcomplete⟩ := hservice.answers (s.exchanged ++ uploadHistory key uploadId parts)
    (.completeMultipartUpload key uploadId (completedParts 1 parts))
  have hended := exec_uploadMultipart_of_accepts hsend hcreate hunbroken hcut haccepts
  rw [exec_completeMultipart hsend, S3Session.sends_exchanged, S3Session.sends_sends,
    hcomplete] at hended
  refine ⟨_, _, hended, ?_, rfl, rfl⟩
  have hpositive := self.partSize_pos
  have hsize : self.partSize - 1 + 1 = self.partSize := Nat.sub_add_cancel hpositive
  refine .parts uploadId parts eTag hlong ?_ ?_ ?_ ?_
  · have hcount := congrArg List.length hcut
    rw [List.length_map, partsOf, length_chunks, hsize] at hcount
    rw [hcount, Nat.add_sub_assoc hpositive]
  · rw [hcut]
    exact flatten_chunks _ _
  · rw [hcut]
    intro part hpart
    rw [length_of_mem_dropLast_chunks hpart, hsize]
  · rw [hcut]
    intro part hpart
    refine ⟨ne_nil_of_mem_chunks hpart, ?_⟩
    have hlength := length_of_mem_chunks hpart
    omega

theorem exec_putObject_of_faultFree (hsend : self.send = service.send)
    (hservice : service.FaultFree) {content : Bytes} (hshort : content.length < minMultipartPartSize) :
    ∃ info es, exec (self.putObject key content) s = (.ok info, s.sends es) ∧
      SentWhole self.partSize key content es ∧ info.key = key ∧
      info.storedSize = content.length := by
  obtain ⟨eTag, heTag⟩ := hservice.answers s.exchanged (.putObject key content)
  refine ⟨{ key, storedSize := content.length, modifiedAt := s.clock, etag := eTag }, _, ?_,
    .single eTag hshort, rfl, rfl⟩
  rw [putObject, exec_bind, exec_request hsend, heTag]
  rfl

/-- The blobs of a batch, one after another. -/
theorem exec_putBlobs_of_faultFree (hsend : self.send = service.send)
    (hservice : service.FaultFree) (s : S3Session) {blobs : List BlobInput}
    (hunbroken : ∀ blob ∈ blobs, blob.data.failure = none) :
    ∃ infos sent, exec (self.putBlobs blobs) s = (.ok infos, s.sends sent.flatten) ∧
      List.Forall₂ (fun blob es => SentWhole self.partSize blob.key blob.data.bytes es) blobs sent ∧
      List.Forall₂ (fun blob info => info.key = blob.key ∧
        info.storedSize = blob.data.bytes.length) blobs infos := by
  induction blobs generalizing s with
  | nil => exact ⟨[], [], by rw [List.flatten_nil, S3Session.sends_nil]; rfl, .nil, .nil⟩
  | cons blob rest ih =>
      rw [List.forall_mem_cons] at hunbroken
      obtain ⟨lookahead, reader, hfill, hreader, hwhole, hend⟩ :=
        @fillLookahead_of_unbroken [] blob.data hunbroken.1
      rw [List.nil_append] at hwhole
      have hfirst : ∃ info es,
          exec (if lookahead.length < minMultipartPartSize then self.putObject blob.key lookahead
            else self.uploadMultipart blob.key (Reader.chain lookahead reader)) s =
              (.ok info, s.sends es) ∧
          SentWhole self.partSize blob.key blob.data.bytes es ∧ info.key = blob.key ∧
          info.storedSize = blob.data.bytes.length := by
        by_cases hshort : lookahead.length < minMultipartPartSize
        · rw [hend hshort, List.append_nil] at hwhole
          rw [if_pos hshort, ← hwhole]
          exact exec_putObject_of_faultFree hsend hservice hshort
        · rw [if_neg hshort, ← hwhole]
          refine exec_uploadMultipart_of_faultFree hsend hservice
            (show (Reader.chain lookahead reader).failure = none from hreader) ?_
          change minMultipartPartSize ≤ (lookahead ++ reader.bytes).length
          rw [List.length_append]
          omega
      obtain ⟨info, es, hexec, hsent, hkey, hsize⟩ := hfirst
      obtain ⟨infos, sent, hothers, hall, hinfos⟩ := ih (s.sends es) hunbroken.2
      refine ⟨info :: infos, es :: sent, ?_, .cons hsent hall, .cons ⟨hkey, hsize⟩ hinfos⟩
      rw [putBlobs, hfill]
      dsimp only
      by_cases hshort : lookahead.length < minMultipartPartSize
      · rw [if_pos hshort] at hexec ⊢
        rw [exec_bind_ok hexec, exec_bind_ok hothers, S3Session.sends_sends]
        rfl
      · rw [if_neg hshort] at hexec ⊢
        rw [exec_bind_ok hexec, exec_bind_ok hothers, S3Session.sends_sends]
        rfl

end S3BlobStore

/-- A put to a service that refuses nothing sends every blob as it is, however its reader
delivers it, and reports its size. -/
theorem put_sends_whole {service : S3Service} (hservice : service.FaultFree) (bucket : String)
    (maxPages partSize : Nat) (s : S3Session) {blobs : List BlobInput}
    (hvalid : ∀ blob ∈ blobs, ValidKey blob.key)
    (hunbroken : ∀ blob ∈ blobs, blob.data.failure = none) :
    ∃ infos sent, exec ((service.store bucket maxPages partSize).put blobs) s =
        (.ok { blobs := infos }, s.sends sent.flatten) ∧
      List.Forall₂ (fun blob es => SentWhole (max partSize minMultipartPartSize) blob.key
        blob.data.bytes es) blobs sent ∧
      List.Forall₂ (fun blob info => info.key = blob.key ∧
        info.storedSize = blob.data.bytes.length) blobs infos := by
  obtain ⟨infos, sent, hexec, hsent, hinfos⟩ := @S3BlobStore.exec_putBlobs_of_faultFree service
    (service.store bucket maxPages partSize) rfl hservice s blobs hunbroken
  refine ⟨infos, sent, ?_, hsent, hinfos⟩
  have hkeys : ∀ key ∈ blobs.map BlobInput.key, ValidKey key := by
    intro key hkey
    obtain ⟨blob, hblob, rfl⟩ := List.mem_map.mp hkey
    exact hvalid blob hblob
  rw [S3BlobStore.put, exec_bind_ok (exec_checkKeys_of_valid s hkeys), exec_bind_ok hexec]
  rfl

def acceptingService : S3Service := sampleService (.ok none)

theorem acceptingService_faultFree : acceptingService.FaultFree where
  answers := by
    intro _ q
    cases q <;> exact ⟨_, rfl⟩
  uploads _ _ := ⟨"u", rfl⟩

/-- A short blob that arrives byte by byte, and one that takes a multipart upload. -/
def mixedBlobs : List BlobInput :=
  [.new ['s'] { bytes := [1, 2, 3], cuts := [0, 0, 0] }, .new ['l'] longReader]

theorem put_sends_whole_mixed :
    ∃ infos sent, exec ((acceptingService.store "b" 1 0).put mixedBlobs) ⟨[], 0⟩ =
        (.ok { blobs := infos }, S3Session.sends ⟨[], 0⟩ sent.flatten) ∧
      List.Forall₂ (fun blob es => SentWhole (max 0 minMultipartPartSize) blob.key
        blob.data.bytes es) mixedBlobs sent ∧
      List.Forall₂ (fun blob info => info.key = blob.key ∧
        info.storedSize = blob.data.bytes.length) mixedBlobs infos := by
  refine put_sends_whole acceptingService_faultFree "b" 1 0 ⟨[], 0⟩ ?_ ?_
  · intro blob hblob
    simp only [mixedBlobs, List.mem_cons, List.not_mem_nil, or_false] at hblob
    obtain rfl | rfl := hblob
    · exact (by decide : ValidKey ['s'])
    · exact (by decide : ValidKey ['l'])
  · intro blob hblob
    simp only [mixedBlobs, List.mem_cons, List.not_mem_nil, or_false] at hblob
    obtain rfl | rfl := hblob
    · rfl
    · rfl

end Whole

end BlobStorage
