import BlobStorage.Browsing.Shown

/-!
# What the encrypted layer shows

The answers of the encrypted layer as functions of the answers of the store below it. A
decryption is a run of the provider, which is taken to leave the store alone.
-/

namespace BlobStorage

open Fallible

variable {σ S : Type}

/-- Running `decrypt_stream` in the state `s` does not change it. -/
def EncryptionProvider.QuietAt (provider : EncryptionProvider (StateM σ)) (s : σ) : Prop :=
  ∀ encData header, (provider.decryptStream encData header s).2 = s

namespace Reads

variable (reads : Reads) (headerSuffix : Key)

/-- `validate_key_no_header_collision`, as a function. -/
def notReserved (key : Key) : Except BlobStorageError Unit :=
  if headerSuffix <:+ key then
    .error (.invalidInput (s!"blob key must not end with reserved header suffix " ++
      s!"'{String.ofList headerSuffix}': '{String.ofList key}'"))
  else
    .ok ()

/-- `decrypt_stream`, given the run of the provider. -/
def decrypted (run : Reader → Bytes → DecryptRun) (key : Key) (encData : Reader) :
    Except BlobStorageError Reader := do
  let headerData ← (reads.get (key ++ headerSuffix)).mapError (PrefixBlobStore.mapError key)
  match headerData.readToEnd with
  | .error e => .error (.ofIo e)
  | .ok header => .ok ((run encData header).reader key)

variable {reads} in
theorem decrypted_of_header (run : Reader → Bytes → DecryptRun) {key : Key}
    {encData headerData : Reader} (hget : reads.get (key ++ headerSuffix) = .ok headerData) :
    reads.decrypted headerSuffix run key encData =
      (headerData.readToEnd.mapError .ofIo).map fun header => (run encData header).reader key := by
  rw [decrypted, hget]
  simp only [Except.mapError, bind, Except.bind]
  cases headerData.readToEnd <;> rfl

/-- The keys of a list that have a header. -/
def withHeader : List Key → Except BlobStorageError (List Key)
  | [] => .ok []
  | key :: rest => do
      let headerExists ← reads.existsBlob (key ++ headerSuffix)
      let others ← withHeader rest
      pure (if headerExists then key :: others else others)

/-- The loop of `list_with_metadata`. -/
def collected (filter : ListFilter) : List Key → Except BlobStorageError (List BlobMeta)
  | [] => .ok []
  | key :: rest =>
      if headerSuffix <:+ key then collected filter rest
      else if !filter.matchesBlob key none then collected filter rest
      else
        match reads.existsBlob (key ++ headerSuffix) with
        | .error _ => collected filter rest
        | .ok false => collected filter rest
        | .ok true =>
            match reads.getWithMetadata key with
            | .ok (info, _) => (collected filter rest).map ({ info with key := key } :: ·)
            | .error (.notFound _) => collected filter rest
            | .error e => .error e

/-- `EncryptVisitor::visit`, as far as the caller's visitor can tell. -/
def encryptRelay (filter : ListFilter) (key : Key) (info : Option BlobMeta) : Relay :=
  if headerSuffix <:+ key then .skip
  else
    match reads.existsBlob (key ++ headerSuffix) with
    | .error e => .fail e
    | .ok false => .skip
    | .ok true => if filter.matchesBlob key info then .pass key info else .skip

/-- The header of `key` is there. -/
def hasHeader (key : Key) : Bool :=
  match reads.existsBlob (key ++ headerSuffix) with
  | .ok found => found
  | .error _ => false

variable {reads headerSuffix}

theorem notReserved_ok {key : Key} (h : ¬headerSuffix <:+ key) :
    notReserved headerSuffix key = .ok () := if_neg h

theorem withHeader_eq_filter {keys : List Key}
    (h : ∀ key ∈ keys, ∃ found, reads.existsBlob (key ++ headerSuffix) = .ok found) :
    reads.withHeader headerSuffix keys = .ok (keys.filter (reads.hasHeader headerSuffix)) := by
  induction keys with
  | nil => rfl
  | cons key rest ih =>
      rw [List.forall_mem_cons] at h
      obtain ⟨found, hfound⟩ := h.1
      rw [withHeader, ih h.2, List.filter_cons, hasHeader, hfound]
      rfl

/-- One iteration of the loop, where it does not fail. -/
theorem collected_cons {filter : ListFilter} {key : Key} {rest : List Key}
    (h : ¬Stops reads headerSuffix filter key) :
    reads.collected headerSuffix filter (key :: rest) =
      match metadataEntry reads headerSuffix filter key with
      | none => reads.collected headerSuffix filter rest
      | some info => (reads.collected headerSuffix filter rest).map (info :: ·) := by
  rw [collected, metadataEntry]
  by_cases hsuffix : headerSuffix <:+ key
  · have hcandidate : ¬Candidate headerSuffix filter key := fun hcandidate => hcandidate.1 hsuffix
    rw [if_pos hsuffix, if_neg hcandidate]
  cases hmatch : filter.matchesBlob key none with
  | false =>
      have hcandidate : ¬Candidate headerSuffix filter key := by
        intro hcandidate
        rw [Candidate, hmatch] at hcandidate
        cases hcandidate.2
      rw [if_neg hsuffix, if_neg hcandidate]
      rfl
  | true =>
      have hcandidate : Candidate headerSuffix filter key := ⟨hsuffix, hmatch⟩
      rw [if_neg hsuffix, if_neg (show ¬(!true) = true by decide), if_pos hcandidate]
      cases hheader : reads.existsBlob (key ++ headerSuffix) with
      | error e => rfl
      | ok found =>
          cases found with
          | false => rfl
          | true =>
              cases hget : reads.getWithMetadata key with
              | ok pair => rfl
              | error e =>
                  by_cases hmissing : e.IsNotFound
                  · cases e with
                    | notFound _ => rfl
                    | _ => cases hmissing
                  · exact absurd ⟨⟨hsuffix, hmatch⟩, hheader, e, hmissing, hget⟩ h

theorem collected_eq_filterMap {filter : ListFilter} {keys : List Key}
    (h : ∀ key ∈ keys, ¬Stops reads headerSuffix filter key) :
    reads.collected headerSuffix filter keys =
      .ok (keys.filterMap (metadataEntry reads headerSuffix filter)) := by
  induction keys with
  | nil => rfl
  | cons key rest ih =>
      rw [List.forall_mem_cons] at h
      rw [collected_cons h.1, List.filterMap_cons, ih h.2]
      cases metadataEntry reads headerSuffix filter key <;> rfl

end Reads

/-- What an encrypted layer shows over a store that shows `shown`. -/
def Shown.encrypted (shown : Shown) (run : Reader → Bytes → DecryptRun) (headerSuffix : Key) :
    Shown where
  get key := do
    Reads.notReserved headerSuffix key
    let encData ← (shown.get key).mapError (PrefixBlobStore.mapError key)
    shown.decrypted headerSuffix run key encData
  existsBlob key := do
    Reads.notReserved headerSuffix key
    let dataExists ← shown.existsBlob key
    if !dataExists then pure false else shown.existsBlob (key ++ headerSuffix)
  getWithMetadata key := do
    Reads.notReserved headerSuffix key
    let pair ← (shown.getWithMetadata key).mapError (PrefixBlobStore.mapError key)
    (shown.decrypted headerSuffix run key pair.2).map fun decrypted =>
      ({ pair.1 with key := key }, decrypted)
  list filter := do
    let keys ← shown.list (suffixFilter [])
    shown.withHeader headerSuffix ((keys.filter fun key => decide ¬headerSuffix <:+ key).filter
      fun key => filter.matchesBlob key none)
  walk filter :=
    relayed (shown.encryptRelay headerSuffix filter) (shown.walk (suffixFilter [])).2
      (shown.walk (suffixFilter [])).1
  listWithMetadata filter := do
    let keys ← shown.list (suffixFilter [])
    (shown.collected headerSuffix filter keys).map sortByKey

section Layer

variable {inner : BlobStore (StateM σ)} {s : σ} {shown : Shown}
  {provider : EncryptionProvider (StateM σ)} {headerSuffix : Key}

theorem exec_checkNoHeaderCollision_eq (key : Key) (s : σ) :
    exec ((encryptedOver provider headerSuffix inner).checkNoHeaderCollision key) s =
      (Reads.notReserved headerSuffix key, s) := by
  unfold EncryptedBlobStore.checkNoHeaderCollision Reads.notReserved
  split <;> rfl

theorem exec_hideNotFound_answer {α : Type} {x : Fallible (StateM σ) α}
    {answer : Except BlobStorageError α} (h : exec x s = (answer, s)) (key : Key) :
    exec (EncryptedBlobStore.hideNotFound key x) s =
      (answer.mapError (PrefixBlobStore.mapError key), s) := by
  rw [exec_hideNotFound, h]

/-- The result of a sequence whose first request leaves the state alone. -/
theorem bind_result {α β : Type} {x : Fallible (StateM σ) α} {f : α → Fallible (StateM σ) β}
    {answer : Except BlobStorageError α} {next : α → Except BlobStorageError β}
    (hx : exec x s = (answer, s)) (hf : ∀ a, (exec (f a) s).1 = next a) :
    (exec (x >>= f) s).1 = answer >>= next := by
  rw [exec_bind, hx]
  cases answer with
  | error e => rfl
  | ok a => exact hf a

/-- What `decrypt_stream` returns, whatever the run of the provider does to the state. -/
theorem decryptStream_result (hget : ∀ key, exec (inner.get key) s = (shown.get key, s))
    (key : Key) (encData : Reader) :
    (exec ((encryptedOver provider headerSuffix inner).decryptStream key encData) s).1 =
      shown.decrypted headerSuffix (fun encData header => (provider.decryptStream encData header
        s).1) key encData := by
  refine bind_result (exec_hideNotFound_answer (hget _) key) fun headerData => ?_
  cases headerData.readToEnd <;> rfl

theorem exec_decryptStream_eq (hget : ∀ key, exec (inner.get key) s = (shown.get key, s))
    (hquiet : provider.QuietAt s) (key : Key) (encData : Reader) :
    exec ((encryptedOver provider headerSuffix inner).decryptStream key encData) s =
      (shown.decrypted headerSuffix (fun encData header => (provider.decryptStream encData header
        s).1) key encData, s) := by
  refine exec_bind_answer (exec_hideNotFound_answer (hget _) key) fun headerData => ?_
  cases headerData.readToEnd with
  | error e => rfl
  | ok header =>
      dsimp only
      have hrun : exec (perform (provider.decryptStream encData header) :
          Fallible (StateM σ) DecryptRun) s =
          (.ok (provider.decryptStream encData header s).1, s) := by
        rw [exec_perform, hquiet encData header]
      exact exec_bind_ok hrun

theorem exec_withHeader_eq
    (hexists : ∀ key, exec (inner.existsBlob key) s = (shown.existsBlob key, s))
    (keys : List Key) :
    exec ((encryptedOver provider headerSuffix inner).withHeader keys) s =
      (shown.withHeader headerSuffix keys, s) := by
  induction keys with
  | nil => rfl
  | cons key rest ih =>
      exact exec_bind_answer (hexists _) fun headerExists =>
        exec_bind_answer ih fun others => rfl

/-- Each branch of the loop does what the function does. -/
theorem exec_collectMetadata_eq (h : Browses inner s shown) (filter : ListFilter)
    (keys : List Key) :
    exec ((encryptedOver provider headerSuffix inner).collectMetadata filter keys) s =
      (shown.collected headerSuffix filter keys, s) := by
  induction keys with
  | nil => rfl
  | cons key rest ih =>
      unfold EncryptedBlobStore.collectMetadata Reads.collected
      by_cases hsuffix : headerSuffix <:+ key
      · rw [if_pos hsuffix, if_pos hsuffix]
        exact ih
      rw [if_neg hsuffix, if_neg hsuffix]
      by_cases hmatch : (!filter.matchesBlob key none) = true
      · rw [if_pos hmatch, if_pos hmatch]
        exact ih
      rw [if_neg hmatch, if_neg hmatch]
      rw [exec_bind_ok (exec_attempt s _)]
      dsimp only [EncryptedBlobStore.headerKey]
      rw [h.existsBlob]
      dsimp only
      cases shown.existsBlob (key ++ headerSuffix) with
      | error e => exact ih
      | ok headerExists =>
          cases headerExists with
          | false => exact ih
          | true =>
              dsimp only
              rw [exec_bind_ok (exec_attempt s _), h.getWithMetadata]
              dsimp only
              cases shown.getWithMetadata key with
              | ok pair => exact exec_map_answer ih _
              | error e =>
                  cases e with
                  | notFound _ => exact ih
                  | _ => rfl

theorem encryptVisitor_relaysAt
    (hexists : ∀ key, exec (inner.existsBlob key) s = (shown.existsBlob key, s))
    (filter : ListFilter) (outer : BlobVisitor (StateM σ) S) :
    RelaysAt s ((encryptedOver provider headerSuffix inner).visitor filter outer) outer
      (shown.encryptRelay headerSuffix filter) := by
  intro key info l
  unfold EncryptedBlobStore.visitor Reads.encryptRelay
  dsimp only
  by_cases hsuffix : headerSuffix <:+ key
  · rw [if_pos hsuffix, if_pos hsuffix]
    rfl
  rw [if_neg hsuffix, if_neg hsuffix, execLocal_bind, execLocal_withLocal]
  dsimp only [EncryptedBlobStore.headerKey]
  rw [hexists]
  cases shown.existsBlob (key ++ headerSuffix) with
  | error e => rfl
  | ok headerExists =>
      cases headerExists with
      | false => rfl
      | true =>
          dsimp only
          cases filter.matchesBlob key info <;> rfl

/-- The encrypted layer over a store that shows `shown`, as far as no provider runs. -/
theorem Enumerates.encrypted (h : Enumerates inner s shown)
    (provider : EncryptionProvider (StateM σ)) (run : Reader → Bytes → DecryptRun)
    (headerSuffix : Key) :
    Enumerates (encryptedOver provider headerSuffix inner).toBlobStore s
      (shown.encrypted run headerSuffix) where
  existsBlob key :=
    exec_bind_answer (exec_checkNoHeaderCollision_eq key s) fun _ =>
      exec_bind_answer (h.existsBlob key) fun dataExists => by
        cases dataExists with
        | false => rfl
        | true => exact h.existsBlob _
  list filter := exec_bind_answer (h.list _) fun _ => exec_withHeader_eq h.existsBlob _
  visit filter visitor l hvisitor := by
    have hrelay : RelaysAt s ((encryptedOver provider headerSuffix inner).visitor filter visitor)
        visitor (shown.encryptRelay headerSuffix filter) :=
      encryptVisitor_relaysAt h.existsBlob filter visitor
    refine (h.visit _ _ l (hrelay.quietAt hvisitor)).trans ?_
    exact hrelay.walkEach hvisitor _ _ l

section Results

variable (h : Browses inner s shown)

include h

theorem Browses.encrypted_listWithMetadata (run : Reader → Bytes → DecryptRun)
    (filter : ListFilter) :
    exec ((encryptedOver provider headerSuffix inner).listWithMetadata filter) s =
      ((shown.encrypted run headerSuffix).listWithMetadata filter, s) :=
  exec_bind_answer (h.list _) fun keys => exec_map_answer (exec_collectMetadata_eq h filter keys) _

theorem Browses.encrypted_get_result (key : Key) :
    (exec ((encryptedOver provider headerSuffix inner).get key) s).1 =
      (shown.encrypted (fun encData header => (provider.decryptStream encData header s).1)
        headerSuffix).get key :=
  bind_result (exec_checkNoHeaderCollision_eq key s) fun _ =>
    bind_result (exec_hideNotFound_answer (h.get key) key) fun encData =>
      decryptStream_result h.get key encData

theorem Browses.encrypted_getWithMetadata_result (key : Key) :
    (exec ((encryptedOver provider headerSuffix inner).getWithMetadata key) s).1 =
      (shown.encrypted (fun encData header => (provider.decryptStream encData header s).1)
        headerSuffix).getWithMetadata key := by
  refine bind_result (exec_checkNoHeaderCollision_eq key s) fun _ =>
    bind_result (exec_hideNotFound_answer (h.getWithMetadata key) key) fun pair => ?_
  rw [exec_bind, ← decryptStream_result h.get key pair.2]
  cases exec ((encryptedOver provider headerSuffix inner).decryptStream key pair.2) s with
  | mk r t => cases r <;> rfl

end Results

/-- The encrypted layer over a store that shows `shown`. -/
theorem Browses.encrypted (h : Browses inner s shown) (hquiet : provider.QuietAt s)
    (headerSuffix : Key) :
    Browses (encryptedOver provider headerSuffix inner).toBlobStore s
      (shown.encrypted (fun encData header => (provider.decryptStream encData header s).1)
        headerSuffix) where
  toEnumerates := h.toEnumerates.encrypted provider _ headerSuffix
  get key :=
    exec_bind_answer (exec_checkNoHeaderCollision_eq key s) fun _ =>
      exec_bind_answer (exec_hideNotFound_answer (h.get key) key) fun encData =>
        exec_decryptStream_eq h.get hquiet key encData
  getWithMetadata key :=
    exec_bind_answer (exec_checkNoHeaderCollision_eq key s) fun _ =>
      exec_bind_answer (exec_hideNotFound_answer (h.getWithMetadata key) key) fun pair =>
        exec_map_answer (exec_decryptStream_eq h.get hquiet key pair.2) _
  listWithMetadata := h.encrypted_listWithMetadata _

end Layer

end BlobStorage
