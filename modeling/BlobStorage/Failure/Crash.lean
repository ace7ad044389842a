import BlobStorage.Concurrency.Calls
import BlobStorage.Refinement.Backend
import BlobStorage.Refinement.Encrypt

/-!
# A put that stops on the way

Where `put` of one blob can stop, and what the encrypted layer shows of the key
afterwards. A crash is a path of the program that is not continued; an inner put may
also fail with part of the object written, as it does on a filesystem, and a rollback
may fail.

The pair of objects is not replaced atomically: between the write of the data object
and the write of the header object the old header stands next to new data.
-/

namespace BlobStorage

open Fallible Program

variable {σ : Type}

/-- How the inner store and the provider may answer. A failed put leaves the object as
it was or with some part of the new content. -/
def FallibleServes (encryption : EncryptionProvider (StateM σ)) : StoreExchange → Prop
  | ⟨.put blobs, (.ok _, written)⟩ => written = entriesOf blobs
  | ⟨.put blobs, (.error _, written)⟩ => written = [] ∨
      ∃ blob part, blobs = [blob] ∧ part <+: blob.data.bytes ∧ written = [(blob.key, part)]
  | ⟨.encryptStream input, run⟩ => ∃ s, run = (encryption.encryptStream input s).1
  | _ => True

/-- The objects of the inner store after the exchanges of one program. -/
def afterwards (initial : PlainMap) (es : List StoreExchange) : PlainMap :=
  es.foldl applyExchange initial

/-- The two writes of a put that has been encrypted. -/
def IsDataWrite (blob : BlobInput) : StoreExchange → Prop
  | ⟨.put blobs, _⟩ => ∃ run : EncryptRun,
      blobs = [BlobInput.withSize blob.key run.reader (blob.sizeHint.getD 0)]
  | _ => False

def IsHeaderWritten (headerSuffix : Key) (blob : BlobInput) : StoreExchange → Prop
  | ⟨.put blobs, (.ok _, _)⟩ => ∃ header : Bytes,
      blobs = [BlobInput.withSize (blob.key ++ headerSuffix) (Reader.ofBytes header) header.length]
  | _ => False

/-- The data object is new, or part of it, and the header object is not the one that
belongs to it: the data write was made, the header write did not go through, and
neither did a rollback. -/
structure TornPair (headerSuffix : Key) (blob : BlobInput) (initial : PlainMap)
    (es : List StoreExchange) : Prop where
  data : ∃ run part, ⟨.encryptStream blob.data, run⟩ ∈ es ∧ part <+: run.written ∧
    afterwards initial es blob.key = some part
  header : ∃ header, afterwards initial es (blob.key ++ headerSuffix) = some header ∧
    (initial (blob.key ++ headerSuffix) = some header ∨
      ∃ run whole, ⟨.encryptStream blob.data, run⟩ ∈ es ∧ run.outcome = .header whole ∧
        header <+: whole)
  attempted : ∃ x ∈ es, IsDataWrite blob x
  unfinished : ∀ x ∈ es, ¬IsHeaderWritten headerSuffix blob x
  unrolled : ⟨.delete blob.key, .ok ()⟩ ∉ es

section Outcome

variable {encryption : EncryptionProvider (StateM σ)} {headerSuffix : Key} {blob : BlobInput}
  {initial : PlainMap} {es : List StoreExchange}

/-- A put that failed left the object as it was or with part of the new content. -/
theorem failed_put_cases {target : BlobInput} {e : BlobStorageError}
    {written : List (Key × Bytes)}
    (h : FallibleServes encryption ⟨.put [target], (.error e, written)⟩) :
    written = [] ∨ ∃ part, part <+: target.data.bytes ∧ written = [(target.key, part)] := by
  rcases h with h | ⟨blob, part, hblob, hpart, h⟩
  · exact .inl h
  · cases hblob
    exact .inr ⟨part, hpart, h⟩

/-- What a put may have left of the object it was to write. -/
theorem put_cases {target : BlobInput}
    {response : Except BlobStorageError PutResult × List (Key × Bytes)}
    (h : FallibleServes encryption ⟨.put [target], response⟩) :
    response.2 = [] ∨ ∃ part, part <+: target.data.bytes ∧ response.2 = [(target.key, part)] := by
  obtain ⟨result, written⟩ := response
  cases result with
  | error e => exact failed_put_cases h
  | ok result => exact .inr ⟨target.data.bytes, List.prefix_rfl, h⟩

theorem not_isHeaderWritten_of_data (haccepts : AcceptsPut headerSuffix blob.key)
    (run : EncryptRun) (response : Except BlobStorageError PutResult × List (Key × Bytes)) :
    ¬IsHeaderWritten headerSuffix blob
      ⟨.put [BlobInput.withSize blob.key run.reader (blob.sizeHint.getD 0)], response⟩ := by
  obtain ⟨result, written⟩ := response
  cases result with
  | error e => exact not_false
  | ok result =>
      rintro ⟨header, h⟩
      have hkey : blob.key = blob.key ++ headerSuffix :=
        congrArg BlobInput.key (List.cons.inj h).1
      exact haccepts.ne_headerKey blob.key hkey

/-- With a header object that is there, data without its header makes a torn pair. -/
theorem torn_or_headerless (haccepts : AcceptsPut headerSuffix blob.key) {run : EncryptRun}
    {response : Except BlobStorageError PutResult × List (Key × Bytes)} {part : Bytes}
    {rest : List StoreExchange}
    (hes : es = ⟨.encryptStream blob.data, run⟩ ::
      ⟨.put [BlobInput.withSize blob.key run.reader (blob.sizeHint.getD 0)], response⟩ :: rest)
    (hpart : part <+: run.written) (hdata : afterwards initial es blob.key = some part)
    (hunfinished : ∀ x ∈ rest, ¬IsHeaderWritten headerSuffix blob x)
    (hunrolled : ⟨.delete blob.key, .ok ()⟩ ∉ rest)
    (hheader :
      afterwards initial es (blob.key ++ headerSuffix) = initial (blob.key ++ headerSuffix) ∨
        ∃ whole header, run.outcome = .header whole ∧ header <+: whole ∧
          afterwards initial es (blob.key ++ headerSuffix) = some header) :
    afterwards initial es (blob.key ++ headerSuffix) = none ∨
      TornPair headerSuffix blob initial es := by
  have hrun : ⟨.encryptStream blob.data, run⟩ ∈ es := by
    rw [hes]
    exact List.mem_cons_self
  cases hthere : afterwards initial es (blob.key ++ headerSuffix) with
  | none => exact .inl rfl
  | some header =>
      refine .inr ⟨⟨run, part, hrun, hpart, hdata⟩, ⟨header, hthere, ?_⟩, ?_, ?_, ?_⟩
      · rcases hheader with hheader | ⟨whole, header', houtcome, hinitial, hheader⟩
        · exact .inl (hheader.symm.trans hthere)
        · rw [hthere] at hheader
          cases hheader
          exact .inr ⟨run, whole, hrun, houtcome, hinitial⟩
      · rw [hes]
        exact ⟨_, List.mem_cons_of_mem _ List.mem_cons_self, run, rfl⟩
      · rw [hes, List.forall_mem_cons, List.forall_mem_cons]
        exact ⟨not_false, not_isHeaderWritten_of_data haccepts run response, hunfinished⟩
      · rw [hes]
        simpa using hunrolled

/-- So it is after a failed write of the header, if what follows changes nothing. -/
theorem torn_of_failed_header (haccepts : AcceptsPut headerSuffix blob.key) {run : EncryptRun}
    {result : PutResult} {header : Bytes} {e : BlobStorageError}
    {headerWritten : List (Key × Bytes)} {rest : List StoreExchange}
    (hasHeader : run.outcome = .header header)
    (hes : es = ⟨.encryptStream blob.data, run⟩ ::
      ⟨.put [BlobInput.withSize blob.key run.reader (blob.sizeHint.getD 0)],
        (.ok result, [(blob.key, run.written)])⟩ ::
      ⟨.put [BlobInput.withSize (blob.key ++ headerSuffix) (Reader.ofBytes header) header.length],
        (.error e, headerWritten)⟩ :: rest)
    (hserved : FallibleServes encryption
      ⟨.put [BlobInput.withSize (blob.key ++ headerSuffix) (Reader.ofBytes header) header.length],
        (.error e, headerWritten)⟩)
    (hrest : ∀ M, afterwards M rest = M)
    (hunfinished : ∀ x ∈ rest, ¬IsHeaderWritten headerSuffix blob x)
    (hunrolled : ⟨.delete blob.key, .ok ()⟩ ∉ rest) :
    afterwards initial es (blob.key ++ headerSuffix) = none ∨
      TornPair headerSuffix blob initial es := by
  have hne : blob.key ++ headerSuffix ≠ blob.key := (haccepts.ne_headerKey blob.key).symm
  have hafter : afterwards initial es =
      KeyMap.insertAll (KeyMap.insertAll initial [(blob.key, run.written)]) headerWritten := by
    rw [hes]
    exact hrest _
  refine torn_or_headerless haccepts hes List.prefix_rfl ?_ ?_ ?_ ?_
  · rw [hafter]
    rcases failed_put_cases hserved with rfl | ⟨part, _, rfl⟩
    · simp
    · simp [Function.update_of_ne hne.symm]
  · exact List.forall_mem_cons.mpr ⟨not_false, hunfinished⟩
  · simpa using hunrolled
  · rw [hafter]
    rcases failed_put_cases hserved with rfl | ⟨part, hpart, rfl⟩
    · exact .inl (by simp [hne])
    · exact .inr ⟨header, part, hasHeader, hpart, by simp⟩

/-- Wherever a put stops, its key has both objects as before, both objects new, no data
object, no header object, or a torn pair. -/
theorem put_stops (haccepts : AcceptsPut headerSuffix blob.key)
    (htrace : PutTrace headerSuffix blob es)
    (hserved : ∀ x ∈ es, FallibleServes encryption x) :
    (afterwards initial es blob.key = initial blob.key ∧
      afterwards initial es (blob.key ++ headerSuffix) = initial (blob.key ++ headerSuffix)) ∨
    (∃ s header, (encryption.encryptStream blob.data s).1.outcome = .header header ∧
      afterwards initial es blob.key = some (encryption.encryptStream blob.data s).1.written ∧
      afterwards initial es (blob.key ++ headerSuffix) = some header) ∨
    afterwards initial es blob.key = none ∨
    afterwards initial es (blob.key ++ headerSuffix) = none ∨
    TornPair headerSuffix blob initial es := by
  have hne : blob.key ++ headerSuffix ≠ blob.key := (haccepts.ne_headerKey blob.key).symm
  cases htrace with
  | start => exact .inl ⟨rfl, rfl⟩
  | encrypted run => exact .inl ⟨rfl, rfl⟩
  | dataPut run response =>
      have hserved₁ := put_cases (hserved _ (List.mem_cons_of_mem _ (List.mem_singleton_self _)))
      obtain ⟨result, written⟩ := response
      rcases hserved₁ with rfl | ⟨part, hpart, rfl⟩
      · exact .inl ⟨rfl, rfl⟩
      · refine .inr (.inr (.inr (torn_or_headerless haccepts rfl hpart ?_ (List.forall_mem_nil _)
          List.not_mem_nil (.inl ?_))))
        · simp [afterwards, applyExchange]
        · simp [afterwards, applyExchange, hne]
  | unencrypted run result written deleted noHeader =>
      have hall : written = [(blob.key, run.written)] :=
        hserved _ (List.mem_cons_of_mem _ (List.mem_cons_self ..))
      subst hall
      cases deleted with
      | ok _ => exact .inr (.inr (.inl (by simp [afterwards, applyExchange])))
      | error e =>
          refine .inr (.inr (.inr (torn_or_headerless haccepts rfl List.prefix_rfl ?_ ?_ ?_
            (.inl ?_))))
          · simp [afterwards, applyExchange]
          · exact List.forall_mem_singleton.mpr not_false
          · simp
          · simp [afterwards, applyExchange, hne]
  | headerPut run result written header response hasHeader =>
      have hall : written = [(blob.key, run.written)] :=
        hserved _ (List.mem_cons_of_mem _ (List.mem_cons_self ..))
      subst hall
      have hserved₂ := hserved _ (List.mem_cons_of_mem _ (List.mem_cons_of_mem _
        (List.mem_singleton_self _)))
      obtain ⟨headerResult, headerWritten⟩ := response
      cases headerResult with
      | ok headerResult =>
          have hheader : headerWritten = [(blob.key ++ headerSuffix, header)] := hserved₂
          subst hheader
          obtain ⟨s, rfl⟩ := hserved _ (List.mem_cons_self ..)
          refine .inr (.inl ⟨s, header, hasHeader, ?_, ?_⟩)
          · simp [afterwards, applyExchange, Function.update_of_ne hne.symm]
          · simp [afterwards, applyExchange]
      | error e =>
          exact .inr (.inr (.inr (torn_of_failed_header haccepts hasHeader rfl hserved₂
            (fun _ => rfl) (List.forall_mem_nil _) List.not_mem_nil)))
  | rolledBack run result written header e headerWritten deleted hasHeader =>
      have hall : written = [(blob.key, run.written)] :=
        hserved _ (List.mem_cons_of_mem _ (List.mem_cons_self ..))
      subst hall
      have hserved₂ := hserved _ (List.mem_cons_of_mem _ (List.mem_cons_of_mem _
        (List.mem_cons_self ..)))
      cases deleted with
      | ok _ => exact .inr (.inr (.inl (by simp [afterwards, applyExchange])))
      | error failure =>
          refine .inr (.inr (.inr (torn_of_failed_header haccepts hasHeader rfl hserved₂
            (fun _ => rfl) ?_ ?_)))
          · exact List.forall_mem_singleton.mpr not_false
          · simp

end Outcome

section Observed

variable {Keeps : σ → σ → Prop} {Admits : Key → Prop} {Holds : σ → PlainMap → Prop}
  {self : EncryptedBlobStore (StateM σ)}

/-- The blob is there as a whole, with its old or its new plaintext, or it is not there
for any reader. -/
def Intact (self : EncryptedBlobStore (StateM σ)) (s : σ) (key : Key) (old : Bytes → Prop)
    (new : Bytes) : Prop :=
  ((∃ t, exec (self.existsBlob key) s = (.ok true, t)) ∧
    ∃ reader t plaintext, exec (self.get key) s = (.ok reader, t) ∧
      reader.readToEnd = .ok plaintext ∧ (old plaintext ∨ plaintext = new)) ∨
  ((∃ t, exec (self.existsBlob key) s = (.ok false, t)) ∧
    (∃ t, exec (self.get key) s = (.error (.notFound key), t)) ∧
    ∀ filter, ∃ keys t, exec (self.list filter) s = (.ok keys, t) ∧ key ∉ keys)

theorem intact_of_missing (C : MapContract Keeps self.inner Admits Holds)
    (hheaderKeys : ∀ key, Admits key → Admits (self.headerKey key)) {s : σ} {M : PlainMap}
    {key : Key} (hHolds : Holds s M) (hsuffix : ¬self.headerSuffix <:+ key) (hkey : Admits key)
    (hmissing : M key = none ∨ M (self.headerKey key) = none) (old : Bytes → Prop)
    (new : Bytes) : Intact self s key old new := by
  refine .inr ⟨?_, ?_, fun filter => ?_⟩
  · obtain ⟨t, hexec, _⟩ := EncryptedBlobStore.existsBlob_holds C hHolds hsuffix hkey
      (hheaderKeys key hkey)
    refine ⟨t, ?_⟩
    rw [hexec]
    rcases hmissing with hmissing | hmissing
    · simp [hmissing]
    · simp [hmissing]
  · obtain ⟨t, hexec, _⟩ := EncryptedBlobStore.get_holds_missing C hHolds hsuffix hkey
      (hheaderKeys key hkey) hmissing
    exact ⟨t, hexec⟩
  · obtain ⟨keys, t, hexec, _, hkeys⟩ := EncryptedBlobStore.list_holds C hHolds filter
      fun other _ hother => hheaderKeys other (C.admitted hHolds hother)
    refine ⟨_, t, hexec, ?_⟩
    simp only [List.mem_filter, hkeys.2, not_and]
    rintro ⟨⟨⟨hsome, _⟩, _⟩, _⟩
    rcases hmissing with hmissing | hmissing
    · simp [hmissing] at hsome
    · simp [hmissing]

theorem intact_of_pair (C : MapContract Keeps self.inner Admits Holds)
    (P : LawfulProvider Keeps self.encryption) {s : σ} {M : PlainMap} {key : Key}
    (hHolds : Holds s M) (hsuffix : ¬self.headerSuffix <:+ key) (hkey : Admits key)
    (hheaderKey : Admits (self.headerKey key)) {ciphertext header plaintext : Bytes}
    (hdata : M key = some ciphertext) (hheader : M (self.headerKey key) = some header)
    (hdecrypts : self.encryption.Decrypts ciphertext header plaintext) {old : Bytes → Prop}
    {new : Bytes} (hplaintext : old plaintext ∨ plaintext = new) : Intact self s key old new := by
  refine .inl ⟨?_, ?_⟩
  · obtain ⟨t, hexec, _⟩ := EncryptedBlobStore.existsBlob_holds C hHolds hsuffix hkey hheaderKey
    refine ⟨t, ?_⟩
    rw [hexec, hdata, hheader]
    rfl
  · obtain ⟨reader, t, hexec, _, hbytes, hfailure⟩ := EncryptedBlobStore.get_holds_pair C P
      hHolds hsuffix hkey hheaderKey hdata hheader hdecrypts
    exact ⟨reader, t, plaintext, hexec, Reader.readToEnd_eq_ok_iff.mpr ⟨hfailure, hbytes⟩,
      hplaintext⟩

/-- Where nothing changed, what was stored still is, and what was not still is not. -/
theorem intact_of_unchanged (C : MapContract Keeps self.inner Admits Holds)
    (P : LawfulProvider Keeps self.encryption)
    (hheaderKeys : ∀ key, Admits key → Admits (self.headerKey key)) {s : σ} {M initial : PlainMap}
    {key : Key} (hHolds : Holds s M) (hsuffix : ¬self.headerSuffix <:+ key) (hkey : Admits key)
    {old : Bytes → Prop}
    (hstored : ∀ ciphertext header, initial key = some ciphertext →
      initial (self.headerKey key) = some header →
      ∃ plaintext, old plaintext ∧ self.encryption.Decrypts ciphertext header plaintext)
    (hdata : M key = initial key) (hheader : M (self.headerKey key) = initial (self.headerKey key))
    (new : Bytes) : Intact self s key old new := by
  cases hciphertext : initial key with
  | none =>
      exact intact_of_missing C hheaderKeys hHolds hsuffix hkey
        (.inl (hdata.trans hciphertext)) old new
  | some ciphertext =>
      cases hbytes : initial (self.headerKey key) with
      | none =>
          exact intact_of_missing C hheaderKeys hHolds hsuffix hkey
            (.inr (hheader.trans hbytes)) old new
      | some header =>
          obtain ⟨plaintext, hold, hdecrypts⟩ := hstored ciphertext header hciphertext hbytes
          exact intact_of_pair C P hHolds hsuffix hkey (hheaderKeys key hkey)
            (hdata.trans hciphertext) (hheader.trans hbytes) hdecrypts (.inl hold)

/-- A torn pair as readers see it: the key exists, and `get` runs the decryption on what is
in the data object with what is in the header object, whatever comes of it. -/
def ReadAsPair (self : EncryptedBlobStore (StateM σ)) (s : σ) (key : Key) (M : PlainMap) :
    Prop :=
  (∃ t, exec (self.existsBlob key) s = (.ok true, t)) ∧
  ∃ ciphertext header encData u t, M key = some ciphertext ∧
    M (self.headerKey key) = some header ∧ encData.readToEnd = .ok ciphertext ∧
    exec (self.get key) s =
      (.ok ((self.encryption.decryptStream encData header u).1.reader key), t)

theorem readAsPair_of_pair (C : MapContract Keeps self.inner Admits Holds)
    (P : LawfulProvider Keeps self.encryption) {s : σ} {M : PlainMap} {key : Key}
    (hHolds : Holds s M) (hsuffix : ¬self.headerSuffix <:+ key) (hkey : Admits key)
    (hheaderKey : Admits (self.headerKey key)) {ciphertext header : Bytes}
    (hdata : M key = some ciphertext) (hheader : M (self.headerKey key) = some header) :
    ReadAsPair self s key M := by
  constructor
  · obtain ⟨t, hexec, _⟩ := EncryptedBlobStore.existsBlob_holds C hHolds hsuffix hkey hheaderKey
    refine ⟨t, ?_⟩
    rw [hexec, hdata, hheader]
    rfl
  · obtain ⟨encData, u, t, hexec, _, hbytes, hfailure⟩ :=
      EncryptedBlobStore.get_runs C P hHolds hsuffix hkey hheaderKey hdata hheader
    exact ⟨ciphertext, header, encData, u, t, hdata, hheader,
      Reader.readToEnd_eq_ok_iff.mpr ⟨hfailure, hbytes⟩, hexec⟩

/-- A put that is not accepted stops before its first request. Wherever another put
stops, a store that looks at what it left finds the blob intact, or the pair is torn. A
torn pair is shown as existing, and its data is read with the header that is there: the
old one, or the part of the new one that a failed write left. -/
theorem put_intact_or_torn (C : MapContract Keeps self.inner Admits Holds)
    (P : LawfulProvider Keeps self.encryption)
    (hheaderKeys : ∀ key, Admits key → Admits (self.headerKey key)) {blob : BlobInput}
    {initial : PlainMap} {old : Bytes → Prop}
    (hstored : ∀ ciphertext header, initial blob.key = some ciphertext →
      initial (self.headerKey blob.key) = some header →
      ∃ plaintext, old plaintext ∧ self.encryption.Decrypts ciphertext header plaintext)
    {es : List StoreExchange} {rest : StoreProgram (Except BlobStorageError PutResult)}
    (hpath : Path ((requestLayer self.headerSuffix).put [blob]).run es rest)
    (hserved : ∀ x ∈ es, FallibleServes self.encryption x) {s : σ}
    (hHolds : Holds s (afterwards initial es)) :
    (¬AcceptsPut self.headerSuffix blob.key → es = []) ∧
    (AcceptsPut self.headerSuffix blob.key → Admits blob.key →
      Intact self s blob.key old blob.data.bytes ∨
        (TornPair self.headerSuffix blob initial es ∧
          ReadAsPair self s blob.key (afterwards initial es))) := by
  constructor
  · intro hrejected
    obtain ⟨e, he⟩ := put_run_of_not_accepts blob hrejected
    rw [he] at hpath
    exact (path_done_iff.mp hpath).1
  intro haccepts hkey
  have hsuffix := haccepts.2.1
  rw [put_run blob haccepts] at hpath
  rcases put_stops haccepts (putRequests_path hpath).1 hserved with
    ⟨hdata, hheader⟩ | ⟨u, header, houtcome, hdata, hheader⟩ | hdata | hheader | htorn
  · exact .inl (intact_of_unchanged C P hheaderKeys hHolds hsuffix hkey hstored hdata hheader _)
  · exact .inl (intact_of_pair C P hHolds hsuffix hkey (hheaderKeys _ hkey) hdata hheader
      (P.inverse houtcome) (.inr rfl))
  · exact .inl (intact_of_missing C hheaderKeys hHolds hsuffix hkey (.inl hdata) old _)
  · exact .inl (intact_of_missing C hheaderKeys hHolds hsuffix hkey (.inr hheader) old _)
  · obtain ⟨run, part, _, _, hdata⟩ := htorn.data
    obtain ⟨header, hheader, _⟩ := htorn.header
    exact .inr ⟨htorn, readAsPair_of_pair C P hHolds hsuffix hkey (hheaderKeys _ hkey) hdata
      hheader⟩

end Observed

section Overwrite

/-- The provider that reads what was stored and what is being stored. -/
def overwriteLayer : EncryptedBlobStore (StateM MapState) where
  inner := MapBlobStore.toBlobStore ⟨true⟩
  encryption := RekeyableShiftEncryption.toProvider ⟨20, 0⟩
  headerSuffix := defaultHeaderSuffix

def overwrittenBlob : BlobInput := .new ['k'] (.ofBytes [2])

/-- The key `k` as it was stored when the data key was 10: the plaintext is `1`. -/
def overwriteStart : PlainMap :=
  Function.update (Function.update (fun _ => none) ['k'] (some [11]))
    (['k'] ++ defaultHeaderSuffix) (some [10, 0])

/-- The put stops after the data write. -/
def overwriteExchanges : List StoreExchange :=
  [⟨.encryptStream (.ofBytes [2]), { written := [22], outcome := .header [20, 0] }⟩,
    ⟨.put [.withSize ['k'] (.ofBytes [22]) 0], (.ok ⟨[]⟩, [(['k'], [22])])⟩]

def overwriteState : MapState :=
  (MapState.empty.write ['k'] [22]).write (['k'] ++ defaultHeaderSuffix) [10, 0]

theorem overwrite_path : ∃ rest, Path ((requestLayer defaultHeaderSuffix).put [overwrittenBlob]).run
    overwriteExchanges rest := by
  have haccepts : AcceptsPut defaultHeaderSuffix ['k'] := ⟨by decide, by decide, by decide⟩
  rw [put_run overwrittenBlob haccepts]
  exact ⟨_, .cons _ (.cons _ (.nil _))⟩

theorem overwrite_served : ∀ x ∈ overwriteExchanges, FallibleServes overwriteLayer.encryption x := by
  intro x hx
  rcases List.mem_pair.mp hx with rfl | rfl
  · exact ⟨MapState.empty, rfl⟩
  · rfl

theorem overwrite_holds :
    MapBlobStore.HoldsMap overwriteState (afterwards overwriteStart overwriteExchanges) := by
  have hafter : afterwards overwriteStart overwriteExchanges =
      Function.update (Function.update (fun _ => none) ['k'] (some [22]))
        (['k'] ++ defaultHeaderSuffix) (some [10, 0]) := by
    have hne : ['k'] ≠ ['k'] ++ defaultHeaderSuffix := by decide
    change Function.update (Function.update (Function.update _ _ _) _ _) _ _ = _
    rw [Function.update_comm hne, Function.update_idem]
    exact Function.update_comm hne.symm _ _ _
  rw [hafter]
  exact (MapBlobStore.holdsMap_empty.write (by decide) [22]).write (by decide) [10, 0]

theorem overwrite_stored (ciphertext header : Bytes) (hdata : overwriteStart ['k'] = some ciphertext)
    (hheader : overwriteStart (overwriteLayer.headerKey ['k']) = some header) :
    ∃ plaintext, plaintext = [1] ∧
      overwriteLayer.encryption.Decrypts ciphertext header plaintext := by
  have hne : ['k'] ≠ ['k'] ++ defaultHeaderSuffix := by decide
  have hcipher : overwriteStart ['k'] = some [11] := by
    rw [overwriteStart, Function.update_of_ne hne, Function.update_self]
  have hbytes : overwriteStart (overwriteLayer.headerKey ['k']) = some [10, 0] :=
    Function.update_self ..
  rw [hcipher, Option.some.injEq] at hdata
  rw [hbytes, Option.some.injEq] at hheader
  subst hdata hheader
  refine ⟨[1], rfl, fun _ encData hfailure hencData => ?_⟩
  have houtcome : (RekeyableShiftEncryption.encryptStream ⟨10, 0⟩ (.ofBytes [1])).outcome =
      .header [10, 0] := rfl
  exact RekeyableShiftEncryption.decryptStream_yields houtcome hfailure hencData

/-- After the crash the key still exists, and reads as a third thing. -/
theorem overwrite_crash_shows_neither :
    (∃ rest, Path ((requestLayer defaultHeaderSuffix).put [overwrittenBlob]).run
      overwriteExchanges rest) ∧
    (∀ x ∈ overwriteExchanges, FallibleServes overwriteLayer.encryption x) ∧
    MapBlobStore.HoldsMap overwriteState (afterwards overwriteStart overwriteExchanges) ∧
    (∀ ciphertext header, overwriteStart ['k'] = some ciphertext →
      overwriteStart (overwriteLayer.headerKey ['k']) = some header →
      ∃ plaintext, plaintext = [1] ∧
        overwriteLayer.encryption.Decrypts ciphertext header plaintext) ∧
    ¬Intact overwriteLayer overwriteState ['k'] (· = [1]) [2] := by
  refine ⟨overwrite_path, overwrite_served, overwrite_holds, overwrite_stored, ?_⟩
  have hexists : (exec (overwriteLayer.existsBlob ['k']) overwriteState).1 = .ok true := by decide
  have hget : (exec (overwriteLayer.get ['k']) overwriteState).1 = .ok { bytes := [12] } := by
    decide
  rintro (⟨_, reader, t, plaintext, hexec, hread, hplaintext⟩ | ⟨⟨t, hexec⟩, _⟩)
  · rw [hexec] at hget
    cases hget
    cases hread
    rcases hplaintext with h | h
    · exact absurd h (by decide)
    · exact absurd h (by decide)
  · rw [hexec] at hexists
    cases hexists

theorem put_intact_or_torn_overwrite :
    Intact overwriteLayer overwriteState ['k'] (· = [1]) [2] ∨
      (TornPair defaultHeaderSuffix overwrittenBlob overwriteStart overwriteExchanges ∧
        ReadAsPair overwriteLayer overwriteState ['k']
          (afterwards overwriteStart overwriteExchanges)) := by
  obtain ⟨rest, hpath⟩ := overwrite_path
  have hheaderKeys : ∀ key, ValidKey key → ValidKey (overwriteLayer.headerKey key) := by
    intro key hkey
    exact hkey.append (by decide) (by decide)
  have hcontract : MapContract Eq overwriteLayer.inner ValidKey MapBlobStore.HoldsMap :=
    MapBlobStore.mapContract ⟨true⟩
  have hlawful : LawfulProvider Eq overwriteLayer.encryption := RekeyableShiftEncryption.lawful _
  exact (put_intact_or_torn hcontract hlawful hheaderKeys overwrite_stored hpath overwrite_served
    overwrite_holds).2 ⟨by decide, by decide, by decide⟩ (by decide)

end Overwrite

end BlobStorage
