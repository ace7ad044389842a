import BlobStorage.Commuting.Backend
import BlobStorage.Failure.BatchReports
import BlobStorage.Stack

/-!
# The prefix and the encryption layer commute

Encryption over a prefix and a prefix over encryption, on one backend. Both reach it with the
same requests, in the same order, but for header checks of keys outside the prefix, which change
nothing. What differs is the level at which a key is rejected, and with it the text of the error.
-/

namespace BlobStorage

open Fallible

/-- The prefix is one of directories that keeps keys valid, and the suffix is plain text. -/
structure PlainNames (start headerSuffix : Key) : Prop where
  slash : [keySeparator] <:+ start
  valid : ∀ key, ValidKey key → ValidKey (start ++ key)
  noSeparator : keySeparator ∉ headerSuffix
  noBackslash : '\\' ∉ headerSuffix

namespace PlainNames

variable {start headerSuffix key : Key}

theorem valid_iff (h : PlainNames start headerSuffix) : ValidKey (start ++ key) ↔ ValidKey key := by
  refine ⟨fun hkey => ?_, h.valid key⟩
  obtain ⟨front, rfl⟩ := h.slash
  refine ⟨fun hback => hkey.1 (List.mem_append_right _ hback), fun component hmem => hkey.2 _ ?_⟩
  rw [List.append_assoc, List.singleton_append, Splitting.splitOn_append_sep]
  exact List.mem_append_right _ hmem

/-- A suffix without separators does not reach into the prefix. -/
theorem suffix_iff (h : PlainNames start headerSuffix) :
    headerSuffix <:+ start ++ key ↔ headerSuffix <:+ key := by
  refine ⟨fun hsuffix => ?_, fun hsuffix => hsuffix.trans (List.suffix_append start key)⟩
  obtain hlong | hshort := Nat.lt_or_ge key.length headerSuffix.length
  · obtain ⟨front, rfl⟩ := h.slash
    have hkey : [keySeparator] ++ key <:+ headerSuffix := by
      refine List.suffix_of_suffix_length_le ?_ hsuffix ?_
      · rw [List.append_assoc]
        exact List.suffix_append front _
      · rw [List.length_append, List.length_singleton]
        omega
    exact absurd (hkey.subset List.mem_cons_self) h.noSeparator
  · exact List.suffix_of_suffix_length_le hsuffix (List.suffix_append start key) hshort

/-- Such a prefix is a valid key and a separator. -/
theorem of_directory {directory : Key} (hdirectory : ValidKey directory)
    (hseparator : keySeparator ∉ headerSuffix) (hbackslash : '\\' ∉ headerSuffix) :
    PlainNames (directory ++ [keySeparator]) headerSuffix where
  slash := List.suffix_append directory _
  valid key hkey := by
    rw [List.append_assoc, List.singleton_append]
    refine ⟨?_, ?_⟩
    · rw [List.mem_append, List.mem_cons, not_or, not_or]
      exact ⟨hdirectory.1, by decide, hkey.1⟩
    · rw [Splitting.splitOn_append_sep]
      intro component hmem
      obtain hmem | hmem := List.mem_append.mp hmem
      · exact hdirectory.2 component hmem
      · exact hkey.2 component hmem
  noSeparator := hseparator
  noBackslash := hbackslash

theorem header_valid (h : PlainNames start headerSuffix) (hkey : ValidKey key) :
    ValidKey (key ++ headerSuffix) :=
  hkey.append h.noBackslash h.noSeparator

end PlainNames

/-- The providers' steps keep what the backend holds. -/
structure HarmlessProvider {σ : Type} (Holds : σ → Prop) (provider : EncryptionProvider (StateM σ)) :
    Prop where
  encrypt : ∀ s reader, Holds s → Holds (provider.encryptStream reader s).2
  decrypt : ∀ s reader header, Holds s → Holds (provider.decryptStream reader header s).2

section Commuting

variable {σ : Type} {backend : BlobStore (StateM σ)} {Holds : σ → Prop} {keys : σ → List Key}
variable {entries : σ → List (Key × Option BlobMeta)} {provider : EncryptionProvider (StateM σ)}
variable {start headerSuffix : Key} {s : σ} {key : Key}

/-- The prefix layer on the backend. -/
abbrev prefixStore (backend : BlobStore (StateM σ)) (start : Key) : PrefixBlobStore (StateM σ) :=
  { inner := backend, keyPrefix := start }

/-- The encryption layer on the backend. -/
abbrev encryptedStore (backend : BlobStore (StateM σ)) (provider : EncryptionProvider (StateM σ))
    (headerSuffix : Key) : EncryptedBlobStore (StateM σ) :=
  { inner := backend, encryption := provider, headerSuffix }

/-- Encryption over the prefix. -/
abbrev encryptedOverPrefix (backend : BlobStore (StateM σ)) (start : Key)
    (provider : EncryptionProvider (StateM σ)) (headerSuffix : Key) :
    EncryptedBlobStore (StateM σ) :=
  encryptedStore (prefixStore backend start).toBlobStore provider headerSuffix

/-- The prefix over encryption. -/
abbrev prefixOverEncrypted (backend : BlobStore (StateM σ)) (start : Key)
    (provider : EncryptionProvider (StateM σ)) (headerSuffix : Key) : PrefixBlobStore (StateM σ) :=
  prefixStore (encryptedStore backend provider headerSuffix).toBlobStore start

/-- Both sides reject the call before they reach the backend. -/
theorem mirrors_of_rejected {α β : Type} {R : α → β → Prop} {x : Fallible (StateM σ) α}
    {y : Fallible (StateM σ) β} {f : BlobStorageError → BlobStorageError}
    (hf : ∀ e, e.IsInvalidInput → f e = e)
    (hx : ∃ e, e.IsInvalidInput ∧ exec x s = (.error e, s))
    (hy : ∃ e, e.IsInvalidInput ∧ exec y s = (.error e, s)) (hs : Holds s) :
    Mirrors f Holds R x y s := by
  obtain ⟨e, he, hx⟩ := hx
  obtain ⟨e', he', hy⟩ := hy
  refine .of_exec hx hy (.error ?_) hs
  rw [hf e' he']
  exact he.unworded_eq he'

theorem mapError_of_invalidInput (shown : Key) (e : BlobStorageError) (h : e.IsInvalidInput) :
    PrefixBlobStore.mapError shown e = e := by
  cases e <;> first | rfl | exact absurd h not_false

/-- A batch that is prefixed has only valid keys. -/
theorem valid_of_exec_prefixedAll {store : PrefixBlobStore (StateM σ)} {batch physical : List Key}
    {t : σ} (h : exec (store.prefixedAll batch) s = (.ok physical, t)) :
    ∀ key ∈ batch, ValidKey key ∧ ValidKey (store.keyPrefix ++ key) := by
  induction batch generalizing s t physical with
  | nil => simp
  | cons key rest ih =>
      rw [PrefixBlobStore.prefixedAll, exec_bind_eq_ok] at h
      obtain ⟨first, u, hfirst, hrest⟩ := h
      obtain ⟨others, v, hothers, _⟩ := exec_bind_eq_ok.mp hrest
      obtain ⟨_, w, hlogical, hbelow⟩ := exec_bind_eq_ok.mp hfirst
      obtain ⟨_, x, hphysical, _⟩ := exec_bind_eq_ok.mp hbelow
      exact List.forall_mem_cons.mpr
        ⟨⟨(exec_checkKey_eq_ok hlogical).1, (exec_checkKey_eq_ok hphysical).1⟩, ih hothers⟩

theorem exec_prefixedAll_of_not_accepted {store : PrefixBlobStore (StateM σ)} {batch : List Key}
    (h : ¬∀ key ∈ batch, ValidKey key ∧ ValidKey (store.keyPrefix ++ key)) (s : σ) :
    ∃ e, e.IsInvalidInput ∧ exec (store.prefixedAll batch) s = (.error e, s) :=
  (exec_prefixedAll_cases store batch s).resolve_left fun hall =>
    h (valid_of_exec_prefixedAll hall)

theorem exec_prefixedAll_of_not_valid {store : PrefixBlobStore (StateM σ)} {batch : List Key}
    (h : ¬∀ key ∈ batch, ValidKey key) (s : σ) :
    ∃ e, e.IsInvalidInput ∧ exec (store.prefixedAll batch) s = (.error e, s) :=
  exec_prefixedAll_of_not_accepted (fun hall => h fun key hkey => (hall key hkey).1) s

theorem exec_prefixed_of_not_valid {store : PrefixBlobStore (StateM σ)} (h : ¬ValidKey key) (s : σ) :
    ∃ e, e.IsInvalidInput ∧ exec (store.prefixed key) s = (.error e, s) := by
  obtain ⟨e, he, hcheck⟩ := exec_checkKey_of_not_valid s h
  exact ⟨e, he, exec_bind_error hcheck⟩

/-- The reserved suffix is found at both levels or at neither. -/
theorem mirrors_checkNoHeaderCollision (h : PlainNames start headerSuffix) (key : Key)
    (shown : Key) (hs : Holds s) :
    Mirrors (PrefixBlobStore.mapError shown) Holds Eq
      ((encryptedOverPrefix backend start provider headerSuffix).checkNoHeaderCollision key)
      ((encryptedStore backend provider headerSuffix).checkNoHeaderCollision (start ++ key)) s := by
  unfold EncryptedBlobStore.checkNoHeaderCollision
  by_cases hsuffix : headerSuffix <:+ key
  · rw [if_pos hsuffix, if_pos (h.suffix_iff.mpr hsuffix)]
    exact .throw rfl hs
  · rw [if_neg hsuffix, if_neg fun hlong => hsuffix (h.suffix_iff.mp hlong)]
    exact .pure rfl hs

section Reads

theorem exec_prefix_get (h : PlainNames start headerSuffix) (hkey : ValidKey key)
    {answer : Except BlobStorageError Reader}
    (hread : exec (backend.get (start ++ key)) s = (answer, s)) :
    exec ((prefixStore backend start).get key) s =
      (answer.mapError (PrefixBlobStore.mapError key), s) := by
  have hprefixed := @PrefixBlobStore.exec_prefixed σ (prefixStore backend start) key hkey
    (h.valid key hkey) s
  rw [PrefixBlobStore.get, exec_bind_ok hprefixed, exec_mapErr, hread]

theorem exec_prefix_existsBlob (h : PlainNames start headerSuffix) (hkey : ValidKey key)
    {answer : Except BlobStorageError Bool}
    (hread : exec (backend.existsBlob (start ++ key)) s = (answer, s)) :
    exec ((prefixStore backend start).existsBlob key) s =
      (answer.mapError (PrefixBlobStore.mapError key), s) := by
  have hprefixed := @PrefixBlobStore.exec_prefixed σ (prefixStore backend start) key hkey
    (h.valid key hkey) s
  rw [PrefixBlobStore.existsBlob, exec_bind_ok hprefixed, exec_mapErr, hread]

theorem exec_prefix_getWithMetadata (h : PlainNames start headerSuffix) (hkey : ValidKey key)
    {answer : Except BlobStorageError (BlobMeta × Reader)}
    (hread : exec (backend.getWithMetadata (start ++ key)) s = (answer, s)) :
    exec ((prefixStore backend start).getWithMetadata key) s =
      ((answer.mapError (PrefixBlobStore.mapError key)).map
        (Prod.map (BlobMeta.stripped start) id), s) := by
  have hprefixed := @PrefixBlobStore.exec_prefixed σ (prefixStore backend start) key hkey
    (h.valid key hkey) s
  rw [PrefixBlobStore.getWithMetadata, exec_bind_ok hprefixed]
  have hmap : exec (PrefixBlobStore.mapErr (PrefixBlobStore.mapError key)
      (backend.getWithMetadata (start ++ key))) s =
        (answer.mapError (PrefixBlobStore.mapError key), s) := by
    rw [exec_mapErr, hread]
  exact exec_map_answer hmap (Prod.map (BlobMeta.stripped start) id)

/-- The key that a `NotFound` names is replaced at both levels. -/
theorem mirrors_hideNotFound {α β : Type} {x : Fallible (StateM σ) α} {y : Fallible (StateM σ) β}
    {asked : Key} {answer : Except BlobStorageError β} {g : β → α}
    (hx : exec x s = ((answer.mapError (PrefixBlobStore.mapError asked)).map g, s))
    (hy : exec y s = (answer, s)) (hs : Holds s) (shown other : Key) :
    Mirrors (PrefixBlobStore.mapError shown) Holds (fun a b => a = g b)
      (EncryptedBlobStore.hideNotFound shown x) (EncryptedBlobStore.hideNotFound other y) s := by
  have hx' := exec_hideNotFound shown x s
  have hy' := exec_hideNotFound other y s
  rw [hx] at hx'
  rw [hy] at hy'
  refine .of_exec hx' hy' ?_ hs
  cases answer with
  | ok b => exact .ok rfl
  | error e => cases e <;> exact .error rfl

variable (hbackend : MapBackend backend Holds keys entries)
variable (hprovider : HarmlessProvider Holds provider) (hnames : PlainNames start headerSuffix)

include hbackend hprovider hnames

theorem mirrors_decryptStream (hs : Holds s) (hkey : ValidKey key) (encData : Reader) :
    Mirrors (PrefixBlobStore.mapError key) Holds (fun a b => a.unworded = b.unworded)
      ((encryptedOverPrefix backend start provider headerSuffix).decryptStream key encData)
      ((encryptedStore backend provider headerSuffix).decryptStream (start ++ key) encData) s := by
  have hheader := hnames.header_valid hkey
  obtain ⟨answer, hread⟩ := hbackend.get hs (hnames.valid _ hheader)
  have hbelow := exec_prefix_get hnames hheader hread
  rw [← List.append_assoc] at hread
  have hfetch := mirrors_hideNotFound (g := id) (hbelow.trans (by cases answer <;> rfl)) hread hs
    key (start ++ key)
  refine hfetch.bind fun headerData headerData' t hsame ht => ?_
  obtain rfl : headerData = headerData' := hsame
  cases headerData.readToEnd with
  | error e => exact .throw rfl ht
  | ok header =>
      refine (Mirrors.perform (hprovider.decrypt t encData header ht)).bind ?_
      rintro run _ u rfl hu
      refine .pure ?_ hu
      cases run with
      | mk bytes outcome => cases outcome <;> rfl

omit hbackend hprovider

/-- The prefix layer on top rejects a key before anything else happens. -/
theorem mirrors_prefixed {α β : Type} {R : α → β → Prop} {x : Fallible (StateM σ) α}
    {next : Key → Fallible (StateM σ) β} {store : PrefixBlobStore (StateM σ)}
    (hrejected : ¬ValidKey key → ∃ e, e.IsInvalidInput ∧ exec x s = (.error e, s))
    (hvalid : ValidKey key → Mirrors id Holds R x (next (store.keyPrefix ++ key)) s)
    (hinitial : store.keyPrefix = start) (hs : Holds s) :
    Mirrors id Holds R x (store.prefixed key >>= next) s := by
  by_cases hkey : ValidKey key
  · have hprefixed := PrefixBlobStore.exec_prefixed hkey (hinitial ▸ hnames.valid key hkey) s
    have hnext := hvalid hkey
    refine ⟨?_, ?_, hnext.holds⟩
    · rw [exec_bind_ok hprefixed]
      exact hnext.result
    · rw [exec_bind_ok hprefixed]
      exact hnext.state
  · obtain ⟨e, he, hprefixed⟩ := @exec_prefixed_of_not_valid σ key store hkey s
    exact mirrors_of_rejected (fun _ _ => rfl) (hrejected hkey) ⟨e, he, exec_bind_error hprefixed⟩ hs

omit hnames

/-- What encryption rejects for a reason of its own is rejected before it asks below. -/
theorem exec_rejected {α : Type} {x : Fallible (StateM σ) α} (store : EncryptedBlobStore (StateM σ))
    (key : Key) (hx : ∃ e, e.IsInvalidInput ∧ exec x s = (.error e, s)) :
    ∃ e, e.IsInvalidInput ∧
      exec (do store.checkNoHeaderCollision key; x) s = (.error e, s) := by
  by_cases hsuffix : store.headerSuffix <:+ key
  · obtain ⟨e, he, hcheck⟩ := EncryptedBlobStore.exec_checkNoHeaderCollision_of_suffix hsuffix s
    exact ⟨e, he, exec_bind_error hcheck⟩
  · obtain ⟨e, he, hx⟩ := hx
    refine ⟨e, he, ?_⟩
    rw [exec_bind_ok (EncryptedBlobStore.exec_checkNoHeaderCollision hsuffix s)]
    exact hx

/-- What encryption fetches first is rejected by the prefix below, and the error is shown. -/
theorem exec_hidden_rejected {α β : Type} (hinvalid : ¬ValidKey key)
    (store : PrefixBlobStore (StateM σ)) (fetch : Key → Fallible (StateM σ) α)
    (next : α → Fallible (StateM σ) β) (s : σ) :
    ∃ e, e.IsInvalidInput ∧ exec (EncryptedBlobStore.hideNotFound key
      (store.prefixed key >>= fetch) >>= next) s = (.error e, s) := by
  obtain ⟨e, he, hprefixed⟩ := @exec_prefixed_of_not_valid σ key store hinvalid s
  refine ⟨e, he, exec_bind_error ?_⟩
  have hhide := exec_hideNotFound key (store.prefixed key >>= fetch) s
  rw [exec_bind_error hprefixed] at hhide
  rw [hhide]
  exact congrArg (fun e => (Except.error e, s)) (mapError_of_invalidInput key e he)

include hbackend hnames

theorem mirrors_below_existsBlob (hkey : ValidKey key) (shown : Key) (hs : Holds s) :
    Mirrors (PrefixBlobStore.mapError shown) Holds Eq
      ((prefixStore backend start).existsBlob key) (backend.existsBlob (start ++ key)) s := by
  obtain ⟨present, hread⟩ := hbackend.existsBlob hs (hnames.valid key hkey)
  exact .of_exec (exec_prefix_existsBlob hnames hkey hread) hread (.ok rfl) hs

include hprovider

theorem mirrors_get (hs : Holds s) (key : Key) :
    Mirrors id Holds (fun a b => a.unworded = b.unworded)
      ((encryptedOverPrefix backend start provider headerSuffix).get key)
      ((prefixOverEncrypted backend start provider headerSuffix).get key) s := by
  refine mirrors_prefixed hnames (fun hinvalid => ?_) (fun hkey => .mapErr ?_) rfl hs
  · exact exec_rejected _ key (exec_hidden_rejected hinvalid (prefixStore backend start) _ _ s)
  · refine (mirrors_checkNoHeaderCollision hnames key key hs).bind fun _ _ t _ ht => ?_
    obtain ⟨answer, hread⟩ := hbackend.get ht (hnames.valid key hkey)
    have hbelow := exec_prefix_get hnames hkey hread
    have hfetch := mirrors_hideNotFound (g := id) (hbelow.trans (by cases answer <;> rfl)) hread
      ht key (start ++ key)
    refine hfetch.bind fun encData encData' u hsame hu => ?_
    obtain rfl : encData = encData' := hsame
    exact mirrors_decryptStream hbackend hprovider hnames hu hkey encData

theorem mirrors_getWithMetadata (hs : Holds s) (key : Key) :
    Mirrors id Holds (fun a b => a.1 = b.1 ∧ a.2.unworded = b.2.unworded)
      ((encryptedOverPrefix backend start provider headerSuffix).getWithMetadata key)
      ((prefixOverEncrypted backend start provider headerSuffix).getWithMetadata key) s := by
  refine mirrors_prefixed hnames (fun hinvalid => ?_) (fun hkey => ?_) rfl hs
  · exact exec_rejected _ key (exec_hidden_rejected hinvalid (prefixStore backend start) _ _ s)
  · refine Mirrors.map_right (R := fun a b => a.1 = b.1.stripped start ∧
      a.2.unworded = b.2.unworded) (.mapErr ?_) fun h => h
    refine (mirrors_checkNoHeaderCollision hnames key key hs).bind fun _ _ t _ ht => ?_
    obtain ⟨answer, hread, _⟩ := hbackend.getWithMetadata ht (hnames.valid key hkey)
    have hfetch := mirrors_hideNotFound (exec_prefix_getWithMetadata hnames hkey hread) hread ht
      key (start ++ key)
    refine hfetch.bind ?_
    rintro _ ⟨info, encData⟩ u rfl hu
    refine (mirrors_decryptStream hbackend hprovider hnames hu hkey encData).bind ?_
    intro decrypted decrypted' v hsame hv
    refine .pure ⟨?_, hsame⟩ hv
    show BlobMeta.mk _ _ _ _ = BlobMeta.mk _ _ _ _
    simp [BlobMeta.stripped]

omit hprovider in
theorem mirrors_existsBlob (hs : Holds s) (key : Key) :
    Mirrors id Holds Eq
      ((encryptedOverPrefix backend start provider headerSuffix).existsBlob key)
      ((prefixOverEncrypted backend start provider headerSuffix).existsBlob key) s := by
  refine mirrors_prefixed hnames (fun hinvalid => ?_) (fun hkey => .mapErr ?_) rfl hs
  · refine exec_rejected _ key ?_
    obtain ⟨e, he, hprefixed⟩ := @exec_prefixed_of_not_valid σ key (prefixStore backend start)
      hinvalid s
    exact ⟨e, he, exec_bind_error (exec_bind_error hprefixed)⟩
  · refine (mirrors_checkNoHeaderCollision hnames key key hs).bind fun _ _ t _ ht => ?_
    refine (mirrors_below_existsBlob hbackend hnames hkey key ht).bind ?_
    rintro dataExists _ u rfl hu
    cases dataExists with
    | false => exact .pure rfl hu
    | true =>
        show Mirrors _ _ _ (PrefixBlobStore.existsBlob _ (key ++ headerSuffix))
          (backend.existsBlob (start ++ key ++ headerSuffix)) u
        rw [List.append_assoc]
        exact mirrors_below_existsBlob hbackend hnames (hnames.header_valid hkey) key hu

end Reads

section Writes

variable (hbackend : MapBackend backend Holds keys entries)
variable (hprovider : HarmlessProvider Holds provider) (hnames : PlainNames start headerSuffix)

/-- The blob under its prefixed key. -/
def BlobInput.under (start : Key) (blob : BlobInput) : BlobInput :=
  { blob with key := start ++ blob.key }

include hbackend hnames

theorem mirrors_below_put {blobs : List BlobInput} (hblobs : ∀ blob ∈ blobs, ValidKey blob.key)
    (hs : Holds s) :
    Mirrors id Holds (fun a b => a.blobs = b.blobs.map (BlobMeta.stripped start) ∧
        b.blobs.map BlobMeta.key = (blobs.map BlobInput.key).map (start ++ ·))
      ((prefixStore backend start).put blobs) (backend.put (blobs.map (BlobInput.under start))) s := by
  have hkeys : ∀ key ∈ blobs.map BlobInput.key, ValidKey key ∧ ValidKey (start ++ key) := by
    intro key hkey
    obtain ⟨blob, hblob, rfl⟩ := List.mem_map.mp hkey
    exact ⟨hblobs blob hblob, hnames.valid _ (hblobs blob hblob)⟩
  have hprefixed := PrefixBlobStore.exec_prefixedAll (prefixStore backend start) hkeys s
  have hvalid : ∀ blob ∈ blobs.map (BlobInput.under start), ValidKey blob.key := by
    intro blob hblob
    obtain ⟨input, hinput, rfl⟩ := List.mem_map.mp hblob
    exact hnames.valid _ (hblobs input hinput)
  have hbelow : exec ((prefixStore backend start).put blobs) s =
      exec (do
        let result ← backend.put (blobs.map (BlobInput.under start))
        pure (PutResult.mk (result.blobs.map (BlobMeta.stripped start)))) s := by
    rw [PrefixBlobStore.put, exec_bind_ok hprefixed, PrefixBlobStore.entriesOf_prefixed]
    rfl
  cases hput : exec (backend.put (blobs.map (BlobInput.under start))) s with
  | mk r t =>
      obtain ⟨ht, hstored⟩ := hbackend.put hput hs hvalid
      cases r with
      | ok result =>
          refine .of_exec (hbelow.trans (exec_bind_ok hput)) hput (.ok ⟨rfl, ?_⟩) ht
          rw [hstored result rfl, List.map_map, List.map_map]
          rfl
      | error e => exact .of_exec (hbelow.trans (exec_bind_error hput)) hput (.error rfl) ht

theorem exec_below_delete {batch : List Key} (hbatch : ∀ key ∈ batch, ValidKey key)
    (hs : Holds s) :
    ∃ t, exec ((prefixStore backend start).delete batch) s = (.ok (), t) ∧
      exec (backend.delete (batch.map (start ++ ·))) s = (.ok (), t) ∧ Holds t := by
  have hprefixed := PrefixBlobStore.exec_prefixedAll (prefixStore backend start)
    (fun key hkey => ⟨hbatch key hkey, hnames.valid _ (hbatch key hkey)⟩) s
  have hvalid : ∀ key ∈ batch.map (start ++ ·), ValidKey key := by
    intro key hkey
    obtain ⟨logical, hlogical, rfl⟩ := List.mem_map.mp hkey
    exact hnames.valid _ (hbatch logical hlogical)
  obtain ⟨t, hdelete, ht⟩ := hbackend.delete hs hvalid
  refine ⟨t, ?_, hdelete, ht⟩
  rw [PrefixBlobStore.delete, exec_bind_ok hprefixed, exec_mapErr, hdelete]
  rfl

omit hbackend hnames in
/-- The key only shows in the wording of an encryption that failed. -/
theorem encryptRun_result_cases (run : EncryptRun) (key other : Key) :
    (∃ header, run.result key = .ok header ∧ run.result other = .ok header) ∨
      ∃ e e', run.result key = .error e ∧ run.result other = .error e' ∧
        e.unworded = e'.unworded := by
  unfold EncryptRun.result
  cases run.outcome with
  | header bytes => exact .inl ⟨bytes, rfl, rfl⟩
  | failed e => exact .inr ⟨_, _, rfl, rfl, rfl⟩
  | panicked => exact .inr ⟨_, _, rfl, rfl, rfl⟩
  | timedOut => exact .inr ⟨_, _, rfl, rfl, rfl⟩

omit hbackend in
/-- Records of prefixed keys that are not headers are such records when they are stripped. -/
theorem filter_stripped {infos : List BlobMeta}
    (hinfos : ∀ info ∈ infos, ∃ key, info.key = start ++ key) :
    (infos.map (BlobMeta.stripped start)).filter (fun info => decide ¬headerSuffix <:+ info.key) =
      (infos.filter fun info => decide ¬headerSuffix <:+ info.key).map
        (BlobMeta.stripped start) := by
  rw [List.filter_map]
  congr 1
  refine List.filter_congr fun info hinfo => ?_
  obtain ⟨key, hkey⟩ := hinfos info hinfo
  have hstripped : (info.stripped start).key = key := by
    rw [BlobMeta.stripped, hkey, stripKeyPrefix_append]
    rfl
  rw [Function.comp_apply, hstripped, hkey, decide_eq_decide, hnames.suffix_iff]

/-- The rollback of a data object, whatever becomes of it, and then the error. -/
theorem mirrors_rollback {α β : Type} {R : α → β → Prop} {e e' : BlobStorageError}
    (hkey : ValidKey key) (he : e.unworded = e'.unworded) (hs : Holds s) :
    Mirrors id Holds R
      (do
        let _ ← attempt ((prefixStore backend start).delete [key])
        throw e)
      (do
        let _ ← attempt (backend.delete [start ++ key])
        throw e') s := by
  obtain ⟨t, habove, hbelow, ht⟩ :=
    exec_below_delete hbackend hnames (List.forall_mem_singleton.mpr hkey) hs
  have hdelete : Mirrors id Holds Eq ((prefixStore backend start).delete [key])
      (backend.delete [start ++ key]) s := .of_exec habove hbelow (.ok rfl) ht
  exact hdelete.attempt.bind fun _ _ _ _ ht => .throw he ht

include hprovider

theorem mirrors_putBlob {blob : BlobInput} (hkey : ValidKey blob.key) (hs : Holds s) :
    Mirrors id Holds (fun a b => a = b.map (BlobMeta.stripped start))
      ((encryptedOverPrefix backend start provider headerSuffix).putBlob blob)
      ((encryptedStore backend provider headerSuffix).putBlob (blob.under start)) s := by
  refine (Mirrors.perform (hprovider.encrypt s blob.data hs)).bind ?_
  rintro run _ t rfl ht
  have hdata := @mirrors_below_put σ backend Holds keys entries start headerSuffix t hbackend hnames
    [BlobInput.withSize blob.key run.reader (blob.sizeHint.getD 0)]
    (List.forall_mem_singleton.mpr hkey) ht
  refine hdata.bind ?_
  rintro result result' u ⟨hblobs, hstored⟩ hu
  obtain ⟨header, hresult, hresult'⟩ | ⟨e, e', hresult, hresult', he⟩ :=
    encryptRun_result_cases run blob.key (start ++ blob.key)
  · dsimp only [BlobInput.under]
    rw [hresult, hresult']
    have hheader := @mirrors_below_put σ backend Holds keys entries start headerSuffix u hbackend
      hnames [BlobInput.withSize (blob.key ++ headerSuffix) (Reader.ofBytes header) header.length]
      (List.forall_mem_singleton.mpr (hnames.header_valid hkey)) hu
    have hprefixed : [BlobInput.withSize (blob.key ++ headerSuffix) (Reader.ofBytes header)
        header.length].map (BlobInput.under start) =
        [BlobInput.withSize (start ++ blob.key ++ headerSuffix) (Reader.ofBytes header)
          header.length] := by
      rw [List.append_assoc]
      rfl
    rw [hprefixed] at hheader
    refine hheader.attempt.bind ?_
    intro stored stored' v hsame hv
    cases hsame with
    | ok hsame =>
        refine .pure ?_ hv
        rw [hblobs]
        exact filter_stripped hnames fun info hinfo => by
          have hmem := List.mem_map_of_mem (f := BlobMeta.key) hinfo
          rw [hstored] at hmem
          exact ⟨_, List.mem_singleton.mp hmem⟩
    | error he => exact mirrors_rollback hbackend hnames hkey he hv
  · dsimp only [BlobInput.under]
    rw [hresult, hresult']
    exact mirrors_rollback hbackend hnames hkey he hu

theorem mirrors_putBlobs {blobs : List BlobInput} (hblobs : ∀ blob ∈ blobs, ValidKey blob.key)
    (hs : Holds s) :
    Mirrors id Holds (fun a b => a = b.map (BlobMeta.stripped start))
      ((encryptedOverPrefix backend start provider headerSuffix).putBlobs blobs)
      ((encryptedStore backend provider headerSuffix).putBlobs
        (blobs.map (BlobInput.under start))) s := by
  induction blobs generalizing s with
  | nil => exact .pure rfl hs
  | cons blob rest ih =>
      rw [List.forall_mem_cons] at hblobs
      refine (mirrors_putBlob hbackend hprovider hnames hblobs.1 hs).bind ?_
      rintro infos infos' t rfl ht
      refine (ih hblobs.2 ht).bind ?_
      rintro others others' u rfl hu
      exact .pure (List.map_append).symm hu

omit hbackend hprovider hnames in
/-- One key that is not accepted ends the batch before anything is written. -/
theorem exec_checkPutKeys_of_not_accepted (store : EncryptedBlobStore (StateM σ))
    {batch : List Key} (h : ¬∀ key ∈ batch, ValidKey key ∧ ¬store.headerSuffix <:+ key ∧
      ValidKey (store.headerKey key)) (s : σ) :
    ∃ e, e.IsInvalidInput ∧ exec (store.checkPutKeys batch) s = (.error e, s) := by
  induction batch with
  | nil => simp at h
  | cons key rest ih =>
      rw [EncryptedBlobStore.checkPutKeys]
      by_cases hkey : ValidKey key
      · rw [exec_bind_ok (exec_checkKey_of_valid s hkey)]
        by_cases hsuffix : store.headerSuffix <:+ key
        · obtain ⟨e, he, hcheck⟩ :=
            EncryptedBlobStore.exec_checkNoHeaderCollision_of_suffix hsuffix s
          exact ⟨e, he, exec_bind_error hcheck⟩
        · rw [exec_bind_ok (EncryptedBlobStore.exec_checkNoHeaderCollision hsuffix s)]
          by_cases hheader : ValidKey (store.headerKey key)
          · rw [exec_bind_ok (exec_checkKey_of_valid s hheader)]
            apply ih
            intro hrest
            exact h (List.forall_mem_cons.mpr ⟨⟨hkey, hsuffix, hheader⟩, hrest⟩)
          · obtain ⟨e, he, hcheck⟩ := exec_checkKey_of_not_valid s hheader
            exact ⟨e, he, exec_bind_error hcheck⟩
      · obtain ⟨e, he, hcheck⟩ := exec_checkKey_of_not_valid s hkey
        exact ⟨e, he, exec_bind_error hcheck⟩

theorem mirrors_put (hs : Holds s) (blobs : List BlobInput) :
    Mirrors id Holds Eq
      ((encryptedOverPrefix backend start provider headerSuffix).put blobs)
      ((prefixOverEncrypted backend start provider headerSuffix).put blobs) s := by
  by_cases haccepted : ∀ key ∈ blobs.map BlobInput.key, ValidKey key ∧ ¬headerSuffix <:+ key
  · have hvalid : ∀ blob ∈ blobs, ValidKey blob.key := fun blob hblob =>
      (haccepted _ (List.mem_map_of_mem hblob)).1
    have habove := @EncryptedBlobStore.exec_checkPutKeys σ
      (encryptedOverPrefix backend start provider headerSuffix) _
      (fun key hkey => ⟨(haccepted key hkey).1, (haccepted key hkey).2,
        hnames.header_valid (haccepted key hkey).1⟩) s
    have hprefixed := PrefixBlobStore.exec_prefixedAll
      (prefixOverEncrypted backend start provider headerSuffix)
      (fun key hkey => ⟨(haccepted key hkey).1, hnames.valid key (haccepted key hkey).1⟩) s
    have hbelow : exec ((encryptedStore backend provider headerSuffix).checkPutKeys
        ((blobs.map (BlobInput.under start)).map BlobInput.key)) s = (.ok (), s) := by
      apply EncryptedBlobStore.exec_checkPutKeys
      intro key hkey
      rw [List.map_map] at hkey
      obtain ⟨blob, hblob, rfl⟩ := List.mem_map.mp hkey
      obtain ⟨hkey, hsuffix⟩ := haccepted _ (List.mem_map_of_mem hblob)
      have hphysical := hnames.valid _ hkey
      exact ⟨hphysical, fun h => hsuffix (hnames.suffix_iff.mp h), hnames.header_valid hphysical⟩
    have hstored : Mirrors id Holds (fun a b => a.blobs = b.blobs.map (BlobMeta.stripped start))
        ((encryptedOverPrefix backend start provider headerSuffix).put blobs)
        ((encryptedStore backend provider headerSuffix).put (blobs.map (BlobInput.under start)))
        s := by
      refine .congr (exec_bind_ok habove) (exec_bind_ok hbelow) ?_
      refine (mirrors_putBlobs hbackend hprovider hnames hvalid hs).bind ?_
      exact fun infos infos' t hinfos ht => .pure hinfos ht
    refine .congr rfl (exec_bind_ok hprefixed) ?_
    rw [PrefixBlobStore.entriesOf_prefixed]
    refine hstored.map_right fun h => ?_
    exact congrArg PutResult.mk h
  · have habove := exec_checkPutKeys_of_not_accepted
      (encryptedOverPrefix backend start provider headerSuffix)
      (fun h => haccepted fun key hkey => ⟨(h key hkey).1, (h key hkey).2.1⟩) s
    refine mirrors_of_rejected (fun _ _ => rfl) ?_ ?_ hs
    · obtain ⟨e, he, hcheck⟩ := habove
      exact ⟨e, he, exec_bind_error hcheck⟩
    · by_cases hvalid : ∀ key ∈ blobs.map BlobInput.key, ValidKey key
      · have hprefixed := PrefixBlobStore.exec_prefixedAll
          (prefixOverEncrypted backend start provider headerSuffix)
          (fun key hkey => ⟨hvalid key hkey, hnames.valid key (hvalid key hkey)⟩) s
        have hnot : ¬∀ key ∈ (blobs.map (BlobInput.under start)).map BlobInput.key,
            ValidKey key ∧ ¬headerSuffix <:+ key ∧ ValidKey (key ++ headerSuffix) := by
          intro h
          refine haccepted fun key hkey => ⟨hvalid key hkey, fun hsuffix => ?_⟩
          obtain ⟨blob, hblob, rfl⟩ := List.mem_map.mp hkey
          have hmem := List.mem_map_of_mem (f := BlobInput.key)
            (List.mem_map_of_mem (f := BlobInput.under start) hblob)
          exact (h _ hmem).2.1 (hnames.suffix_iff.mpr hsuffix)
        obtain ⟨e, he, hcheck⟩ := exec_checkPutKeys_of_not_accepted
          (encryptedStore backend provider headerSuffix) hnot s
        refine ⟨e, he, (exec_bind_ok hprefixed).trans ?_⟩
        rw [PrefixBlobStore.entriesOf_prefixed]
        exact exec_bind_error (exec_bind_error hcheck)
      · obtain ⟨e, he, hprefixed⟩ := @exec_prefixedAll_of_not_valid σ
          (prefixOverEncrypted backend start provider headerSuffix) _ hvalid s
        exact ⟨e, he, exec_bind_error hprefixed⟩

omit hbackend hprovider hnames

theorem exec_encrypted_delete_ok {store : EncryptedBlobStore (StateM σ)} {batch : List Key} {t : σ}
    (hcheck : exec (store.checkDeleteKeys batch) s = (.ok (), s))
    (hinner : exec (store.inner.delete (batch.flatMap fun key => [key, store.headerKey key])) s =
      (.ok (), t)) : exec (store.delete batch) s = (.ok (), t) := by
  rw [EncryptedBlobStore.delete, exec_bind_ok hcheck, exec_bind_ok (exec_attempt s _), hinner]
  rfl

theorem exec_encrypted_delete_invalid {store : EncryptedBlobStore (StateM σ)} {batch : List Key}
    {t : σ} {e : BlobStorageError} (hcheck : exec (store.checkDeleteKeys batch) s = (.ok (), s))
    (hinner : exec (store.inner.delete (batch.flatMap fun key => [key, store.headerKey key])) s =
      (.error e, t)) (he : e.IsInvalidInput) : exec (store.delete batch) s = (.error e, t) := by
  rw [EncryptedBlobStore.delete, exec_bind_ok hcheck, exec_bind_ok (exec_attempt s _), hinner]
  cases e <;> first | rfl | exact absurd he not_false

include hbackend hnames

theorem mirrors_delete (hs : Holds s) (batch : List Key) :
    Mirrors id Holds Eq
      ((encryptedOverPrefix backend start provider headerSuffix).delete batch)
      ((prefixOverEncrypted backend start provider headerSuffix).delete batch) s := by
  by_cases haccepted : ∀ key ∈ batch, ValidKey key ∧ ¬headerSuffix <:+ key
  · have habove := @EncryptedBlobStore.exec_checkDeleteKeys σ
      (encryptedOverPrefix backend start provider headerSuffix) batch
      (fun key hkey => (haccepted key hkey).2) s
    have hprefixed := PrefixBlobStore.exec_prefixedAll
      (prefixOverEncrypted backend start provider headerSuffix)
      (fun key hkey => ⟨(haccepted key hkey).1, hnames.valid key (haccepted key hkey).1⟩) s
    have hbelow := @EncryptedBlobStore.exec_checkDeleteKeys σ
      (encryptedStore backend provider headerSuffix) (batch.map (start ++ ·)) (by
        intro key hkey
        obtain ⟨logical, hlogical, rfl⟩ := List.mem_map.mp hkey
        exact fun h => (haccepted logical hlogical).2 (hnames.suffix_iff.mp h)) s
    have hobjects : ∀ key ∈ batch.flatMap fun key => [key, key ++ headerSuffix], ValidKey key := by
      intro key hkey
      obtain ⟨logical, hlogical, hmem⟩ := List.mem_flatMap.mp hkey
      obtain rfl | hmem := List.mem_cons.mp hmem
      · exact (haccepted key hlogical).1
      · obtain rfl := List.mem_singleton.mp hmem
        exact hnames.header_valid (haccepted logical hlogical).1
    obtain ⟨t, hdelete, hdelete', ht⟩ := exec_below_delete hbackend hnames hobjects hs
    have hsame : (batch.flatMap fun key => [key, key ++ headerSuffix]).map (start ++ ·) =
        (batch.map (start ++ ·)).flatMap fun key => [key, key ++ headerSuffix] := by
      rw [List.map_flatMap, List.flatMap_map]
      exact List.flatMap_congr fun key _ => by simp
    rw [hsame] at hdelete'
    refine .of_exec (exec_encrypted_delete_ok habove hdelete) ?_ (.ok rfl) ht
    refine (exec_bind_ok hprefixed).trans ?_
    rw [exec_mapErr]
    have hencrypted := exec_encrypted_delete_ok hbelow hdelete'
    exact congrArg (fun r => (Except.mapError _ r.1, r.2)) hencrypted
  · refine mirrors_of_rejected (fun _ _ => rfl) ?_ ?_ hs
    · obtain ⟨hsuffix, hcheck⟩ | ⟨e, he, hcheck⟩ := exec_checkDeleteKeys_cases
        (encryptedOverPrefix backend start provider headerSuffix) batch s
      · have hnot : ¬∀ key ∈ batch.flatMap fun key => [key, key ++ headerSuffix],
            ValidKey key := by
          intro h
          refine haccepted fun key hkey => ⟨h key ?_, hsuffix key hkey⟩
          exact List.mem_flatMap.mpr ⟨key, hkey, List.mem_cons_self⟩
        obtain ⟨e, he, hprefixed⟩ := @exec_prefixedAll_of_not_valid σ
          (prefixStore backend start) _ hnot s
        exact ⟨e, he, exec_encrypted_delete_invalid hcheck (exec_bind_error hprefixed) he⟩
      · exact ⟨e, he, exec_bind_error hcheck⟩
    · by_cases hvalid : ∀ key ∈ batch, ValidKey key
      · have hprefixed := PrefixBlobStore.exec_prefixedAll
          (prefixOverEncrypted backend start provider headerSuffix)
          (fun key hkey => ⟨hvalid key hkey, hnames.valid key (hvalid key hkey)⟩) s
        obtain ⟨hsuffix, _⟩ | ⟨e, he, hcheck⟩ := exec_checkDeleteKeys_cases
          (encryptedStore backend provider headerSuffix) (batch.map (start ++ ·)) s
        · refine absurd (fun key hkey => ⟨hvalid key hkey, fun h => ?_⟩) haccepted
          exact hsuffix _ (List.mem_map_of_mem hkey) (hnames.suffix_iff.mpr h)
        · refine ⟨e, he, (exec_bind_ok hprefixed).trans ?_⟩
          rw [exec_mapErr]
          have hencrypted : exec ((encryptedStore backend provider headerSuffix).delete
              (batch.map (start ++ ·))) s = (.error e, s) := exec_bind_error hcheck
          refine (congrArg (fun r => (Except.mapError _ r.1, r.2)) hencrypted).trans ?_
          cases e <;> first | rfl | exact absurd he not_false
      · obtain ⟨e, he, hprefixed⟩ := @exec_prefixedAll_of_not_valid σ
          (prefixOverEncrypted backend start provider headerSuffix) _ hvalid s
        exact ⟨e, he, exec_bind_error hprefixed⟩

end Writes

end Commuting

end BlobStorage
