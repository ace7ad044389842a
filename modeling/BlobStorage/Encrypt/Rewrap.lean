import BlobStorage.Backend.Map
import BlobStorage.Browsing.Shown
import BlobStorage.Encrypt.Shift
import BlobStorage.Refinement.Encrypt
import BlobStorage.Walks

/-!
# A rekey that runs alone

Whatever reads, re-wrappings and writes fail, a rekey replaces headers and nothing else: a header
by one that opens what it opened. After a run in which nothing failed every header is current,
and another run finds nothing to do.
-/

namespace BlobStorage

open Fallible Walking

variable {σ : Type}

/-- What a rekey relies on in the inner store, whose objects are `objects`. Any request may fail;
a write that fails leaves the old object. -/
structure RewritesObjects (store : BlobStore (StateM σ)) (objects : σ → Key → Option Bytes) :
    Prop where
  get : ∀ {s key r t}, exec (store.get key) s = (r, t) → objects t = objects s ∧
    ∀ reader content, r = .ok reader → reader.readToEnd = .ok content →
      objects s key = some content
  put : ∀ {s key content size r t},
    exec (store.put [BlobInput.withSize key (Reader.ofBytes content) size]) s = (r, t) →
      objects s key ≠ none →
        (∀ result, r = .ok result → objects t = Function.update (objects s) key (some content)) ∧
          ∀ e, r = .error e → objects t = objects s

/-- What a rekey relies on in the provider. `Current` are the headers that need no re-wrapping:
`rekey_header` returns `None` for them alone and `Some` for none of them, and what it returns is
one of them and opens what the old header opened. -/
structure RewrapsHeaders (provider : EncryptionProvider (StateM σ))
    (objects : σ → Key → Option Bytes) (Current : Bytes → Prop) : Prop where
  quiet : ∀ s header, objects (provider.rekeyHeader header s).2 = objects s
  none : ∀ {s header}, (provider.rekeyHeader header s).1 = .ok none → Current header
  some : ∀ {s header newHeader}, (provider.rekeyHeader header s).1 = .ok (some newHeader) →
    ¬Current header ∧ Current newHeader ∧ ∀ ciphertext plaintext,
      provider.Decrypts ciphertext header plaintext →
        provider.Decrypts ciphertext newHeader plaintext

namespace EncryptedBlobStore

variable {self : EncryptedBlobStore (StateM σ)} {objects : σ → Key → Option Bytes}
variable {Current : Bytes → Prop} {key : Key} {info : Option BlobMeta} {count : Nat} {s : σ}

/-- A new header for an old one. -/
structure Rewrapped (provider : EncryptionProvider (StateM σ)) (Current : Bytes → Prop)
    (header newHeader : Bytes) : Prop where
  outdated : ¬Current header
  current : Current newHeader
  opens : ∀ ciphertext plaintext, provider.Decrypts ciphertext header plaintext →
    provider.Decrypts ciphertext newHeader plaintext

/-- The header is fetched, re-wrapped if it has to be, and written back. -/
def Untroubled (self : EncryptedBlobStore (StateM σ)) (key : Key) (s : σ) : Prop :=
  ∃ reader t header, exec (self.inner.get key) s = (.ok reader, t) ∧
    reader.readToEnd = .ok header ∧
    ((self.encryption.rekeyHeader header t).1 = .ok none ∨
      ∃ newHeader, (self.encryption.rekeyHeader header t).1 = .ok (some newHeader) ∧
        ∃ result, (exec (self.inner.put [BlobInput.withSize key (Reader.ofBytes newHeader)
          header.length]) (self.encryption.rekeyHeader header t).2).1 = .ok result)

/-- What one call of the visitor does: nothing to the objects, or the replacement of a header. -/
inductive RekeyEffect (self : EncryptedBlobStore (StateM σ)) (objects : σ → Key → Option Bytes)
    (Current : Bytes → Prop) (key : Key) (count : Nat) (s : σ) :
    Verdict BlobStorageError → Nat → σ → Prop where
  | kept {verdict : Verdict BlobStorageError} {t : σ} (same : objects t = objects s)
      (current : self.Untroubled key s → ∃ header, objects s key = some header ∧ Current header)
      (goes : verdict = .goOn ∨ ∃ e, verdict = .fail e ∧ ¬self.Untroubled key s) :
      RekeyEffect self objects Current key count s verdict count t
  | replaced {t : σ} (header newHeader : Bytes) (there : objects s key = some header)
      (rewrapped : Rewrapped self.encryption Current header newHeader)
      (written : objects t = Function.update (objects s) key (some newHeader)) :
      RekeyEffect self objects Current key count s .goOn (count + 1) t

/-- The requests of a call in which nothing fails. -/
theorem Untroubled.requests (h : self.Untroubled key s) {r : Except BlobStorageError Reader} {u : σ}
    (hget : exec (self.inner.get key) s = (r, u)) :
    ∃ reader header, r = .ok reader ∧ reader.readToEnd = .ok header ∧
      ((self.encryption.rekeyHeader header u).1 = .ok none ∨
        ∃ newHeader, (self.encryption.rekeyHeader header u).1 = .ok (some newHeader) ∧
          ∃ result, (exec (self.inner.put [BlobInput.withSize key (Reader.ofBytes newHeader)
            header.length]) (self.encryption.rekeyHeader header u).2).1 = .ok result) := by
  obtain ⟨reader, t, header, hok, hread, hrekey⟩ := h
  rw [hget] at hok
  cases hok
  exact ⟨reader, header, rfl, hread, hrekey⟩

theorem rekeyVisitor_effect (hstore : RewritesObjects self.inner objects)
    (hprovider : RewrapsHeaders self.encryption objects Current)
    {verdict : Verdict BlobStorageError} {k : Nat} {t : σ}
    (hcall : self.rekeyVisitor.Calls (key, info) count s verdict k t) :
    RekeyEffect self objects Current key count s verdict k t := by
  unfold BlobVisitor.Calls rekeyVisitor at hcall
  rw [execLocal_bind, execLocal_withLocal, exec_attempt] at hcall
  obtain ⟨r, u, hfetched⟩ : ∃ r u, exec (self.inner.get key) s = (r, u) := ⟨_, _, rfl⟩
  obtain ⟨hquiet, hcontent⟩ := hstore.get hfetched
  have huntroubled := fun h : self.Untroubled key s => h.requests hfetched
  rw [hfetched] at hcall
  cases r with
  | error e =>
      have htroubled : ¬self.Untroubled key s := by
        intro h
        obtain ⟨_, _, hok, _⟩ := huntroubled h
        cases hok
      cases verdict <;> cases hcall
      exact .kept hquiet (fun h => absurd h htroubled) (.inl rfl)
  | ok reader =>
  dsimp only at hcall
  cases hread : reader.readToEnd with
  | error failure =>
      have htroubled : ¬self.Untroubled key s := by
        intro h
        obtain ⟨_, _, hok, hheader, _⟩ := huntroubled h
        cases hok
        rw [hread] at hheader
        cases hheader
      rw [hread] at hcall
      cases verdict <;> cases hcall
      exact .kept hquiet (fun h => absurd h htroubled) (.inr ⟨_, rfl, htroubled⟩)
  | ok header =>
  rw [hread] at hcall
  dsimp only at hcall
  rw [execLocal_bind, execLocal_performLocal] at hcall
  have hthere : objects s key = some header := hcontent reader header rfl hread
  have hsame : objects (self.encryption.rekeyHeader header u).2 = objects s :=
    (hprovider.quiet u header).trans hquiet
  have hrewrapping : self.Untroubled key s →
      (self.encryption.rekeyHeader header u).1 = .ok none ∨
        ∃ newHeader, (self.encryption.rekeyHeader header u).1 = .ok (some newHeader) ∧
          ∃ result, (exec (self.inner.put [BlobInput.withSize key (Reader.ofBytes newHeader)
            header.length]) (self.encryption.rekeyHeader header u).2).1 = .ok result := by
    intro h
    obtain ⟨_, _, hok, hheader, hrequests⟩ := huntroubled h
    cases hok
    rw [hread] at hheader
    cases hheader
    exact hrequests
  cases hrekey : (self.encryption.rekeyHeader header u).1 with
  | error e =>
      have htroubled : ¬self.Untroubled key s := by
        intro h
        obtain hnone | ⟨_, hsome, _⟩ := hrewrapping h
        · rw [hrekey] at hnone
          cases hnone
        · rw [hrekey] at hsome
          cases hsome
      rw [hrekey] at hcall
      cases verdict <;> cases hcall
      exact .kept hsame (fun h => absurd h htroubled) (.inl rfl)
  | ok rewrapped =>
  rw [hrekey] at hcall
  cases rewrapped with
  | none =>
      cases verdict <;> cases hcall
      exact .kept hsame (fun _ => ⟨header, hthere, hprovider.none hrekey⟩) (.inl rfl)
  | some newHeader =>
  dsimp only at hcall
  rw [execLocal_bind, execLocal_withLocal, exec_attempt] at hcall
  have hpresent : objects (self.encryption.rekeyHeader header u).2 key ≠ none := by
    rw [hsame, hthere]
    exact Option.some_ne_none _
  obtain ⟨written, v, hput⟩ : ∃ written v, exec (self.inner.put [BlobInput.withSize key
      (Reader.ofBytes newHeader) header.length]) (self.encryption.rekeyHeader header u).2 =
        (written, v) := ⟨_, _, rfl⟩
  obtain ⟨hwritten, hfailed⟩ := hstore.put hput hpresent
  rw [hput] at hcall
  cases written with
  | error e =>
      have htroubled : ¬self.Untroubled key s := by
        intro h
        obtain hnone | ⟨newHeader', hsome, result, hok⟩ := hrewrapping h
        · rw [hrekey] at hnone
          cases hnone
        · rw [hrekey] at hsome
          cases hsome
          rw [hput] at hok
          cases hok
      cases verdict <;> cases hcall
      exact .kept ((hfailed e rfl).trans hsame) (fun h => absurd h htroubled) (.inl rfl)
  | ok result =>
      cases verdict <;> cases hcall
      obtain ⟨houtdated, hcurrent, hopens⟩ := hprovider.some hrekey
      refine .replaced header newHeader hthere ⟨houtdated, hcurrent, hopens⟩ ?_
      rw [hwritten result rfl, hsame]

/-- `replaced` are the objects that have been replaced since `start`: headers, each by one for the
same ciphertexts. -/
structure Rekeyed (layer : EncryptedBlobStore (StateM σ)) (objects : σ → Key → Option Bytes)
    (Current : Bytes → Prop) (start : σ) (replaced : List Key) (s : σ) : Prop where
  once : replaced.Nodup
  suffix : ∀ key ∈ replaced, layer.headerSuffix <:+ key
  headers : ∀ key ∈ replaced, ∃ header newHeader, objects start key = some header ∧
    objects s key = some newHeader ∧ Rewrapped layer.encryption Current header newHeader
  rest : ∀ key, key ∉ replaced → objects s key = objects start key

section Run

variable {start t : σ} {replaced : List Key}

theorem Rekeyed.nil : Rekeyed self objects Current start [] start where
  once := List.nodup_nil
  suffix := by simp
  headers := by simp
  rest _ _ := rfl

theorem Rekeyed.quiet (h : Rekeyed self objects Current start replaced s)
    (hquiet : objects t = objects s) : Rekeyed self objects Current start replaced t where
  once := h.once
  suffix := h.suffix
  headers key hkey := by
    rw [hquiet]
    exact h.headers key hkey
  rest key hkey := by rw [hquiet, h.rest key hkey]

/-- A header that is replaced is outdated, so it has not been replaced before. -/
theorem Rekeyed.replace (h : Rekeyed self objects Current start replaced s)
    (hsuffix : self.headerSuffix <:+ key) {header newHeader : Bytes}
    (hthere : objects s key = some header)
    (hrewrapped : Rewrapped self.encryption Current header newHeader)
    (hwritten : objects t = Function.update (objects s) key (some newHeader)) :
    Rekeyed self objects Current start (key :: replaced) t := by
  have hnew : key ∉ replaced := by
    intro hmem
    obtain ⟨_, earlier, _, hearlier, hcurrent⟩ := h.headers key hmem
    rw [hthere] at hearlier
    cases hearlier
    exact hrewrapped.outdated hcurrent.current
  refine ⟨List.nodup_cons.mpr ⟨hnew, h.once⟩, ?_, ?_, ?_⟩
  · exact List.forall_mem_cons.mpr ⟨hsuffix, h.suffix⟩
  · refine List.forall_mem_cons.mpr ⟨⟨header, newHeader, ?_, ?_, hrewrapped⟩, ?_⟩
    · rw [← h.rest key hnew, hthere]
    · rw [hwritten, Function.update_self]
    · intro other hother
      have hne : other ≠ key := fun hsame => hnew (hsame ▸ hother)
      rw [hwritten, Function.update_of_ne hne]
      exact h.headers other hother
  · intro other hother
    rw [List.mem_cons, not_or] at hother
    rw [hwritten, Function.update_of_ne hother.1, h.rest other hother.2]

theorem Rekeyed.effect (h : Rekeyed self objects Current start replaced s)
    (hcount : count = replaced.length) (hsuffix : self.headerSuffix <:+ key)
    {verdict : Verdict BlobStorageError} {k : Nat}
    (heffect : RekeyEffect self objects Current key count s verdict k t) :
    ∃ replaced, Rekeyed self objects Current start replaced t ∧ k = replaced.length := by
  cases heffect with
  | kept same => exact ⟨replaced, h.quiet same, hcount⟩
  | replaced header newHeader there rewrapped written =>
      refine ⟨key :: replaced, h.replace hsuffix there rewrapped written, ?_⟩
      rw [hcount, List.length_cons]

/-- A walk over headers leaves headers replaced, as many as it has counted. -/
theorem walk_rekeyed (hstore : RewritesObjects self.inner objects)
    (hprovider : RewrapsHeaders self.encryption objects Current)
    {entries left : List (Key × Option BlobMeta)} {ending : Ending BlobStorageError} {k : Nat}
    (hsuffix : ∀ entry ∈ entries, self.headerSuffix <:+ entry.1)
    (hwalk : Walk (fun s t => objects t = objects s) self.rekeyVisitor.Calls entries 0 start
      ending left k t) :
    ∃ replaced, Rekeyed self objects Current start replaced t ∧ k = replaced.length := by
  refine hwalk.keeps (fun count s => ∃ replaced,
    Rekeyed self objects Current start replaced s ∧ count = replaced.length) ?_ ?_ ⟨[], .nil, rfl⟩
  · rintro count s t ⟨replaced, hrekeyed, hcount⟩ hquiet
    exact ⟨replaced, hrekeyed.quiet hquiet, hcount⟩
  · rintro entry count s verdict k t hentry ⟨replaced, hrekeyed, hcount⟩ hcalls
    exact hrekeyed.effect hcount (hsuffix entry hentry)
      (rekeyVisitor_effect hstore hprovider hcalls)

/-- The headers that are there are current, those of the keys `ahead` perhaps not yet. -/
def UpToDate (self : EncryptedBlobStore (StateM σ)) (objects : σ → Key → Option Bytes)
    (Current : Bytes → Prop) (ahead : List (Key × Option BlobMeta)) (s : σ) : Prop :=
  ∀ key header, self.headerSuffix <:+ key → objects s key = some header →
    Current header ∨ ∃ entry ∈ ahead, entry.1 = key

theorem UpToDate.effect {rest : List (Key × Option BlobMeta)}
    (h : UpToDate self objects Current ((key, info) :: rest) s) (huntroubled : self.Untroubled key s)
    {verdict : Verdict BlobStorageError} {k : Nat}
    (heffect : RekeyEffect self objects Current key count s verdict k t) :
    UpToDate self objects Current rest t := by
  have hothers : ∀ other header, other ≠ key → self.headerSuffix <:+ other →
      objects s other = some header → Current header ∨ ∃ entry ∈ rest, entry.1 = other := by
    intro other header hne hsuffix hthere
    obtain hcurrent | ⟨entry, hentry, hahead⟩ := h other header hsuffix hthere
    · exact .inl hcurrent
    · obtain rfl | hrest := List.mem_cons.mp hentry
      · exact absurd hahead.symm hne
      · exact .inr ⟨entry, hrest, hahead⟩
  intro other header hsuffix hthere
  by_cases hsame : other = key
  · subst hsame
    left
    cases heffect with
    | kept same current =>
        obtain ⟨found, hfound, hcurrent⟩ := current huntroubled
        rw [same, hfound] at hthere
        cases hthere
        exact hcurrent
    | replaced _ newHeader _ rewrapped written =>
        rw [written, Function.update_self] at hthere
        cases hthere
        exact rewrapped.current
  · cases heffect with
    | kept same =>
        rw [same] at hthere
        exact hothers other header hsame hsuffix hthere
    | replaced _ _ _ _ written =>
        rw [written, Function.update_of_ne hsame] at hthere
        exact hothers other header hsame hsuffix hthere

/-- A call of the visitor in which nothing fails. -/
def UntroubledCalls (self : EncryptedBlobStore (StateM σ)) (entry : Key × Option BlobMeta)
    (count : Nat) (s : σ) (verdict : Verdict BlobStorageError) (k : Nat) (t : σ) : Prop :=
  self.rekeyVisitor.Calls entry count s verdict k t ∧ self.Untroubled entry.1 s

/-- A walk that comes to its end without a failure leaves every header current. -/
theorem walk_upToDate (hstore : RewritesObjects self.inner objects)
    (hprovider : RewrapsHeaders self.encryption objects Current)
    {entries left : List (Key × Option BlobMeta)} {k : Nat}
    (hall : ∀ key, self.headerSuffix <:+ key → objects start key ≠ none →
      ∃ entry ∈ entries, entry.1 = key)
    (hwalk : Walk (fun s t => objects t = objects s) self.UntroubledCalls entries 0 start
      .complete left k t) : UpToDate self objects Current [] t := by
  refine hwalk.rule (fun entries _ s => UpToDate self objects Current entries s)
    (fun ending _ _ t => ending = .complete → UpToDate self objects Current [] t)
    ?_ ?_ ?_ ?_ ?_ ?_ ?_ rfl
  · intro entries count s t hinv hquiet key header
    rw [hquiet]
    exact hinv key header
  · exact fun hinv _ => hinv
  · intro _ _ _ _ _ hcomplete
    cases hcomplete
  · intro entry rest count s k t hinv hcalls
    exact hinv.effect hcalls.2 (rekeyVisitor_effect hstore hprovider hcalls.1)
  · intro _ _ _ _ _ _ _ _ hcomplete
    cases hcomplete
  · intro _ _ _ _ _ _ _ _ _ hcomplete
    cases hcomplete
  · intro key header hsuffix hthere
    right
    apply hall key hsuffix
    rw [hthere]
    exact Option.some_ne_none _

/-- Where every header is current a walk replaces none. -/
theorem walk_idle (hstore : RewritesObjects self.inner objects)
    (hprovider : RewrapsHeaders self.encryption objects Current)
    {entries left : List (Key × Option BlobMeta)} {ending : Ending BlobStorageError} {k : Nat}
    (hsuffix : ∀ entry ∈ entries, self.headerSuffix <:+ entry.1)
    (hcurrent : UpToDate self objects Current [] start)
    (hwalk : Walk (fun s t => objects t = objects s) self.rekeyVisitor.Calls entries 0 start
      ending left k t) : objects t = objects start ∧ k = 0 := by
  refine hwalk.keeps (fun count s => objects s = objects start ∧ count = 0) ?_ ?_ ⟨rfl, rfl⟩
  · rintro count s t ⟨hsame, hzero⟩ hquiet
    exact ⟨hquiet.trans hsame, hzero⟩
  · rintro entry count s verdict k t hentry ⟨hsame, hzero⟩ hcalls
    cases rekeyVisitor_effect hstore hprovider hcalls with
    | kept same => exact ⟨same.trans hsame, hzero⟩
    | replaced header _ there rewrapped =>
        rw [hsame] at there
        obtain hnow | ⟨_, hnil, _⟩ := hcurrent entry.1 header (hsuffix entry hentry) there
        · exact absurd hnow rewrapped.outdated
        · cases hnil

/-- The blob under `key` is visible and decrypts to `plaintext`. -/
def OpensTo (self : EncryptedBlobStore (StateM σ)) (objects : σ → Key → Option Bytes) (s : σ)
    (key : Key) (plaintext : Bytes) : Prop :=
  ¬self.headerSuffix <:+ key ∧ ∃ ciphertext header, objects s key = some ciphertext ∧
    objects s (self.headerKey key) = some header ∧
    self.encryption.Decrypts ciphertext header plaintext

theorem Rekeyed.opensTo (h : Rekeyed self objects Current start replaced s) {plaintext : Bytes}
    (hopens : self.OpensTo objects start key plaintext) : self.OpensTo objects s key plaintext := by
  obtain ⟨hdata, ciphertext, header, hciphertext, hheader, hdecrypts⟩ := hopens
  have hkept : objects s key = some ciphertext := by
    rw [h.rest key fun hmem => hdata (h.suffix key hmem), hciphertext]
  by_cases hreplaced : self.headerKey key ∈ replaced
  · obtain ⟨old, newHeader, hold, hnew, hrewrapped⟩ := h.headers _ hreplaced
    rw [hheader] at hold
    cases hold
    exact ⟨hdata, ciphertext, newHeader, hkept, hnew, hrewrapped.opens _ _ hdecrypts⟩
  · exact ⟨hdata, ciphertext, header, hkept, (h.rest _ hreplaced).trans hheader, hdecrypts⟩

/-- The replaced objects are the ones that differ. -/
theorem Rekeyed.mem_iff (h : Rekeyed self objects Current start replaced s) (key : Key) :
    key ∈ replaced ↔ objects s key ≠ objects start key := by
  constructor
  · intro hmem
    obtain ⟨header, newHeader, hold, hnew, hrewrapped⟩ := h.headers key hmem
    rw [hold, hnew]
    intro hsame
    cases hsame
    exact hrewrapped.outdated hrewrapped.current
  · intro hdiffers
    by_contra hnot
    exact hdiffers (h.rest key hnot)

theorem Rekeyed.isSome_eq (h : Rekeyed self objects Current start replaced s) (key : Key) :
    (objects s key).isSome = (objects start key).isSome := by
  by_cases hmem : key ∈ replaced
  · obtain ⟨header, newHeader, hold, hnew, _⟩ := h.headers key hmem
    rw [hold, hnew]
    rfl
  · rw [h.rest key hmem]

theorem exec_rekey {r : Except BlobStorageError Unit} {k : Nat}
    (hvisit : execLocal (self.inner.visit (suffixFilter self.headerSuffix) self.rekeyVisitor) 0 s =
      ((r, k), t)) : exec self.rekey s = (r.map fun _ => { rekeyedCount := k }, t) := by
  unfold rekey
  rw [exec_bind, exec_scopeLocal, hvisit]
  cases r <;> rfl

end Run

/-- The walk of a run of rekey, whose calls are those of `Visits`. -/
def RekeysOver (self : EncryptedBlobStore (StateM σ)) (objects : σ → Key → Option Bytes)
    (Visits : Key × Option BlobMeta → Nat → σ → Verdict BlobStorageError → Nat → σ → Prop)
    (entries : List (Key × Option BlobMeta)) (s : σ) (ending : Ending BlobStorageError) : Prop :=
  (∀ entry ∈ entries, self.headerSuffix <:+ entry.1) ∧
    WalksOver self.inner (suffixFilter self.headerSuffix) self.rekeyVisitor
      (fun s t => objects t = objects s) Visits entries 0 s ending

/-- A rekey that runs alone, in a store that walks over all headers. -/
theorem rekey_touches_headers (hstore : RewritesObjects self.inner objects)
    (hprovider : RewrapsHeaders self.encryption objects Current)
    {entries : List (Key × Option BlobMeta)} {ending : Ending BlobStorageError}
    (hall : ∀ key, self.headerSuffix <:+ key → objects s key ≠ none →
      ∃ entry ∈ entries, entry.1 = key)
    (hwalk : self.RekeysOver objects self.rekeyVisitor.Calls entries s ending) :
    ∃ r t, exec self.rekey s = (r, t) ∧
      (∀ key, (objects t key).isSome = (objects s key).isSome) ∧
      (∀ key, ¬self.headerSuffix <:+ key → objects t key = objects s key) ∧
      (∀ key plaintext, self.OpensTo objects s key plaintext →
        self.OpensTo objects t key plaintext) ∧
      (∀ result, r = .ok result → ∃ replaced : List Key, replaced.Nodup ∧
        (∀ key, key ∈ replaced ↔ objects t key ≠ objects s key) ∧
        result.rekeyedCount = replaced.length) ∧
      (self.RekeysOver objects self.UntroubledCalls entries s .complete →
        ∀ u entries' ending', objects u = objects t →
          self.RekeysOver objects self.rekeyVisitor.Calls entries' u ending' →
            objects (exec self.rekey u).2 = objects u ∧
              (∀ result, (exec self.rekey u).1 = .ok result → result.rekeyedCount = 0) ∧
              (ending' = .complete → (exec self.rekey u).1 = .ok { rekeyedCount := 0 })) := by
  obtain ⟨hsuffix, left, k, t, hvisit, hwalk⟩ := hwalk
  obtain ⟨replaced, hrekeyed, hcount⟩ := walk_rekeyed hstore hprovider hsuffix hwalk
  refine ⟨_, t, exec_rekey hvisit, hrekeyed.isSome_eq, ?_, fun key plaintext => hrekeyed.opensTo,
    ?_, ?_⟩
  · exact fun key hdata => hrekeyed.rest key fun hmem => hdata (hrekeyed.suffix key hmem)
  · intro result hresult
    refine ⟨replaced, hrekeyed.once, hrekeyed.mem_iff, ?_⟩
    cases hending : ending.result with
    | error e =>
        rw [hending] at hresult
        cases hresult
    | ok _ =>
        rw [hending] at hresult
        cases hresult
        exact hcount
  · rintro ⟨_, left', k', t', hvisit', hwalk'⟩ u entries' ending' hsame
      ⟨hsuffix', last, count, v, hagain, hsecond⟩
    obtain rfl : t = t' := congrArg Prod.snd (hvisit.symm.trans hvisit')
    have hcurrent : UpToDate self objects Current [] u := by
      intro key header
      rw [hsame]
      exact walk_upToDate hstore hprovider hall hwalk' key header
    obtain ⟨hidle, rfl⟩ := walk_idle hstore hprovider hsuffix' hcurrent hsecond
    rw [exec_rekey hagain]
    refine ⟨hidle, ?_, ?_⟩
    · intro result hresult
      cases hending : ending'.result with
      | error e =>
          rw [hending] at hresult
          cases hresult
      | ok _ =>
          rw [hending] at hresult
          cases hresult
          rfl
    · rintro rfl
      rfl

end EncryptedBlobStore

/-! ### The map backend and the byte-shift provider -/

namespace MapState

/-- The contents of the objects. -/
def contents (s : MapState) (key : Key) : Option Bytes := (s.find key).map StoredBlob.content

theorem contents_write (s : MapState) (key : Key) (content : Bytes) :
    (s.write key content).contents = Function.update s.contents key (some content) := by
  funext other
  by_cases hsame : other = key
  · subst hsame
    simp [contents]
  · simp [contents, hsame, find_write_of_ne s content hsame]

end MapState

theorem MapBlobStore.rewritesObjects (store : MapBlobStore) :
    RewritesObjects store.toBlobStore MapState.contents where
  get := by
    intro s key r t hexec
    change exec (MapBlobStore.get key) s = _ at hexec
    unfold MapBlobStore.get MapBlobStore.getWithMetadata at hexec
    rw [exec_bind, exec_bind, exec_checkKey] at hexec
    cases hkey : validateBlobKey key with
    | error e =>
        rw [hkey] at hexec
        cases hexec
        exact ⟨rfl, nofun⟩
    | ok _ =>
        rw [hkey] at hexec
        dsimp only at hexec
        rw [exec_bind_ok (exec_getState s)] at hexec
        cases hfind : s.find key with
        | none =>
            rw [hfind] at hexec
            cases hexec
            exact ⟨rfl, nofun⟩
        | some blob =>
            rw [hfind] at hexec
            cases hexec
            refine ⟨rfl, fun reader content hreader hread => ?_⟩
            cases hreader
            obtain ⟨_, rfl⟩ := Reader.readToEnd_eq_ok_iff.mp hread
            show (s.find key).map StoredBlob.content = _
            rw [hfind]
            rfl
  put := by
    intro s key content size r t hexec _
    change exec (MapBlobStore.put [BlobInput.withSize key (Reader.ofBytes content) size]) s = _
      at hexec
    unfold MapBlobStore.put at hexec
    by_cases hkey : ValidKey key
    · rw [exec_bind_ok (exec_checkKeys_of_valid s (by simpa using hkey))] at hexec
      cases hexec
      exact ⟨fun _ _ => MapState.contents_write s key content, nofun⟩
    · have hkeys : ¬∀ other ∈ [BlobInput.withSize key (Reader.ofBytes content) size].map
          BlobInput.key, ValidKey other := by simpa using hkey
      obtain ⟨e, _, hcheck⟩ := exec_checkKeys_of_not_valid s hkeys
      rw [exec_bind_error hcheck] at hexec
      cases hexec
      exact ⟨nofun, fun _ _ => rfl⟩

theorem RekeyableShiftEncryption.rewrapsHeaders (self : RekeyableShiftEncryption) {σ : Type}
    (objects : σ → Key → Option Bytes) :
    RewrapsHeaders self.toProvider objects fun header => header.getD 1 0 = self.masterKeyId where
  quiet _ _ := rfl
  none := by
    intro s header h
    change Except.ok (self.rekeyHeader header) = _ at h
    unfold rekeyHeader at h
    split at h
    · assumption
    · cases h
  some := by
    intro s header newHeader h
    have hrekey : self.rekeyHeader header = some newHeader := Except.ok.inj h
    have hdek := dek_rekeyHeader hrekey
    unfold rekeyHeader at hrekey
    split at hrekey
    · cases hrekey
    next houtdated =>
    cases hrekey
    refine ⟨houtdated, rfl, fun ciphertext plaintext hdecrypts t encData hfailure hbytes => ?_⟩
    have hsame : decryptStream encData (wrapDek self.masterKeyId (dek header)) =
        decryptStream encData header := by
      unfold decryptStream
      rw [hdek]
    change (decryptStream encData _).Yields plaintext
    rw [hsame]
    exact hdecrypts t encData hfailure hbytes

namespace EncryptedBlobStore

section Sample

/-- Headers are wrapped by the master key `2`. -/
def secondKey : EncryptedBlobStore (StateM MapState) where
  inner := MapBlobStore.toBlobStore ⟨false⟩
  encryption := (RekeyableShiftEncryption.mk 5 2).toProvider
  headerSuffix := ['.', 'h']

/-- A blob of the master key `1`, and a header without a blob. -/
def firstKeyState : MapState :=
  ((MapState.empty.write ['a'] [6]).write ['a', '.', 'h'] [4, 1]).write ['b', '.', 'h'] [7, 1]

def headerEntries (s : MapState) : List (Key × Option BlobMeta) :=
  (MapBlobStore.infos ⟨false⟩ s (suffixFilter ['.', 'h'])).map fun info => (info.key, some info)

theorem secondKey_rekeysOver (s : MapState) :
    ∃ ending, secondKey.RekeysOver MapState.contents secondKey.rekeyVisitor.Calls (headerEntries s)
      s ending := by
  obtain ⟨ending, left, k, t, hexec, hwalk, _⟩ := @walk_visitEach _ _ secondKey.rekeyVisitor
    (fun s t => MapState.contents t = MapState.contents s) (fun _ => rfl) (headerEntries s) 0 s
  refine ⟨ending, fun entry hentry => ?_, left, k, t, hexec, hwalk⟩
  obtain ⟨info, hinfo, rfl⟩ := List.mem_map.mp hentry
  obtain ⟨key, blob, _, rfl, hmatch, _⟩ := MapBlobStore.mem_infos_iff.mp hinfo
  exact of_decide_eq_true hmatch

theorem headerEntries_all {s : MapState} {key : Key} (hsuffix : secondKey.headerSuffix <:+ key)
    (hthere : s.contents key ≠ none) : ∃ entry ∈ headerEntries s, entry.1 = key := by
  cases hfind : s.find key with
  | none => exact absurd (by rw [MapState.contents, hfind]; rfl) hthere
  | some blob =>
      refine ⟨_, List.mem_map.mpr ⟨blob.info key, ?_, rfl⟩, rfl⟩
      exact MapBlobStore.mem_infos_iff.mpr
        ⟨key, blob, hfind, rfl, decide_eq_true hsuffix, nofun⟩

theorem untroubled_secondKey {s : MapState} {key : Key} {blob : StoredBlob}
    (hkey : ValidKey key) (hfind : s.find key = some blob) : secondKey.Untroubled key s := by
  have hget : exec (secondKey.inner.get key) s = (.ok (Reader.ofBytes blob.content), s) := by
    change exec (MapBlobStore.get key) s = _
    rw [MapBlobStore.get, MapBlobStore.getWithMetadata, exec_bind,
      exec_bind_ok (exec_checkKey_of_valid s hkey), exec_bind_ok (exec_getState s), hfind]
    rfl
  refine ⟨_, s, _, hget, rfl, ?_⟩
  cases hrekey : (RekeyableShiftEncryption.mk 5 2).rekeyHeader blob.content with
  | none => exact .inl (congrArg Except.ok hrekey)
  | some newHeader =>
      refine .inr ⟨newHeader, congrArg Except.ok hrekey, ?_⟩
      change ∃ result, (exec (MapBlobStore.put _) s).1 = .ok result
      rw [MapBlobStore.put, exec_bind_ok (exec_checkKeys_of_valid s (by simpa using hkey))]
      exact ⟨_, rfl⟩

/-- In the sample nothing goes wrong. -/
theorem firstKeyState_untroubled :
    secondKey.RekeysOver MapState.contents secondKey.UntroubledCalls (headerEntries firstKeyState)
      firstKeyState .complete := by
  have hentries : headerEntries firstKeyState =
      [(['b', '.', 'h'], some ⟨['b', '.', 'h'], 2, 0, none⟩),
        (['a', '.', 'h'], some ⟨['a', '.', 'h'], 2, 0, none⟩)] := by decide
  refine ⟨by decide, ?_⟩
  rw [hentries]
  exact ⟨[], 2, _, rfl,
    .next rfl ⟨rfl, untroubled_secondKey (by decide) rfl⟩ <|
    .next rfl ⟨rfl, untroubled_secondKey (by decide) rfl⟩ <| .complete rfl⟩

/-- A rekey, and another one after it. -/
theorem rekey_touches_headers_sample :
    (exec secondKey.rekey firstKeyState).1 = .ok { rekeyedCount := 2 } ∧
      ∃ r t, exec secondKey.rekey firstKeyState = (r, t) ∧
        (∀ key, ¬['.', 'h'] <:+ key → t.contents key = firstKeyState.contents key) ∧
        (∀ key plaintext, secondKey.OpensTo MapState.contents firstKeyState key plaintext →
          secondKey.OpensTo MapState.contents t key plaintext) ∧
        (exec secondKey.rekey t).2.contents = t.contents ∧
        ∀ result, (exec secondKey.rekey t).1 = .ok result → result.rekeyedCount = 0 := by
  obtain ⟨ending, hwalk⟩ := secondKey_rekeysOver firstKeyState
  obtain ⟨r, t, hexec, _, hdata, hopens, _, hagain⟩ := rekey_touches_headers
    (MapBlobStore.rewritesObjects ⟨false⟩)
    ((RekeyableShiftEncryption.mk 5 2).rewrapsHeaders MapState.contents)
    (fun key hsuffix hthere => headerEntries_all hsuffix hthere) hwalk
  obtain ⟨ending', hwalk'⟩ := secondKey_rekeysOver t
  obtain ⟨hsame, hcount, _⟩ := hagain firstKeyState_untroubled t _ ending' rfl hwalk'
  exact ⟨by decide, r, t, hexec, hdata, hopens, hsame, hcount⟩

end Sample

end EncryptedBlobStore

end BlobStorage
