import BlobStorage.Backend.Fs.Collisions
import BlobStorage.Concurrency.Calls
import BlobStorage.Refinement.Encrypt
import BlobStorage.Encrypt.Shift

/-!
# Headers among the files

On the filesystem the header of a blob is a file beside it, and as a file it is in the way of
every key beneath its own. The layer keeps its suffix from the end of a key, not from the end of
a component. The name of the header is longer than that of the blob.
-/

namespace BlobStorage

open Fallible Posix FileTree FsBlobStore

/-- The tree holds the objects, the directories on the way to them, and nothing else. -/
structure HoldsOnly (s : FsState) (objects : List Key) : Prop where
  rootStat : s.rootStat = .ok true
  stored : ∀ key ∈ objects, ∃ data, Stored s.tree key data
  nothingElse : ∀ path node, path ≠ [] → s.tree.find path = some node →
    ∃ key ∈ objects, path <+: ofText key

namespace HoldsOnly

variable {s u : FsState} {objects : List Key} {key : Key}

theorem of_empty (h : FsBlobStore.Empty s) : HoldsOnly s [] where
  rootStat := h.rootStat
  stored := by simp
  nothingElse path node hne hfind := by
    rw [h.find path hne] at hfind
    cases hfind

/-- A key collides with an object that is on the way to it, or that it is on the way to. -/
theorem collides_iff (h : HoldsOnly s objects) : Collides s.tree key ↔
    ∃ other ∈ objects, other ++ ['/'] <+: key ∨ key ++ ['/'] <+: other := by
  constructor
  · rintro (hthrough | hdir)
    · obtain ⟨other, data, hstored, hfront⟩ := throughFile_iff.mp hthrough
      obtain ⟨holder, hholder, hpath⟩ := h.nothingElse _ _ (ofText_ne_nil other) hstored
      obtain ⟨_, hheld⟩ := h.stored holder hholder
      by_cases hsame : ofText other = ofText holder
      · rw [← ofText_injective hsame] at hholder
        exact ⟨other, hholder, .inl hfront⟩
      · have hdir := Volume.find_of_isPrefix hpath hsame hheld
        rw [hstored] at hdir
        cases hdir
    · obtain ⟨holder, hholder, hpath⟩ := h.nothingElse _ _ (ofText_ne_nil key) hdir
      obtain ⟨data, hheld⟩ := h.stored holder hholder
      refine ⟨holder, hholder, .inr (append_sep_prefix_iff.mpr ⟨hpath, fun hsame => ?_⟩)⟩
      unfold Stored at hheld
      rw [← hsame, hdir] at hheld
      cases hheld
  · rintro ⟨other, hother, hfront | hfront⟩
    · obtain ⟨data, hheld⟩ := h.stored other hother
      exact .inl (throughFile_iff.mpr ⟨other, data, hheld, hfront⟩)
    · obtain ⟨data, hheld⟩ := h.stored other hother
      obtain ⟨hpath, hne⟩ := append_sep_prefix_iff.mp hfront
      exact .inr (Volume.find_of_isPrefix hpath hne hheld)

theorem wrote (h : HoldsOnly s objects) {data : FileData} (hfree : ¬Collides s.tree key)
    (hwrote : Wrote s key data u) : HoldsOnly u (key :: objects) where
  rootStat := hwrote.only.rootStat.trans h.rootStat
  stored other hother := by
    by_cases hsame : other = key
    · subst hsame
      exact ⟨data, hwrote.stored⟩
    · obtain ⟨old, hold⟩ := h.stored other ((List.mem_cons.mp hother).resolve_left hsame)
      exact ⟨old, (hwrote.stored_iff hfree hsame).mpr hold⟩
  nothingElse path node hne hfind := by
    rw [hwrote.find] at hfind
    split_ifs at hfind with hsame hfront
    · exact ⟨key, List.mem_cons_self .., hsame ▸ List.prefix_refl _⟩
    · exact ⟨key, List.mem_cons_self .., hfront⟩
    · obtain ⟨other, hother, hpath⟩ := h.nothingElse path node hne hfind
      exact ⟨other, List.mem_cons_of_mem _ hother, hpath⟩

end HoldsOnly

namespace FsBlobStore

variable {store : FsBlobStore} {s u : FsState} {blob : BlobInput}

/-- A put of one blob that succeeds has written it. -/
theorem put_one_ok {result : PutResult} (hroot : s.rootStat = .ok true)
    (hvalid : ValidKey blob.key) (hhealthy : blob.data.failure = none)
    (hexec : exec (store.put [blob]) s = (.ok result, u)) :
    ¬Unstorable s.tree blob.key ∧ Wrote s blob.key ⟨blob.data.bytes, s.clock⟩ u := by
  obtain ⟨_, v, hok, hputs⟩ | ⟨_, _, _, _, _, _, _, _, _, e, v, herror, _⟩ :=
    @exec_put_cases store s [blob] hroot (by simpa using hvalid) (by simpa using hhealthy)
  · rw [hexec] at hok
    cases hok
    cases hputs with
    | cons free wrote others =>
        cases others
        exact ⟨free, wrote⟩
  · rw [hexec] at herror
    cases herror

theorem put_one_of_free (hroot : s.rootStat = .ok true) (hvalid : ValidKey blob.key)
    (hhealthy : blob.data.failure = none) (hfree : ¬Unstorable s.tree blob.key) :
    ∃ result u, exec (store.put [blob]) s = (.ok result, u) := by
  obtain ⟨result, u, hok, _⟩ | ⟨front, first, rest, _, u, hsplit, _, hputs, hbad, _⟩ :=
    @exec_put_cases store s [blob] hroot (by simpa using hvalid) (by simpa using hhealthy)
  · exact ⟨result, u, hok⟩
  · cases front with
    | nil =>
        obtain ⟨rfl, rfl⟩ := List.cons.inj hsplit
        cases hputs
        exact absurd hbad hfree
    | cons _ front =>
        have hlength := congrArg List.length hsplit
        simp at hlength

end FsBlobStore

/-- A provider that encrypts every stream that does not break off. -/
structure WorkingProvider (provider : EncryptionProvider (StateM FsState)) : Prop extends
    LawfulProvider Eq provider where
  serves : ∀ s reader, reader.failure = none →
    ∃ header, (provider.encryptStream reader s).1.outcome = .header header

namespace EncryptedBlobStore

variable {σ : Type}

/-- Blobs are put one after another, by a call each. -/
def putEach {m : Type → Type} [Monad m] (self : EncryptedBlobStore m) :
    List BlobInput → Fallible m Unit
  | [] => pure ()
  | blob :: rest => do
      let _ ← self.put [blob]
      self.putEach rest

/-- The encryption layer on the filesystem. -/
abbrev onFs (fs : FsBlobStore) (provider : EncryptionProvider (StateM FsState))
    (headerSuffix : Key) : EncryptedBlobStore (StateM FsState) :=
  { inner := fs.toBlobStore, encryption := provider, headerSuffix }

/-- A blob whose two objects can be written is put. -/
theorem exec_putBlob_of_ok {self : EncryptedBlobStore (StateM σ)} {blob : BlobInput} {s u t : σ}
    {result headerResult : PutResult} {header : Bytes}
    (hdata : exec (self.inner.put [BlobInput.withSize blob.key
      (self.encryption.encryptStream blob.data s).1.reader (blob.sizeHint.getD 0)])
      (self.encryption.encryptStream blob.data s).2 = (.ok result, u))
    (houtcome : (self.encryption.encryptStream blob.data s).1.outcome = .header header)
    (hheader : exec (self.inner.put [BlobInput.withSize (self.headerKey blob.key)
      (Reader.ofBytes header) header.length]) u = (.ok headerResult, t)) :
    exec (self.putBlob blob) s =
      (.ok (result.blobs.filter fun info => decide ¬self.headerSuffix <:+ info.key), t) := by
  have hresult : (self.encryption.encryptStream blob.data s).1.result blob.key = .ok header :=
    EncryptRun.result_eq_ok_iff.mpr houtcome
  rw [putBlob, exec_bind_ok (exec_perform s _), exec_bind_ok hdata, hresult]
  dsimp only
  rw [exec_bind_ok (exec_attempt u _), hheader]
  rfl

theorem exec_put_one {self : EncryptedBlobStore (StateM σ)} {blob : BlobInput} {s t : σ}
    {infos : List BlobMeta} (hchecked : exec (self.checkPutKeys [blob.key]) s = (.ok (), s))
    (hblob : exec (self.putBlob blob) s = (.ok infos, t)) :
    exec (self.put [blob]) s = (.ok { blobs := infos ++ [] }, t) := by
  have hputs : exec (self.putBlobs [blob]) s = (.ok (infos ++ []), t) := by
    rw [putBlobs, exec_bind_ok hblob]
    rfl
  rw [put]
  exact (exec_bind_ok hchecked).trans (exec_bind_ok hputs)

section OnFs

variable {fs : FsBlobStore} {provider : EncryptionProvider (StateM FsState)} {headerSuffix : Key}
variable {s t : FsState} {blob : BlobInput} {objects : List Key}

/-- The data object is written, and then the header. -/
structure WrotePair (provider : EncryptionProvider (StateM FsState)) (headerSuffix : Key)
    (s : FsState) (blob : BlobInput) (data header : FileData) (u t : FsState) : Prop where
  free : ¬Unstorable s.tree blob.key
  wroteData : Wrote s blob.key data u
  freeHeader : ¬Unstorable u.tree (blob.key ++ headerSuffix)
  wroteHeader : Wrote u (blob.key ++ headerSuffix) header t
  decrypts : provider.Decrypts data.content header.content blob.data.bytes

variable (P : WorkingProvider provider) (hroot : s.rootStat = .ok true)
variable (haccepts : AcceptsPut headerSuffix blob.key)

include P hroot haccepts

theorem put_ok_writes {result : PutResult}
    (hexec : exec ((onFs fs provider headerSuffix).put [blob]) s = (.ok result, t)) :
    ∃ data header u, WrotePair provider headerSuffix s blob data header u t := by
  obtain ⟨hvalid, hsuffix, hheader⟩ := haccepts
  have hchecked := @exec_checkPutKeys _ (onFs fs provider headerSuffix) ([blob].map BlobInput.key)
    (by simpa using ⟨hvalid, hsuffix, hheader⟩) s
  rw [put, exec_bind_ok hchecked, exec_bind_eq_ok] at hexec
  obtain ⟨infos, v, hputs, hpure⟩ := hexec
  cases hpure
  rw [putBlobs, exec_bind_eq_ok] at hputs
  obtain ⟨first, w, hput, hrest⟩ := hputs
  cases hrest
  obtain ⟨_, u, header, _, hdata, houtcome, hwritten, _⟩ := exec_putBlob_eq_ok hput
  rw [← P.encrypt_keeps s blob.data] at hdata
  obtain ⟨hfree, hwrote⟩ := @put_one_ok fs s u (BlobInput.withSize blob.key
    (provider.encryptStream blob.data s).1.reader (blob.sizeHint.getD 0)) _ hroot hvalid rfl hdata
  obtain ⟨hfree', hwrote'⟩ := @put_one_ok fs u t (BlobInput.withSize (blob.key ++ headerSuffix)
    (Reader.ofBytes header) header.length) _ (hwrote.only.rootStat.trans hroot) hheader rfl hwritten
  exact ⟨_, _, u, hfree, hwrote, hfree', hwrote', P.inverse houtcome⟩

theorem put_of_free (hhealthy : blob.data.failure = none) (hfree : ¬Unstorable s.tree blob.key)
    (hfree' : ∀ data u, Wrote s blob.key data u → ¬Unstorable u.tree (blob.key ++ headerSuffix)) :
    ∃ result t, exec ((onFs fs provider headerSuffix).put [blob]) s = (.ok result, t) := by
  obtain ⟨hvalid, hsuffix, hheader⟩ := haccepts
  obtain ⟨header, houtcome⟩ := P.serves s blob.data hhealthy
  obtain ⟨result, u, hdata⟩ := @put_one_of_free fs s (BlobInput.withSize blob.key
    (provider.encryptStream blob.data s).1.reader (blob.sizeHint.getD 0)) hroot hvalid rfl hfree
  obtain ⟨_, hwrote⟩ := @put_one_ok fs s u (BlobInput.withSize blob.key
    (provider.encryptStream blob.data s).1.reader (blob.sizeHint.getD 0)) _ hroot hvalid rfl hdata
  obtain ⟨headerResult, t, hwritten⟩ := @put_one_of_free fs u (BlobInput.withSize
    (blob.key ++ headerSuffix) (Reader.ofBytes header) header.length)
    (hwrote.only.rootStat.trans hroot) hheader rfl (hfree' _ u hwrote)
  have hencrypted : (provider.encryptStream blob.data s).2 = s :=
    (P.encrypt_keeps s blob.data).symm
  have hchecked := @exec_checkPutKeys _ (onFs fs provider headerSuffix) [blob.key]
    (by simpa using ⟨hvalid, hsuffix, hheader⟩) s
  exact ⟨_, t, exec_put_one hchecked
    (exec_putBlob_of_ok (by rw [hencrypted]; exact hdata) houtcome hwritten)⟩

end OnFs

/-! ### One put after another -/

/-- The objects of the keys. -/
def objectsOf (headerSuffix : Key) (keys : List Key) : List Key :=
  keys.flatMap fun key => [key, key ++ headerSuffix]

theorem mem_objectsOf {headerSuffix other : Key} {keys : List Key} :
    other ∈ objectsOf headerSuffix keys ↔
      ∃ key ∈ keys, other = key ∨ other = key ++ headerSuffix := by
  unfold objectsOf
  simp

/-- A pair for each blob, one after another. -/
inductive WroteEach (provider : EncryptionProvider (StateM FsState)) (headerSuffix : Key) :
    FsState → List BlobInput → FsState → Prop
  | nil {s : FsState} : WroteEach provider headerSuffix s [] s
  | cons {s u t v : FsState} {blob : BlobInput} {rest : List BlobInput} {data header : FileData}
      (pair : WrotePair provider headerSuffix s blob data header u t)
      (others : WroteEach provider headerSuffix t rest v) :
      WroteEach provider headerSuffix s (blob :: rest) v

/-- Both objects are stored, and together they are the plaintext. -/
def Readable (provider : EncryptionProvider (StateM FsState)) (headerSuffix : Key) (s : FsState)
    (key : Key) (plaintext : Bytes) : Prop :=
  ∃ data header, Stored s.tree key data ∧ Stored s.tree (key ++ headerSuffix) header ∧
    provider.Decrypts data.content header.content plaintext

section Runs

variable {fs : FsBlobStore} {provider : EncryptionProvider (StateM FsState)} {headerSuffix : Key}
variable {s t u : FsState} {blob : BlobInput} {blobs : List BlobInput} {objects : List Key}

theorem WrotePair.rootStat {data header : FileData}
    (h : WrotePair provider headerSuffix s blob data header u t) : t.rootStat = s.rootStat :=
  h.wroteHeader.only.rootStat.trans h.wroteData.only.rootStat

theorem WrotePair.not_collides {data header : FileData}
    (h : WrotePair provider headerSuffix s blob data header u t) : ¬Collides s.tree blob.key :=
  fun hbad => h.free (.inr hbad)

theorem WrotePair.header_not_collides {data header : FileData}
    (h : WrotePair provider headerSuffix s blob data header u t) :
    ¬Collides u.tree (blob.key ++ headerSuffix) := fun hbad => h.freeHeader (.inr hbad)

/-- What was stored under other keys still is. -/
theorem WrotePair.keeps {data header old : FileData} {other : Key}
    (h : WrotePair provider headerSuffix s blob data header u t) (hdata : other ≠ blob.key)
    (hheader : other ≠ blob.key ++ headerSuffix) (hold : Stored s.tree other old) :
    Stored t.tree other old := by
  have hbetween := (h.wroteData.stored_iff h.not_collides hdata).mpr hold
  exact (h.wroteHeader.stored_iff h.header_not_collides hheader).mpr hbetween

theorem WrotePair.readable {data header : FileData} (hsuffix : ¬headerSuffix <:+ blob.key)
    (h : WrotePair provider headerSuffix s blob data header u t) :
    Readable provider headerSuffix t blob.key blob.data.bytes := by
  have hne : blob.key ≠ blob.key ++ headerSuffix := by
    intro hsame
    apply hsuffix
    rw [hsame]
    exact List.suffix_append _ _
  exact ⟨data, header, (h.wroteHeader.stored_iff h.header_not_collides hne).mpr h.wroteData.stored,
    h.wroteHeader.stored, h.decrypts⟩

theorem WroteEach.rootStat (h : WroteEach provider headerSuffix s blobs t) :
    t.rootStat = s.rootStat := by
  induction h with
  | nil => rfl
  | cons pair _ ih => exact ih.trans pair.rootStat

theorem WroteEach.keeps {other : Key} {old : FileData}
    (h : WroteEach provider headerSuffix s blobs t)
    (hother : other ∉ objectsOf headerSuffix (blobs.map BlobInput.key))
    (hold : Stored s.tree other old) : Stored t.tree other old := by
  induction h with
  | nil => exact hold
  | @cons s u t v blob rest data header pair others ih =>
      rw [mem_objectsOf] at hother ih
      apply ih
      · rintro ⟨key, hkey, hsame⟩
        exact hother ⟨key, List.mem_cons_of_mem _ hkey, hsame⟩
      · have hdata : other ≠ blob.key := fun hsame =>
          hother ⟨blob.key, List.mem_cons_self .., .inl hsame⟩
        have hheader : other ≠ blob.key ++ headerSuffix := fun hsame =>
          hother ⟨blob.key, List.mem_cons_self .., .inr hsame⟩
        exact pair.keeps hdata hheader hold

/-- A key that is accepted has no object in common with other accepted keys. -/
theorem not_mem_objectsOf {key other : Key} {keys : List Key}
    (haccepts : ∀ other ∈ keys, ¬headerSuffix <:+ other) (hsuffix : ¬headerSuffix <:+ key)
    (hnew : key ∉ keys) (hobject : other = key ∨ other = key ++ headerSuffix) :
    other ∉ objectsOf headerSuffix keys := by
  rw [mem_objectsOf]
  rintro ⟨held, hheld, hsame⟩
  obtain rfl | rfl := hobject <;> obtain hsame | hsame := hsame
  · exact hnew (hsame ▸ hheld)
  · exact hsuffix (hsame ▸ List.suffix_append _ _)
  · exact haccepts held hheld (hsame ▸ List.suffix_append _ _)
  · exact hnew (List.append_cancel_right hsame ▸ hheld)

theorem WroteEach.readable (h : WroteEach provider headerSuffix s blobs t)
    (hnodup : (blobs.map BlobInput.key).Nodup)
    (haccepts : ∀ blob ∈ blobs, ¬headerSuffix <:+ blob.key) :
    ∀ blob ∈ blobs, Readable provider headerSuffix t blob.key blob.data.bytes := by
  induction h with
  | nil => exact nofun
  | @cons s u t v blob rest data header pair others ih =>
      rw [List.map_cons, List.nodup_cons] at hnodup
      rw [List.forall_mem_cons] at haccepts ⊢
      refine ⟨?_, ih hnodup.2 haccepts.2⟩
      obtain ⟨held, heldHeader, hdata, hheader, hdecrypts⟩ := pair.readable haccepts.1
      have hkeys : ∀ other ∈ rest.map BlobInput.key, ¬headerSuffix <:+ other := by
        simpa using haccepts.2
      refine ⟨held, heldHeader, others.keeps ?_ hdata, others.keeps ?_ hheader, hdecrypts⟩
      · exact not_mem_objectsOf hkeys haccepts.1 hnodup.1 (.inl rfl)
      · exact not_mem_objectsOf hkeys haccepts.1 hnodup.1 (.inr rfl)

variable (P : WorkingProvider provider)

include P

theorem putEach_ok_writes (hroot : s.rootStat = .ok true)
    (haccepts : ∀ blob ∈ blobs, AcceptsPut headerSuffix blob.key)
    (hexec : exec ((onFs fs provider headerSuffix).putEach blobs) s = (.ok (), t)) :
    WroteEach provider headerSuffix s blobs t := by
  induction blobs generalizing s with
  | nil =>
      cases hexec
      exact .nil
  | cons blob rest ih =>
      rw [List.forall_mem_cons] at haccepts
      rw [putEach, exec_bind_eq_ok] at hexec
      obtain ⟨result, v, hput, hrest⟩ := hexec
      obtain ⟨data, header, u, hpair⟩ := put_ok_writes P hroot haccepts.1 hput
      exact .cons hpair (ih (hpair.rootStat.trans hroot) haccepts.2 hrest)

/-- Blobs whose objects have names that files can have, none on the way to another, are all put. -/
theorem putEach_of_apart (h : HoldsOnly s objects)
    (hnameable : ∀ key ∈ objectsOf headerSuffix (blobs.map BlobInput.key), Nameable key)
    (hapart : ∀ key ∈ objectsOf headerSuffix (blobs.map BlobInput.key) ++ objects,
      ∀ other ∈ objectsOf headerSuffix (blobs.map BlobInput.key) ++ objects,
        ¬key ++ ['/'] <+: other)
    (haccepts : ∀ blob ∈ blobs, AcceptsPut headerSuffix blob.key)
    (hhealthy : ∀ blob ∈ blobs, blob.data.failure = none) :
    ∃ t, exec ((onFs fs provider headerSuffix).putEach blobs) s = (.ok (), t) := by
  induction blobs generalizing s objects with
  | nil => exact ⟨s, rfl⟩
  | cons blob rest ih =>
      rw [List.forall_mem_cons] at haccepts hhealthy
      have hmem : ∀ other, other ∈ objectsOf headerSuffix (rest.map BlobInput.key) ++
          (blob.key ++ headerSuffix) :: blob.key :: objects →
          other ∈ objectsOf headerSuffix ((blob :: rest).map BlobInput.key) ++ objects := by
        intro other hother
        simp only [objectsOf, List.map_cons, List.flatMap_cons, List.mem_append, List.mem_cons,
          List.not_mem_nil, or_false] at hother ⊢
        tauto
      have hapart' : ∀ key ∈ (blob.key ++ headerSuffix) :: blob.key :: objects,
          ∀ other ∈ (blob.key ++ headerSuffix) :: blob.key :: objects, ¬key ++ ['/'] <+: other :=
        fun key hkey other hother => hapart key (hmem key (List.mem_append_right _ hkey))
          other (hmem other (List.mem_append_right _ hother))
      rw [List.map_cons, objectsOf, List.flatMap_cons, List.forall_mem_append] at hnameable
      obtain ⟨hnames, hrestNames⟩ := hnameable
      have hclear : ¬Collides s.tree blob.key := by
        rw [h.collides_iff]
        rintro ⟨other, hother, hway | hway⟩
        · exact hapart' other (by simp [hother]) blob.key (by simp) hway
        · exact hapart' blob.key (by simp) other (by simp [hother]) hway
      have hfree : ¬Unstorable s.tree blob.key := not_or.mpr ⟨not_not.mpr (hnames _ (by simp)), hclear⟩
      have hfree' : ∀ data v, Wrote s blob.key data v →
          ¬Unstorable v.tree (blob.key ++ headerSuffix) := by
        intro data v hwrote
        refine not_or.mpr ⟨not_not.mpr (hnames _ (by simp)), ?_⟩
        rw [(h.wrote hclear hwrote).collides_iff]
        rintro ⟨other, hother, hway | hway⟩
        · exact hapart' other (List.mem_cons_of_mem _ hother) _ (by simp) hway
        · exact hapart' _ (by simp) other (List.mem_cons_of_mem _ hother) hway
      obtain ⟨result, t, hput⟩ :=
        @put_of_free fs provider headerSuffix s blob P h.rootStat haccepts.1 hhealthy.1 hfree hfree'
      obtain ⟨data, header, v, hpair⟩ := put_ok_writes P h.rootStat haccepts.1 hput
      have hholds :=
        (h.wrote hclear hpair.wroteData).wrote hpair.header_not_collides hpair.wroteHeader
      obtain ⟨w, hrest⟩ := ih hholds hrestNames
        (fun key hkey other hother => hapart key (hmem key hkey) other (hmem other hother))
        haccepts.2 hhealthy.2
      exact ⟨w, by rw [putEach, exec_bind_ok hput, hrest]⟩

omit P in
theorem get_of_readable {key : Key} {plaintext : Bytes} (hroot : s.rootStat = .ok true)
    (haccepts : AcceptsPut headerSuffix key)
    (h : Readable provider headerSuffix s key plaintext) :
    ∃ reader, (exec ((onFs fs provider headerSuffix).get key) s).1 = .ok reader ∧
      reader.readToEnd = .ok plaintext := by
  obtain ⟨hvalid, hsuffix, hheader⟩ := haccepts
  obtain ⟨data, header, hdata, hstored, hdecrypts⟩ := h
  unfold Stored at hdata hstored
  have hget : exec ((onFs fs provider headerSuffix).inner.get key) s =
      (.ok (openNode (.file data)), s) := by
    have hfound := exec_get_of_valid fs hroot hvalid
    rwa [hdata] at hfound
  have hgetHeader : exec ((onFs fs provider headerSuffix).inner.get
      ((onFs fs provider headerSuffix).headerKey key)) s = (.ok (openNode (.file header)), s) := by
    have hfound := exec_get_of_valid fs hroot hheader
    rwa [hstored] at hfound
  have hread : (openNode (.file header)).readToEnd = .ok header.content :=
    Reader.readToEnd_eq_ok_iff.mpr ⟨rfl, rfl⟩
  obtain ⟨hdone, hwritten⟩ := hdecrypts s (openNode (.file data)) rfl rfl
  refine ⟨(provider.decryptStream (openNode (.file data)) header.content s).1.reader key, ?_, ?_⟩
  · rw [get, exec_bind_ok (exec_checkNoHeaderCollision hsuffix s),
      exec_bind_ok (exec_hideNotFound_ok hget), decryptStream,
      exec_bind_ok (exec_hideNotFound_ok hgetHeader), hread]
    rfl
  · rw [Reader.readToEnd_eq_ok_iff, DecryptRun.reader, hdone]
    exact ⟨rfl, hwritten⟩

end Runs

/-! ### Keys beneath a header -/

/-- Blobs that can be put one after another as far as the layer and their own keys go. -/
structure Puttable (headerSuffix : Key) (blobs : List BlobInput) : Prop where
  nodup : (blobs.map BlobInput.key).Nodup
  accepts : ∀ blob ∈ blobs, AcceptsPut headerSuffix blob.key
  healthy : ∀ blob ∈ blobs, blob.data.failure = none
  apart : ∀ blob ∈ blobs, ∀ other ∈ blobs, ¬blob.key ++ ['/'] <+: other.key

/-- Each blob is put, and once all are each reads as what was put. -/
def PutsEach (self : EncryptedBlobStore (StateM FsState)) (s : FsState)
    (blobs : List BlobInput) : Prop :=
  ∃ t, exec (self.putEach blobs) s = (.ok (), t) ∧ ∀ blob ∈ blobs,
    ∃ reader, (exec (self.get blob.key) t).1 = .ok reader ∧
      reader.readToEnd = .ok blob.data.bytes

/-- No key lies beneath the header of another. -/
def HeadersFree (headerSuffix : Key) (blobs : List BlobInput) : Prop :=
  ∀ blob ∈ blobs, ∀ other ∈ blobs, ¬blob.key ++ headerSuffix ++ ['/'] <+: other.key

/-- All the files that are made have names that a file can have. -/
def ObjectsNameable (headerSuffix : Key) (blobs : List BlobInput) : Prop :=
  ∀ key ∈ objectsOf headerSuffix (blobs.map BlobInput.key), Nameable key

theorem sep_prefix_of_append {a b suffix : List Char} (hsep : '/' ∉ suffix)
    (h : a ++ ['/'] <+: b ++ suffix) : a ++ ['/'] <+: b := by
  obtain hfront | hbeyond := List.prefix_or_prefix_of_prefix h (List.prefix_append b suffix)
  · exact hfront
  · obtain hsame | ⟨beyond, rfl⟩ := List.prefix_concat_iff.mp hbeyond
    · exact hsame ▸ List.prefix_refl _
    · rw [List.append_assoc, List.prefix_append_right_inj] at h
      exact absurd (h.subset (by simp)) hsep

theorem Puttable.objects_apart {headerSuffix : Key} {blobs : List BlobInput}
    (h : Puttable headerSuffix blobs) (hsep : '/' ∉ headerSuffix)
    (hfree : HeadersFree headerSuffix blobs) :
    ∀ key ∈ objectsOf headerSuffix (blobs.map BlobInput.key),
      ∀ other ∈ objectsOf headerSuffix (blobs.map BlobInput.key), ¬key ++ ['/'] <+: other := by
  -- A header is in the way of what its key is in the way of, and of what lies beneath it.
  have hbelow : ∀ key ∈ objectsOf headerSuffix (blobs.map BlobInput.key), ∀ other ∈ blobs,
      ¬key ++ ['/'] <+: other.key := by
    intro key hkey other hother
    obtain ⟨_, hheld, hobject⟩ := mem_objectsOf.mp hkey
    obtain ⟨blob, hblob, rfl⟩ := List.mem_map.mp hheld
    obtain rfl | rfl := hobject
    · exact h.apart blob hblob other hother
    · exact hfree blob hblob other hother
  intro key hkey other hother hway
  obtain ⟨_, hheld, hobject⟩ := mem_objectsOf.mp hother
  obtain ⟨blob, hblob, rfl⟩ := List.mem_map.mp hheld
  obtain rfl | rfl := hobject
  · exact hbelow key hkey blob hblob hway
  · exact hbelow key hkey blob hblob (sep_prefix_of_append hsep hway)

section Nested

variable {fs : FsBlobStore} {provider : EncryptionProvider (StateM FsState)} {s : FsState}
variable {blobs : List BlobInput}

/-- When all were put, each has its two objects, both have names that a file can have, and a header
has nothing beneath it. -/
theorem PutsEach.headersFree (P : WorkingProvider provider) (hempty : FsBlobStore.Empty s)
    (hblobs : Puttable defaultHeaderSuffix blobs)
    (h : PutsEach (onFs fs provider defaultHeaderSuffix) s blobs) :
    HeadersFree defaultHeaderSuffix blobs ∧ ObjectsNameable defaultHeaderSuffix blobs := by
  obtain ⟨t, hexec, _⟩ := h
  have hwrote := putEach_ok_writes P hempty.rootStat hblobs.accepts hexec
  have hreadable := hwrote.readable hblobs.nodup fun blob hblob => (hblobs.accepts blob hblob).2.1
  refine ⟨?_, fun key hkey => ?_⟩
  swap
  · obtain ⟨_, hheld, hobject⟩ := mem_objectsOf.mp hkey
    obtain ⟨blob, hblob, rfl⟩ := List.mem_map.mp hheld
    obtain ⟨_, _, hdata, hheader, _⟩ := hreadable blob hblob
    obtain rfl | rfl := hobject
    · exact hdata.nameable
    · exact hheader.nameable
  intro blob hblob other hother hway
  obtain ⟨_, header, _, hheader, _⟩ := hreadable blob hblob
  obtain ⟨data, _, hdata, _⟩ := hreadable other hother
  exact hdata.not_collides (.inl (throughFile_iff.mpr ⟨_, header, hheader, hway⟩))

/-- Over an empty root the blobs are put in any order and read back exactly when no key lies
beneath the header of another, and all keys and headers have names that a file can have. -/
theorem putsEach_iff_headersFree (P : WorkingProvider provider) (hempty : FsBlobStore.Empty s)
    (hblobs : Puttable defaultHeaderSuffix blobs) :
    PutsEach (onFs fs provider defaultHeaderSuffix) s blobs ↔
      HeadersFree defaultHeaderSuffix blobs ∧ ObjectsNameable defaultHeaderSuffix blobs := by
  refine ⟨PutsEach.headersFree P hempty hblobs, fun ⟨hfree, hnameable⟩ => ?_⟩
  have hapart := hblobs.objects_apart (by decide) hfree
  obtain ⟨t, hexec⟩ := @putEach_of_apart fs provider defaultHeaderSuffix s blobs [] P
    (.of_empty hempty) hnameable (by rwa [List.append_nil]) hblobs.accepts hblobs.healthy
  have hwrote := putEach_ok_writes P hempty.rootStat hblobs.accepts hexec
  have hreadable := hwrote.readable hblobs.nodup fun blob hblob => (hblobs.accepts blob hblob).2.1
  exact ⟨t, hexec, fun blob hblob => get_of_readable (hwrote.rootStat.trans hempty.rootStat)
    (hblobs.accepts blob hblob) (hreadable blob hblob)⟩

end Nested

section Samples

/-- The provider of the tests, over the filesystem. -/
def shiftProvider : EncryptionProvider (StateM FsState) :=
  RekeyableShiftEncryption.toProvider ⟨3, 0⟩

theorem shiftProvider_works : WorkingProvider shiftProvider where
  encrypt_keeps _ _ := rfl
  decrypt_keeps _ _ _ := rfl
  inverse houtcome _ _ hfailure hbytes :=
    RekeyableShiftEncryption.decryptStream_yields houtcome hfailure hbytes
  serves _ reader hhealthy := by
    have hread : reader.readToEnd = .ok reader.bytes :=
      Reader.readToEnd_eq_ok_iff.mpr ⟨hhealthy, rfl⟩
    refine ⟨RekeyableShiftEncryption.wrapDek 0 3, ?_⟩
    show (RekeyableShiftEncryption.encryptStream ⟨3, 0⟩ reader).outcome = _
    unfold RekeyableShiftEncryption.encryptStream
    rw [hread]

/-- The key of the second blob lies beneath the header of the first. -/
def nestedBlobs : List BlobInput :=
  [BlobInput.new ['a'] (Reader.ofBytes [1]),
    BlobInput.new (['a'] ++ defaultHeaderSuffix ++ ['/', 'b']) (Reader.ofBytes [2])]

theorem nestedBlobs_puttable : Puttable defaultHeaderSuffix nestedBlobs where
  nodup := by decide
  accepts := by
    unfold AcceptsPut
    decide
  healthy := by decide
  apart := by decide

/-- The layer accepts both keys, and neither is beneath the other; the second put fails. -/
theorem key_beneath_header_is_not_put :
    FsBlobStore.Empty emptyRoot ∧ WorkingProvider shiftProvider ∧
      Puttable defaultHeaderSuffix nestedBlobs ∧
      ¬PutsEach (onFs sampleFs shiftProvider defaultHeaderSuffix) emptyRoot nestedBlobs := by
  refine ⟨emptyRoot_empty, shiftProvider_works, nestedBlobs_puttable, ?_⟩
  intro hputs
  have hfree := (hputs.headersFree shiftProvider_works emptyRoot_empty nestedBlobs_puttable).1
  exact hfree _ (List.mem_cons_self ..) _ (List.mem_cons_of_mem _ (List.mem_cons_self ..))
    (by decide)

def siblingBlobs : List BlobInput :=
  [BlobInput.new ['a'] (Reader.ofBytes [1]), BlobInput.new ['b', '/', 'a'] (Reader.ofBytes [2])]

theorem putsEach_iff_headersFree_siblings :
    PutsEach (onFs sampleFs shiftProvider defaultHeaderSuffix) emptyRoot siblingBlobs := by
  refine (putsEach_iff_headersFree shiftProvider_works emptyRoot_empty
    ⟨by decide, ?_, by decide, by decide⟩).mpr ⟨?_, ?_⟩
  · unfold AcceptsPut
    decide
  · unfold HeadersFree
    decide
  · unfold ObjectsNameable Nameable
    decide

end Samples

end EncryptedBlobStore

end BlobStorage
