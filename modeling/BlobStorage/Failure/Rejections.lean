import BlobStorage.Backend.Fs.Headers
import BlobStorage.Backend.S3.Uploads
import BlobStorage.Commuting.Layers
import BlobStorage.Stack

/-!
# Rejected batches

Each layer checks the keys it is given before it passes anything on, and it is given the keys
that the layers above it derive. An encryption layer passes its objects on one at a time, so a
key that is refused below it can be refused after others have been written.
-/

namespace BlobStorage

open Fallible Posix FileTree

/-- The layers that derive keys. -/
inductive Level where
  | keyPrefix (start : Key)
  | encryption (headerSuffix : Key)
  deriving DecidableEq, Repr

def Layer.level {m : Type → Type} : Layer m → Option Level
  | .keyPrefix start => some (.keyPrefix start)
  | .encryption _ headerSuffix => some (.encryption headerSuffix)
  | .cleanup _ _ => none

/-- What a stack refuses: `Accepts` is a key that no layer refuses, nor any key derived from it,
and `Whole` is a batch that, if it is refused, is refused before anything was written. -/
structure Screen where
  Accepts : Key → Prop
  Whole : List Key → Prop

/-- The backend checks a whole batch first. -/
def Screen.backend : Screen where
  Accepts := ValidKey
  Whole _ := True

/-- What a layer refuses, given what is refused below it. -/
def Level.screen (below : Screen) : Level → Screen
  | .keyPrefix start =>
      { Accepts := fun key =>
          (ValidKey key ∧ ValidKey (start ++ key)) ∧ below.Accepts (start ++ key)
        Whole := fun keys => (∀ key ∈ keys, ValidKey key ∧ ValidKey (start ++ key)) →
          below.Whole (keys.map (start ++ ·)) }
  | .encryption headerSuffix =>
      { Accepts := fun key =>
          AcceptsPut headerSuffix key ∧ below.Accepts key ∧ below.Accepts (key ++ headerSuffix)
        Whole := fun keys => (∀ key ∈ keys, AcceptsPut headerSuffix key) →
          (∀ key ∈ keys, below.Accepts key ∧ below.Accepts (key ++ headerSuffix)) ∨
            ∃ key ∈ keys.head?, ¬below.Accepts key ∧ below.Whole [key] }

/-- What a stack refuses, of layers in the order in which they were added. -/
def screenOf (levels : List Level) : Screen := levels.foldl Level.screen .backend

variable {σ : Type} {objects : σ → PlainMap} {store : BlobStore (StateM σ)} {screen : Screen}

/-- The error does not say that the input was refused. -/
abbrev NeverInvalid {α : Type} (x : Fallible (StateM σ) α) : Prop :=
  FailsOnlyWith (fun e => ¬e.IsInvalidInput) x

/-- A store refuses what the screen says. -/
structure Screens (store : BlobStore (StateM σ)) (objects : σ → PlainMap) (screen : Screen) :
    Prop where
  accepted : ∀ {s t blobs result}, exec (store.put blobs) s = (.ok result, t) →
    ∀ blob ∈ blobs, screen.Accepts blob.key
  neverInvalid : ∀ {blobs}, (∀ blob ∈ blobs, screen.Accepts blob.key) →
    NeverInvalid (store.put blobs)
  unchanged : ∀ {s t blobs e}, screen.Whole (blobs.map BlobInput.key) →
    exec (store.put blobs) s = (.error e, t) → e.IsInvalidInput → objects t = objects s

section Backends

/-- A put that checks its keys and is then never refused. -/
theorem screens_of_checkKeys {put : List BlobInput → Fallible (StateM σ) PutResult}
    (hput : ∀ blobs, store.put blobs = do
      checkKeys (blobs.map BlobInput.key)
      put blobs)
    (hnever : ∀ blobs, (∀ blob ∈ blobs, ValidKey blob.key) → NeverInvalid (put blobs)) :
    Screens store objects .backend := by
  have hchecked : ∀ {blobs : List BlobInput} {s : σ}, (∀ blob ∈ blobs, ValidKey blob.key) →
      exec (checkKeys (blobs.map BlobInput.key) : Fallible (StateM σ) Unit) s = (.ok (), s) :=
    fun hvalid => exec_checkKeys_of_valid _ (by simpa using hvalid)
  have hrefused : ∀ {blobs : List BlobInput} (s : σ), (¬∀ blob ∈ blobs, ValidKey blob.key) →
      ∃ e, e.IsInvalidInput ∧ exec (store.put blobs) s = (.error e, s) := by
    intro blobs s hvalid
    have hkeys : ¬∀ key ∈ blobs.map BlobInput.key, ValidKey key := by simpa using hvalid
    obtain ⟨e, he, hcheck⟩ := exec_checkKeys_of_not_valid s hkeys
    exact ⟨e, he, by rw [hput, exec_bind_error hcheck]⟩
  constructor
  · intro s t blobs result hexec
    by_contra hvalid
    obtain ⟨e, _, herror⟩ := hrefused s hvalid
    rw [hexec] at herror
    cases herror
  · intro blobs hvalid s t e hexec
    rw [hput, exec_bind_ok (hchecked hvalid)] at hexec
    exact hnever blobs hvalid _ _ _ hexec
  · intro s t blobs e _ hexec he
    by_cases hvalid : ∀ blob ∈ blobs, ValidKey blob.key
    · rw [hput, exec_bind_ok (hchecked hvalid)] at hexec
      exact absurd he (hnever blobs hvalid _ _ _ hexec)
    · obtain ⟨e', _, herror⟩ := hrefused s hvalid
      rw [hexec] at herror
      cases herror
      rfl

namespace FsBlobStore

variable (self : FsBlobStore)

theorem neverInvalid_call {α : Type} (r : Except Errno α) :
    NeverInvalid (call r : Fallible (StateM FsState) α) := by
  cases r with
  | ok a => exact .pure a
  | error e => exact .throw nofun

theorem neverInvalid_ensureRoot : NeverInvalid self.ensureRoot := by
  refine .bind .getState fun s => ?_
  split
  · exact .pure ()
  · exact .throw nofun
  · split
    · exact .throw nofun
    · exact .throw nofun

theorem neverInvalid_createDirAll (path : Path) : NeverInvalid (self.createDirAll path) :=
  .bind .getState fun _ => .bind (.setState _) fun _ => neverInvalid_call _

theorem neverInvalid_writeFile (path : Path) (content : Bytes) :
    NeverInvalid (self.writeFile path content) :=
  .bind .getState fun _ => .bind (neverInvalid_call _) fun _ => .setState _

theorem neverInvalid_putBlobs {blobs : List BlobInput}
    (hvalid : ∀ blob ∈ blobs, ValidKey blob.key) : NeverInvalid (self.putBlobs blobs) := by
  induction blobs with
  | nil => exact .pure []
  | cons blob rest ih =>
      rw [List.forall_mem_cons] at hvalid
      rw [putBlobs, keyToPath_of_valid self hvalid.1]
      refine .bind (.pure _) fun path => ?_
      extract_lets written
      have hwritten : ∀ made, NeverInvalid (written made) := by
        intro made
        refine .bind (self.neverInvalid_writeFile path []) fun _ => ?_
        cases blob.data.readToEnd with
        | error e =>
            exact .bind .getState fun _ =>
              .bind (self.neverInvalid_writeFile path _) fun _ => .throw id
        | ok content =>
            exact .bind (self.neverInvalid_writeFile path _) fun _ => .bind .getState fun _ =>
              .bind (neverInvalid_call _) fun _ => .bind (ih hvalid.2) fun _ => .pure _
      cases parent path with
      | none => exact hwritten ()
      | some dir => exact .bind (self.neverInvalid_createDirAll dir) hwritten

theorem screens (objects : FsState → PlainMap) : Screens self.toBlobStore objects .backend := by
  refine screens_of_checkKeys (fun _ => rfl) fun blobs hvalid => ?_
  exact .bind self.neverInvalid_ensureRoot fun _ =>
    .bind (self.neverInvalid_putBlobs hvalid) fun _ => .pure _

end FsBlobStore

namespace S3BlobStore

variable (self : S3BlobStore (StateM σ))

theorem not_isInvalidInput_requestError (message : String) (e : SdkError) :
    ¬(self.requestError message e).IsInvalidInput := by
  unfold requestError
  split
  · exact nofun
  · exact nofun

theorem neverInvalid_request (q : S3Request) (message : String) :
    NeverInvalid (self.request q message) := by
  intro s t e hexec
  have hresponse : exec (self.request q message) s =
      ((self.send q s).1.mapError (self.requestError message), (self.send q s).2) := rfl
  rw [hresponse] at hexec
  cases hsent : (self.send q s).1 with
  | ok a =>
      rw [hsent] at hexec
      cases hexec
  | error fault =>
      rw [hsent] at hexec
      cases hexec
      exact self.not_isInvalidInput_requestError message fault

theorem neverInvalid_startMultipart (key : Key) : NeverInvalid (self.startMultipart key) := by
  refine .bind (self.neverInvalid_request _ _) fun uploadId => ?_
  split
  · exact .pure _
  · exact .throw nofun

theorem neverInvalid_abortUpload (key : Key) (uploadId : String) :
    NeverInvalid (self.abortUpload key uploadId) :=
  .bind (.perform _) fun _ => .pure ()

theorem neverInvalid_uploadParts (key : Key) (uploadId : String) (number : Nat) (reader : Reader) :
    NeverInvalid (self.uploadParts key uploadId number reader) := by
  induction hlength : reader.bytes.length using Nat.strong_induction_on
    generalizing number reader with
  | _ length ih =>
  subst hlength
  rw [uploadParts]
  split
  · exact .bind (self.neverInvalid_abortUpload key uploadId) fun _ => .throw nofun
  · next buffer rest hread =>
      split
      · exact .pure _
      · next hbuffer =>
          have hpositive : 0 < self.partSize := Nat.lt_of_lt_of_le (by decide) self.minPartSize
          have hshorter := readPart_shorter hpositive hread hbuffer
          refine .bind (.perform _) fun response => ?_
          split
          · exact .bind (ih _ hshorter _ rest rfl) fun _ => .pure _
          · exact .bind (self.neverInvalid_abortUpload key uploadId) fun _ =>
              .throw (self.not_isInvalidInput_requestError _ _)

variable [Clock (StateM σ)]

theorem neverInvalid_putObject (key : Key) (data : Bytes) :
    NeverInvalid (self.putObject key data) :=
  .bind (self.neverInvalid_request _ _) fun _ => .bind (.perform _) fun _ => .pure _

theorem neverInvalid_uploadMultipart (key : Key) (reader : Reader) :
    NeverInvalid (self.uploadMultipart key reader) :=
  .bind (self.neverInvalid_startMultipart key) fun uploadId =>
    .bind (self.neverInvalid_uploadParts key uploadId 1 reader) fun _ =>
      .bind (self.neverInvalid_request _ _) fun _ => .bind (.perform _) fun _ => .pure _

theorem neverInvalid_putBlobs (blobs : List BlobInput) : NeverInvalid (self.putBlobs blobs) := by
  induction blobs with
  | nil => exact .pure []
  | cons blob rest ih =>
      rw [putBlobs]
      split
      · exact .throw id
      · next lookahead reader _ =>
          split
          · exact .bind (self.neverInvalid_putObject blob.key lookahead) fun _ =>
              .bind ih fun _ => .pure _
          · exact .bind (self.neverInvalid_uploadMultipart blob.key _) fun _ =>
              .bind ih fun _ => .pure _

theorem screens (objects : σ → PlainMap) : Screens self.toBlobStore objects .backend := by
  refine screens_of_checkKeys (fun _ => rfl) fun blobs _ => ?_
  exact .bind (self.neverInvalid_putBlobs blobs) fun _ => .pure _

end S3BlobStore

end Backends

section Levels

variable {below : Screen}

namespace PrefixBlobStore

variable {self : PrefixBlobStore (StateM σ)}

theorem exec_put_of_accepted {blobs : List BlobInput}
    (h : ∀ key ∈ blobs.map BlobInput.key, ValidKey key ∧ ValidKey (self.keyPrefix ++ key)) (s : σ) :
    exec (self.put blobs) s = exec (do
      let result ← self.inner.put (blobs.map (BlobInput.under self.keyPrefix))
      pure { blobs := result.blobs.map (BlobMeta.stripped self.keyPrefix) }) s := by
  rw [put, exec_bind_ok (exec_prefixedAll self h s), entriesOf_prefixed]
  rfl

theorem exec_put_of_not_accepted {blobs : List BlobInput}
    (h : ¬∀ key ∈ blobs.map BlobInput.key, ValidKey key ∧ ValidKey (self.keyPrefix ++ key))
    (s : σ) : ∃ e, e.IsInvalidInput ∧ exec (self.put blobs) s = (.error e, s) := by
  obtain ⟨e, he, hprefixed⟩ := exec_prefixedAll_of_not_accepted h s
  exact ⟨e, he, exec_bind_error hprefixed⟩

theorem screens (h : Screens self.inner objects below) :
    Screens self.toBlobStore objects (Level.screen below (.keyPrefix self.keyPrefix)) := by
  constructor
  · intro s t blobs result hexec
    change exec (self.put blobs) s = _ at hexec
    by_cases haccepted : ∀ key ∈ blobs.map BlobInput.key,
        ValidKey key ∧ ValidKey (self.keyPrefix ++ key)
    · rw [exec_put_of_accepted haccepted] at hexec
      obtain ⟨_, u, hbelow, _⟩ := exec_bind_eq_ok.mp hexec
      intro blob hblob
      exact ⟨haccepted _ (List.mem_map_of_mem hblob),
        h.accepted hbelow _ (List.mem_map_of_mem hblob)⟩
    · obtain ⟨e, _, herror⟩ := exec_put_of_not_accepted haccepted s
      rw [hexec] at herror
      cases herror
  · intro blobs haccepts s t e hexec
    change exec (self.put blobs) s = _ at hexec
    have haccepted : ∀ key ∈ blobs.map BlobInput.key,
        ValidKey key ∧ ValidKey (self.keyPrefix ++ key) := by
      simpa using fun blob hblob => (haccepts blob hblob).1
    have hbelow : ∀ blob ∈ blobs.map (BlobInput.under self.keyPrefix), below.Accepts blob.key :=
      List.forall_mem_map.mpr fun blob hblob => (haccepts blob hblob).2
    rw [exec_put_of_accepted haccepted] at hexec
    exact FailsOnlyWith.bind (h.neverInvalid hbelow) (fun _ => .pure _) s t e hexec
  · intro s t blobs e hwhole hexec he
    change exec (self.put blobs) s = _ at hexec
    by_cases haccepted : ∀ key ∈ blobs.map BlobInput.key,
        ValidKey key ∧ ValidKey (self.keyPrefix ++ key)
    · have hbelow :
          below.Whole ((blobs.map (BlobInput.under self.keyPrefix)).map BlobInput.key) := by
        have hkeys := hwhole haccepted
        rw [List.map_map] at hkeys ⊢
        exact hkeys
      rw [exec_put_of_accepted haccepted, exec_bind_eq_error] at hexec
      obtain hbelow' | ⟨_, _, _, hpure⟩ := hexec
      · exact h.unchanged hbelow hbelow' he
      · cases hpure
    · obtain ⟨_, _, herror⟩ := exec_put_of_not_accepted haccepted s
      rw [hexec] at herror
      cases herror
      rfl

end PrefixBlobStore

namespace EncryptedBlobStore

variable {self : EncryptedBlobStore (StateM σ)}

theorem exec_put_of_accepted {blobs : List BlobInput}
    (h : ∀ key ∈ blobs.map BlobInput.key, AcceptsPut self.headerSuffix key) (s : σ) :
    exec (self.put blobs) s = exec (do
      let infos ← self.putBlobs blobs
      pure { blobs := infos }) s := by
  rw [put, exec_bind_ok (exec_checkPutKeys h s)]

theorem exec_put_of_not_accepted {blobs : List BlobInput}
    (h : ¬∀ key ∈ blobs.map BlobInput.key, AcceptsPut self.headerSuffix key)
    (s : σ) : ∃ e, e.IsInvalidInput ∧ exec (self.put blobs) s = (.error e, s) := by
  obtain ⟨e, he, hchecked⟩ := exec_checkPutKeys_of_not_accepted self h s
  exact ⟨e, he, exec_bind_error hchecked⟩

theorem accepted_of_putBlobs (h : Screens self.inner objects below) {blobs : List BlobInput}
    {infos : List BlobMeta} {s t : σ} (hexec : exec (self.putBlobs blobs) s = (.ok infos, t)) :
    ∀ blob ∈ blobs, below.Accepts blob.key ∧ below.Accepts (blob.key ++ self.headerSuffix) := by
  induction blobs generalizing s t infos with
  | nil => exact nofun
  | cons blob rest ih =>
      rw [putBlobs, exec_bind_eq_ok] at hexec
      obtain ⟨_, u, hfirst, hothers⟩ := hexec
      obtain ⟨_, v, hrest, _⟩ := exec_bind_eq_ok.mp hothers
      obtain ⟨_, _, header, _, hdata, _, hheader, _⟩ := exec_putBlob_eq_ok hfirst
      refine List.forall_mem_cons.mpr ⟨⟨?_, ?_⟩, ih hrest⟩
      · exact h.accepted hdata (BlobInput.withSize ..) (List.mem_cons_self ..)
      · exact h.accepted hheader (BlobInput.withSize ..) (List.mem_cons_self ..)

/-- The put of one blob fails with the error of one of its two objects, or of the encryption. -/
theorem neverInvalid_putBlob (h : Screens self.inner objects below) {blob : BlobInput}
    (hdata : below.Accepts blob.key) (hheader : below.Accepts (blob.key ++ self.headerSuffix)) :
    NeverInvalid (self.putBlob blob) := by
  refine .bind (.perform _) fun run => ?_
  refine .bind (h.neverInvalid (List.forall_mem_singleton.mpr hdata)) fun _ => ?_
  split
  · next e hresult =>
      obtain ⟨message, source, rfl⟩ := EncryptRun.result_error hresult
      exact .bind (.attempt _) fun _ => .throw nofun
  · next header hresult =>
      intro s t e hexec
      rw [exec_bind_ok (exec_attempt s _)] at hexec
      cases hput : exec (self.inner.put [BlobInput.withSize (self.headerKey blob.key)
          (Reader.ofBytes header) header.length]) s with
      | mk r u =>
          rw [hput] at hexec
          cases r with
          | ok _ => cases hexec
          | error e' =>
              rw [exec_bind_ok (exec_attempt u _)] at hexec
              cases hexec
              exact h.neverInvalid (List.forall_mem_singleton.mpr hheader) _ _ _ hput

theorem neverInvalid_putBlobs (h : Screens self.inner objects below) {blobs : List BlobInput}
    (haccepts : ∀ blob ∈ blobs,
      below.Accepts blob.key ∧ below.Accepts (blob.key ++ self.headerSuffix)) :
    NeverInvalid (self.putBlobs blobs) := by
  induction blobs with
  | nil => exact .pure []
  | cons blob rest ih =>
      rw [List.forall_mem_cons] at haccepts
      exact .bind (neverInvalid_putBlob h haccepts.1.1 haccepts.1.2) fun _ =>
        .bind (ih haccepts.2) fun _ => .pure _

/-- A first data key that is refused as a whole ends the batch before anything was written. -/
theorem unchanged_of_first (h : Screens self.inner objects below)
    (hkeeps : ∀ s reader, objects (self.encryption.encryptStream reader s).2 = objects s)
    {blob : BlobInput} {rest : List BlobInput} (hrefused : ¬below.Accepts blob.key)
    (hwhole : below.Whole [blob.key]) {s t : σ} {e : BlobStorageError}
    (hexec : exec (self.putBlobs (blob :: rest)) s = (.error e, t)) (he : e.IsInvalidInput) :
    objects t = objects s := by
  rw [putBlobs, exec_bind, putBlob, exec_bind_ok (exec_perform s _)] at hexec
  cases hput : exec (self.inner.put [BlobInput.withSize blob.key
      (self.encryption.encryptStream blob.data s).1.reader (blob.sizeHint.getD 0)])
      (self.encryption.encryptStream blob.data s).2 with
  | mk r u =>
      cases r with
      | ok _ => exact absurd (List.forall_mem_singleton.mp (h.accepted hput)) hrefused
      | error e' =>
          rw [exec_bind_error hput] at hexec
          cases hexec
          have hsame := @Screens.unchanged _ _ _ _ h _ _ [BlobInput.withSize blob.key _ _] _ hwhole
            hput he
          exact hsame.trans (hkeeps s blob.data)

theorem screens (hkeeps : ∀ s reader, objects (self.encryption.encryptStream reader s).2 = objects s)
    (h : Screens self.inner objects below) :
    Screens self.toBlobStore objects (Level.screen below (.encryption self.headerSuffix)) := by
  constructor
  · intro s t blobs result hexec
    change exec (self.put blobs) s = _ at hexec
    by_cases haccepted : ∀ key ∈ blobs.map BlobInput.key, AcceptsPut self.headerSuffix key
    · rw [exec_put_of_accepted haccepted] at hexec
      obtain ⟨_, u, hputs, _⟩ := exec_bind_eq_ok.mp hexec
      intro blob hblob
      exact ⟨haccepted _ (List.mem_map_of_mem hblob), accepted_of_putBlobs h hputs blob hblob⟩
    · obtain ⟨e, _, herror⟩ := exec_put_of_not_accepted haccepted s
      rw [hexec] at herror
      cases herror
  · intro blobs haccepts s t e hexec
    change exec (self.put blobs) s = _ at hexec
    have haccepted : ∀ key ∈ blobs.map BlobInput.key, AcceptsPut self.headerSuffix key :=
      List.forall_mem_map.mpr fun blob hblob => (haccepts blob hblob).1
    rw [exec_put_of_accepted haccepted] at hexec
    exact FailsOnlyWith.bind (neverInvalid_putBlobs h fun blob hblob => (haccepts blob hblob).2)
      (fun _ => .pure _) s t e hexec
  · intro s t blobs e hwhole hexec he
    change exec (self.put blobs) s = _ at hexec
    by_cases haccepted : ∀ key ∈ blobs.map BlobInput.key, AcceptsPut self.headerSuffix key
    · rw [exec_put_of_accepted haccepted, exec_bind_eq_error] at hexec
      obtain hputs | ⟨_, _, _, hpure⟩ := hexec
      swap
      · cases hpure
      obtain hall | ⟨key, hfirst, hrefused, hbelow⟩ := hwhole haccepted
      · have hnever := neverInvalid_putBlobs h (List.forall_mem_map.mp hall)
        exact absurd he (hnever s t e hputs)
      · cases blobs with
        | nil => cases hfirst
        | cons blob rest =>
            cases hfirst
            exact unchanged_of_first h hkeeps hrefused hbelow hputs he
    · obtain ⟨_, _, herror⟩ := exec_put_of_not_accepted haccepted s
      rw [hexec] at herror
      cases herror
      rfl

end EncryptedBlobStore

/-- The provider of an encryption layer leaves the objects alone. -/
def Layer.KeepsObjects (objects : σ → PlainMap) : Layer (StateM σ) → Prop
  | .encryption provider _ => ∀ s reader, objects (provider.encryptStream reader s).2 = objects s
  | _ => True

/-- A stack refuses what the layers and the backend together refuse. -/
theorem screens_applyLayers {backend : BlobStore (StateM σ)} {layers : List (Layer (StateM σ))}
    {levels : List Level} (hlevels : layers.map Layer.level = levels.map some)
    (hkeeps : ∀ layer ∈ layers, layer.KeepsObjects objects)
    (hbackend : Screens backend objects below) :
    Screens (applyLayers backend layers) objects (levels.foldl Level.screen below) := by
  induction layers generalizing backend below levels with
  | nil =>
      obtain rfl := List.map_eq_nil_iff.mp hlevels.symm
      exact hbackend
  | cons layer rest ih =>
      cases levels with
      | nil => cases hlevels
      | cons level levels =>
          rw [List.forall_mem_cons] at hkeeps
          rw [List.map_cons, List.map_cons, List.cons.injEq] at hlevels
          rw [applyLayers_cons, List.foldl_cons]
          apply ih hlevels.2 hkeeps.2
          cases layer with
          | keyPrefix start =>
              cases hlevels.1
              exact @PrefixBlobStore.screens _ _ _ { inner := _, keyPrefix := start } hbackend
          | encryption provider headerSuffix =>
              cases hlevels.1
              exact @EncryptedBlobStore.screens _ _ _
                { inner := _, encryption := provider, headerSuffix } hkeeps.1 hbackend
          | cleanup predicate batchSize => cases hlevels.1

end Levels

end BlobStorage
