import BlobStorage.Failure.Rejections

/-!
# Batches refused halfway

A screen says exactly which batches are refused as a whole. A batch that is not is tried on a
bucket: with its first object under way, what the bucket then holds does not depend on what that
object was before, so there is a bucket that the refused batch has changed.
-/

namespace BlobStorage

open Fallible Posix FileTree

section Bucket

/-- A bucket that holds whole objects, and takes no upload in parts. -/
def bucketSend : (q : S3Request) → StateM PlainMap q.Response
  | .putObject key body => fun M => (.ok none, KeyMap.insertAll M [(key, body)])
  | .getObject key => fun M =>
      match M key with
      | some content => (.ok
          { body := Reader.ofBytes content, contentLength := some content.length,
            eTag := none, lastModified := none }, M)
      | none => (.error { code := some "NoSuchKey" }, M)
  | .headObject key => fun M =>
      (if (M key).isSome then .ok () else .error { code := some "NotFound" }, M)
  | .deleteObjects keys => fun M =>
      (.ok { deleted := keys.map some, errors := [] }, KeyMap.removeAll M keys)
  | _ => fun M => (.error { code := none }, M)

instance : Clock (StateM PlainMap) where
  utcNow := pure 0

def bucket : S3BlobStore (StateM PlainMap) := S3BlobStore.new bucketSend "blobs" 1

/-- A blob that is put in one request. -/
structure Small (blob : BlobInput) : Prop where
  healthy : blob.data.failure = none
  short : blob.data.bytes.length < minMultipartPartSize

/-- What a store over the bucket does: accepted blobs are put whatever the bucket holds, a batch
with a key that is not accepted is refused, and there is a bucket that is changed by the refused
batch if it is not one that is refused as a whole. -/
structure Obeys (store : BlobStore (StateM PlainMap)) (screen : Screen) : Prop where
  puts : ∀ {blobs}, (∀ blob ∈ blobs, Small blob) → (∀ blob ∈ blobs, screen.Accepts blob.key) →
    ∃ result entries, (blobs ≠ [] → entries ≠ []) ∧
      ∀ M, exec (store.put blobs) M = (.ok result, KeyMap.insertAll M entries)
  refuses : ∀ {blobs}, (∀ blob ∈ blobs, Small blob) → (¬∀ blob ∈ blobs, screen.Accepts blob.key) →
    ∀ M, ∃ e N, e.IsInvalidInput ∧ exec (store.put blobs) M = (.error e, N)
  spoils : ∀ {blobs}, (∀ blob ∈ blobs, Small blob) →
    ¬screen.Whole (blobs.map BlobInput.key) →
      ∃ M e N, e.IsInvalidInput ∧ exec (store.put blobs) M = (.error e, N) ∧ N ≠ M

/-- A small stream is in the lookahead as a whole. -/
theorem fillLookahead_of_small {blob : BlobInput} (h : Small blob) :
    ∃ rest, S3BlobStore.fillLookahead [] blob.data = .ok (blob.data.bytes, rest) := by
  obtain ⟨lookahead, rest, hfill, _, hwhole, hend⟩ :=
    @S3BlobStore.fillLookahead_of_unbroken [] blob.data h.healthy
  rw [List.nil_append] at hwhole
  have hshort : lookahead.length < minMultipartPartSize := by
    have hlength := congrArg List.length hwhole
    rw [List.length_append] at hlength
    have hbytes := h.short
    omega
  rw [hend hshort, List.append_nil] at hwhole
  exact ⟨rest, hwhole ▸ hfill⟩

theorem exec_bucket_putBlobs {blobs : List BlobInput} (hsmall : ∀ blob ∈ blobs, Small blob) :
    ∃ infos, ∀ M, exec (bucket.putBlobs blobs) M =
      (.ok infos, KeyMap.insertAll M (entriesOf blobs)) := by
  induction blobs with
  | nil => exact ⟨[], fun _ => rfl⟩
  | cons blob rest ih =>
      rw [List.forall_mem_cons] at hsmall
      obtain ⟨others, hothers⟩ := ih hsmall.2
      obtain ⟨reader, hfill⟩ := fillLookahead_of_small hsmall.1
      obtain ⟨info, hput⟩ : ∃ info, ∀ M, exec (bucket.putObject blob.key blob.data.bytes) M =
          (.ok info, KeyMap.insertAll M [(blob.key, blob.data.bytes)]) := ⟨_, fun _ => rfl⟩
      refine ⟨info :: others, fun M => ?_⟩
      rw [S3BlobStore.putBlobs, hfill]
      dsimp only
      rw [if_pos hsmall.1.short, exec_bind_ok (hput M), exec_bind_ok (hothers _)]
      rfl

theorem obeys_bucket : Obeys bucket.toBlobStore .backend := by
  constructor
  · intro blobs hsmall hvalid
    obtain ⟨infos, hinfos⟩ := exec_bucket_putBlobs hsmall
    refine ⟨{ blobs := infos }, entriesOf blobs, fun hne hnone => ?_, fun M => ?_⟩
    · exact hne (List.map_eq_nil_iff.mp hnone)
    · change exec (bucket.put blobs) M = _
      have hkeys : ∀ key ∈ blobs.map BlobInput.key, ValidKey key := List.forall_mem_map.mpr hvalid
      rw [S3BlobStore.put, exec_bind_ok (exec_checkKeys_of_valid M hkeys),
        exec_bind_ok (hinfos M)]
      rfl
  · intro blobs _ hvalid M
    have hkeys : ¬∀ key ∈ blobs.map BlobInput.key, ValidKey key := fun hall =>
      hvalid (List.forall_mem_map.mp hall)
    obtain ⟨e, he, hcheck⟩ := exec_checkKeys_of_not_valid M hkeys
    exact ⟨e, M, he, exec_bind_error hcheck⟩
  · exact fun _ hwhole => absurd trivial hwhole

end Bucket

section Levels

variable {below : Screen}

theorem PrefixBlobStore.obeys {self : PrefixBlobStore (StateM PlainMap)}
    (h : Obeys self.inner below) :
    Obeys self.toBlobStore (Level.screen below (.keyPrefix self.keyPrefix)) := by
  have hsmallBelow : ∀ {blobs : List BlobInput}, (∀ blob ∈ blobs, Small blob) →
      ∀ blob ∈ blobs.map (BlobInput.under self.keyPrefix), Small blob := fun hsmall =>
    List.forall_mem_map.mpr fun blob hblob => ⟨(hsmall blob hblob).healthy, (hsmall blob hblob).short⟩
  constructor
  · intro blobs hsmall haccepts
    have haccepted : ∀ key ∈ blobs.map BlobInput.key,
        ValidKey key ∧ ValidKey (self.keyPrefix ++ key) :=
      List.forall_mem_map.mpr fun blob hblob => (haccepts blob hblob).1
    obtain ⟨result, entries, hne, hput⟩ := h.puts (hsmallBelow hsmall)
      (List.forall_mem_map.mpr fun blob hblob => (haccepts blob hblob).2)
    refine ⟨{ blobs := result.blobs.map (BlobMeta.stripped self.keyPrefix) }, entries,
      fun hblobs => hne (by simpa using hblobs), fun M => ?_⟩
    change exec (self.put blobs) M = _
    rw [exec_put_of_accepted haccepted, exec_bind_ok (hput M)]
    rfl
  · intro blobs hsmall hrefused M
    change ∃ e N, e.IsInvalidInput ∧ exec (self.put blobs) M = (.error e, N)
    by_cases haccepted : ∀ key ∈ blobs.map BlobInput.key,
        ValidKey key ∧ ValidKey (self.keyPrefix ++ key)
    · obtain ⟨e, N, he, hput⟩ := h.refuses (hsmallBelow hsmall) (fun hall => hrefused fun blob hblob =>
        ⟨haccepted _ (List.mem_map_of_mem hblob), hall _ (List.mem_map_of_mem hblob)⟩) M
      exact ⟨e, N, he, by rw [exec_put_of_accepted haccepted, exec_bind_error hput]⟩
    · obtain ⟨e, he, hput⟩ := exec_put_of_not_accepted haccepted M
      exact ⟨e, M, he, hput⟩
  · intro blobs hsmall hwhole
    obtain ⟨haccepted, hbelow⟩ := Classical.not_imp.mp hwhole
    obtain ⟨M, e, N, he, hput, hne⟩ := h.spoils (hsmallBelow hsmall) (by
      rw [List.map_map] at hbelow ⊢
      exact hbelow)
    refine ⟨M, e, N, he, ?_, hne⟩
    change exec (self.put blobs) M = _
    rw [exec_put_of_accepted haccepted, exec_bind_error hput]

namespace EncryptedBlobStore

/-- The encryption layer of the tests over a store on the bucket. -/
abbrev shifting (inner : BlobStore (StateM PlainMap)) (headerSuffix : Key) :
    EncryptedBlobStore (StateM PlainMap) :=
  { inner, encryption := RekeyableShiftEncryption.toProvider ⟨3, 0⟩, headerSuffix }

variable {inner : BlobStore (StateM PlainMap)} {headerSuffix : Key} {blob : BlobInput}
variable {blobs : List BlobInput}

/-- The run of the encryption of a stream that does not break off. -/
def shiftRun (blob : BlobInput) : EncryptRun where
  written := blob.data.bytes.map (· + 3)
  outcome := .header (RekeyableShiftEncryption.wrapDek 0 3)

def dataObject (blob : BlobInput) : BlobInput :=
  BlobInput.withSize blob.key (shiftRun blob).reader (blob.sizeHint.getD 0)

def headerObject (headerSuffix : Key) (blob : BlobInput) : BlobInput :=
  BlobInput.withSize (blob.key ++ headerSuffix)
    (Reader.ofBytes (RekeyableShiftEncryption.wrapDek 0 3)) 2

theorem small_dataObject (h : Small blob) : Small (dataObject blob) := by
  refine ⟨rfl, ?_⟩
  show (blob.data.bytes.map (· + 3)).length < _
  rw [List.length_map]
  exact h.short

theorem small_headerObject : Small (headerObject headerSuffix blob) := by
  refine ⟨rfl, ?_⟩
  show 2 < minMultipartPartSize
  decide

theorem encryptStream_shifting (h : Small blob) (M : PlainMap) :
    (shifting inner headerSuffix).encryption.encryptStream blob.data M = (shiftRun blob, M) := by
  have hread : blob.data.readToEnd = .ok blob.data.bytes :=
    Reader.readToEnd_eq_ok_iff.mpr ⟨h.healthy, rfl⟩
  show (RekeyableShiftEncryption.encryptStream ⟨3, 0⟩ blob.data, M) = _
  rw [RekeyableShiftEncryption.encryptStream, hread]
  rfl

/-- What happens to a blob is up to what happens to its two objects. -/
theorem exec_putBlob_shifting (h : Small blob) (M : PlainMap) :
    exec ((shifting inner headerSuffix).putBlob blob) M = exec (do
      let result ← inner.put [dataObject blob]
      match ← attempt (inner.put [headerObject headerSuffix blob]) with
      | .error e =>
          let _ ← attempt (inner.delete [blob.key])
          throw e
      | .ok _ => pure (result.blobs.filter fun info => decide ¬headerSuffix <:+ info.key)) M := by
  rw [putBlob, exec_bind_ok (exec_perform M _), encryptStream_shifting h]
  rfl

variable (h : Obeys inner below)

include h

theorem puts_putBlob (hsmall : Small blob) (hdata : below.Accepts blob.key)
    (hheader : below.Accepts (blob.key ++ headerSuffix)) :
    ∃ infos entries, entries ≠ [] ∧ ∀ M, exec ((shifting inner headerSuffix).putBlob blob) M =
      (.ok infos, KeyMap.insertAll M entries) := by
  obtain ⟨result, entries, hne, hput⟩ := @Obeys.puts _ _ h [dataObject blob]
    (List.forall_mem_singleton.mpr (small_dataObject hsmall))
    (List.forall_mem_singleton.mpr hdata)
  obtain ⟨headerResult, headerEntries, _, hheaderPut⟩ :=
    @Obeys.puts _ _ h [headerObject headerSuffix blob]
      (List.forall_mem_singleton.mpr small_headerObject) (List.forall_mem_singleton.mpr hheader)
  refine ⟨result.blobs.filter fun info => decide ¬headerSuffix <:+ info.key,
    entries ++ headerEntries, fun hnil => ?_, fun M => ?_⟩
  · exact hne nofun (List.append_eq_nil_iff.mp hnil).1
  · rw [exec_putBlob_shifting hsmall, exec_bind_ok (hput M), exec_bind_ok (exec_attempt _ _),
      hheaderPut, KeyMap.insertAll_append]
    rfl

theorem refuses_putBlob (hsmall : Small blob)
    (hrefused : ¬(below.Accepts blob.key ∧ below.Accepts (blob.key ++ headerSuffix)))
    (M : PlainMap) :
    ∃ e N, e.IsInvalidInput ∧ exec ((shifting inner headerSuffix).putBlob blob) M =
      (.error e, N) := by
  have hsmallData := List.forall_mem_singleton.mpr (small_dataObject hsmall)
  by_cases hdata : below.Accepts blob.key
  · obtain ⟨result, entries, _, hput⟩ := @Obeys.puts _ _ h [dataObject blob] hsmallData
      (List.forall_mem_singleton.mpr hdata)
    obtain ⟨e, N, he, hheaderPut⟩ := @Obeys.refuses _ _ h [headerObject headerSuffix blob]
      (List.forall_mem_singleton.mpr small_headerObject)
      (fun hall => hrefused ⟨hdata, hall (headerObject headerSuffix blob) (List.mem_cons_self ..)⟩)
      (KeyMap.insertAll M entries)
    refine ⟨e, (exec (attempt (inner.delete [blob.key])) N).2, he, ?_⟩
    rw [exec_putBlob_shifting hsmall, exec_bind_ok (hput M), exec_bind_ok (exec_attempt _ _),
      hheaderPut]
    rfl
  · obtain ⟨e, N, he, hput⟩ := @Obeys.refuses _ _ h [dataObject blob] hsmallData
      (fun hall => hdata (hall (dataObject blob) (List.mem_cons_self ..))) M
    exact ⟨e, N, he, by rw [exec_putBlob_shifting hsmall, exec_bind_error hput]⟩

theorem puts_putBlobs (hsmall : ∀ blob ∈ blobs, Small blob)
    (haccepts : ∀ blob ∈ blobs, below.Accepts blob.key ∧ below.Accepts (blob.key ++ headerSuffix)) :
    ∃ infos entries, (blobs ≠ [] → entries ≠ []) ∧
      ∀ M, exec ((shifting inner headerSuffix).putBlobs blobs) M =
        (.ok infos, KeyMap.insertAll M entries) := by
  induction blobs with
  | nil => exact ⟨[], [], fun hne => absurd rfl hne, fun _ => rfl⟩
  | cons blob rest ih =>
      rw [List.forall_mem_cons] at hsmall haccepts
      obtain ⟨infos, entries, hne, hput⟩ :=
        @puts_putBlob _ _ headerSuffix _ h hsmall.1 haccepts.1.1 haccepts.1.2
      obtain ⟨others, otherEntries, _, hrest⟩ := ih hsmall.2 haccepts.2
      refine ⟨infos ++ others, entries ++ otherEntries, fun _ hnil => ?_, fun M => ?_⟩
      · exact hne (List.append_eq_nil_iff.mp hnil).1
      · rw [putBlobs, exec_bind_ok (hput M), exec_bind_ok (hrest _), KeyMap.insertAll_append]
        rfl

theorem refuses_putBlobs (hsmall : ∀ blob ∈ blobs, Small blob)
    (hrefused : ¬∀ blob ∈ blobs,
      below.Accepts blob.key ∧ below.Accepts (blob.key ++ headerSuffix)) (M : PlainMap) :
    ∃ e N, e.IsInvalidInput ∧ exec ((shifting inner headerSuffix).putBlobs blobs) M =
      (.error e, N) := by
  induction blobs generalizing M with
  | nil => exact absurd (fun _ hblob => by cases hblob) hrefused
  | cons blob rest ih =>
      rw [List.forall_mem_cons] at hsmall
      rw [putBlobs]
      by_cases hfirst : below.Accepts blob.key ∧ below.Accepts (blob.key ++ headerSuffix)
      · obtain ⟨infos, entries, _, hput⟩ :=
          @puts_putBlob _ _ headerSuffix _ h hsmall.1 hfirst.1 hfirst.2
        obtain ⟨e, N, he, hrest⟩ := ih hsmall.2
          (fun hall => hrefused (List.forall_mem_cons.mpr ⟨hfirst, hall⟩))
          (KeyMap.insertAll M entries)
        exact ⟨e, N, he, by rw [exec_bind_ok (hput M), exec_bind_error hrest]⟩
      · obtain ⟨e, N, he, hput⟩ := refuses_putBlob h hsmall.1 hfirst M
        exact ⟨e, N, he, exec_bind_error hput⟩

omit h in
/-- After the first data object the state of the bucket before it makes no difference. -/
theorem exec_putBlobs_eq_of_first {rest : List BlobInput} (hsmall : Small blob) {M M' : PlainMap}
    (hfirst : exec (inner.put [dataObject blob]) M = exec (inner.put [dataObject blob]) M') :
    exec ((shifting inner headerSuffix).putBlobs (blob :: rest)) M =
      exec ((shifting inner headerSuffix).putBlobs (blob :: rest)) M' := by
  rw [putBlobs, exec_bind, exec_bind, exec_putBlob_shifting hsmall, exec_putBlob_shifting hsmall,
    exec_bind _ (inner.put [dataObject blob]), hfirst, ← exec_bind]

/-- Once an object is under way, a refusal leaves a trace in one bucket or another. -/
theorem spoils_putBlobs_of_accepted {rest : List BlobInput}
    (hsmall : ∀ other ∈ blob :: rest, Small other) (hdata : below.Accepts blob.key)
    (hrefused : ¬∀ other ∈ blob :: rest,
      below.Accepts other.key ∧ below.Accepts (other.key ++ headerSuffix)) :
    ∃ M e N, e.IsInvalidInput ∧
      exec ((shifting inner headerSuffix).putBlobs (blob :: rest)) M = (.error e, N) ∧ N ≠ M := by
  have hsmallFirst := (List.forall_mem_cons.mp hsmall).1
  obtain ⟨result, entries, hne, hput⟩ := @Obeys.puts _ _ h [dataObject blob]
    (List.forall_mem_singleton.mpr (small_dataObject hsmallFirst))
    (List.forall_mem_singleton.mpr hdata)
  obtain ⟨⟨place, content⟩, hplace⟩ := List.exists_mem_of_ne_nil _ (hne nofun)
  -- Two buckets that differ in what the first object overwrites.
  have hplaces : place ∈ entries.map Prod.fst := List.mem_map_of_mem hplace
  have hsame := @exec_putBlobs_eq_of_first inner headerSuffix blob rest hsmallFirst
    (fun _ => none) (Function.update (fun _ => none) place (some []))
    (by rw [hput, hput, KeyMap.insertAll_update hplaces])
  obtain ⟨e, N, he, hexec⟩ := refuses_putBlobs h hsmall hrefused (fun _ => none)
  by_cases hkept : N = fun _ => none
  · refine ⟨_, e, N, he, hsame.symm.trans hexec, fun hother => ?_⟩
    have hboth := congrFun (hkept.symm.trans hother) place
    rw [Function.update_self] at hboth
    cases hboth
  · exact ⟨_, e, N, he, hexec, hkept⟩

theorem obeys : Obeys (shifting inner headerSuffix).toBlobStore
    (Level.screen below (.encryption headerSuffix)) := by
  constructor
  · intro blobs hsmall haccepts
    have haccepted : ∀ key ∈ blobs.map BlobInput.key, AcceptsPut headerSuffix key :=
      List.forall_mem_map.mpr fun blob hblob => (haccepts blob hblob).1
    obtain ⟨infos, entries, hne, hput⟩ := @puts_putBlobs _ _ headerSuffix _ h hsmall
      fun blob hblob => (haccepts blob hblob).2
    refine ⟨{ blobs := infos }, entries, hne, fun M => ?_⟩
    change exec ((shifting inner headerSuffix).put blobs) M = _
    rw [exec_put_of_accepted haccepted, exec_bind_ok (hput M)]
    rfl
  · intro blobs hsmall hrefused M
    change ∃ e N, e.IsInvalidInput ∧ exec ((shifting inner headerSuffix).put blobs) M = (.error e, N)
    by_cases haccepted : ∀ key ∈ blobs.map BlobInput.key, AcceptsPut headerSuffix key
    · obtain ⟨e, N, he, hput⟩ := @refuses_putBlobs _ _ headerSuffix _ h hsmall (fun hall =>
        hrefused fun blob hblob => ⟨haccepted _ (List.mem_map_of_mem hblob), hall blob hblob⟩) M
      exact ⟨e, N, he, by rw [exec_put_of_accepted haccepted, exec_bind_error hput]⟩
    · obtain ⟨e, he, hput⟩ :=
        @exec_put_of_not_accepted _ (shifting inner headerSuffix) _ haccepted M
      exact ⟨e, M, he, hput⟩
  · intro blobs hsmall hwhole
    obtain ⟨haccepted, hbelow⟩ := Classical.not_imp.mp hwhole
    rw [not_or] at hbelow
    obtain ⟨hrefused, hlater⟩ := hbelow
    have hspoiled : ∃ M e N, e.IsInvalidInput ∧
        exec ((shifting inner headerSuffix).putBlobs blobs) M = (.error e, N) ∧ N ≠ M := by
      cases blobs with
      | nil => exact absurd (fun _ hkey => by cases hkey) hrefused
      | cons blob rest =>
          by_cases hdata : below.Accepts blob.key
          · exact spoils_putBlobs_of_accepted h hsmall hdata fun hall =>
              hrefused (List.forall_mem_map.mpr hall)
          · have hfirst := (List.forall_mem_cons.mp hsmall).1
            obtain ⟨M, e, N, he, hput, hne⟩ := @Obeys.spoils _ _ h [dataObject blob]
              (List.forall_mem_singleton.mpr (small_dataObject hfirst))
              fun hwhole => hlater ⟨blob.key, rfl, hdata, hwhole⟩
            refine ⟨M, e, N, he, ?_, hne⟩
            rw [putBlobs, exec_bind, exec_putBlob_shifting hfirst, exec_bind_error hput]
    obtain ⟨M, e, N, he, hput, hne⟩ := hspoiled
    refine ⟨M, e, N, he, ?_, hne⟩
    change exec ((shifting inner headerSuffix).put blobs) M = _
    rw [exec_put_of_accepted haccepted, exec_bind_error hput]

end EncryptedBlobStore

/-- A layer over the bucket. -/
def Level.layer : Level → Layer (StateM PlainMap)
  | .keyPrefix start => .keyPrefix start
  | .encryption headerSuffix =>
      .encryption (RekeyableShiftEncryption.toProvider ⟨3, 0⟩) headerSuffix

theorem Level.level_layer (level : Level) : level.layer.level = some level := by
  cases level <;> rfl

theorem Level.keepsObjects_layer (level : Level) : level.layer.KeepsObjects id := by
  cases level with
  | keyPrefix start => trivial
  | encryption headerSuffix => exact fun _ _ => rfl

theorem obeys_applyLayers {backend : BlobStore (StateM PlainMap)} (levels : List Level)
    (h : Obeys backend below) :
    Obeys (applyLayers backend (levels.map Level.layer)) (levels.foldl Level.screen below) := by
  induction levels generalizing backend below with
  | nil => exact h
  | cons level rest ih =>
      apply ih
      cases level with
      | keyPrefix start => exact @PrefixBlobStore.obeys _ { inner := _, keyPrefix := start } h
      | encryption headerSuffix => exact EncryptedBlobStore.obeys h

end Levels

/-- The blobs of the filesystem. -/
def FsState.objects (s : FsState) : PlainMap := fun key =>
  match s.tree.find (ofText key) with
  | some (.file data) => some data.content
  | _ => none

/-- Whatever the keys are put with, a put that is refused has not changed the objects. -/
def Unspoiled {σ : Type} (store : BlobStore (StateM σ)) (objects : σ → PlainMap)
    (keys : List Key) : Prop :=
  ∀ blobs s e t, blobs.map BlobInput.key = keys → exec (store.put blobs) s = (.error e, t) →
    e.IsInvalidInput → objects t = objects s

/-- Over both backends, in every state, a batch of the keys that is refused changes nothing. -/
def RejectsWhole (levels : List Level) (keys : List Key) : Prop :=
  (∀ (fs : FsBlobStore) (layers : List (Layer (StateM FsState))),
    layers.map Layer.level = levels.map some →
    (∀ layer ∈ layers, layer.KeepsObjects FsState.objects) →
      Unspoiled (applyLayers fs.toBlobStore layers) FsState.objects keys) ∧
  ∀ (σ : Type) [Clock (StateM σ)] (s3 : S3BlobStore (StateM σ)) (objects : σ → PlainMap)
    (layers : List (Layer (StateM σ))), layers.map Layer.level = levels.map some →
    (∀ layer ∈ layers, layer.KeepsObjects objects) →
      Unspoiled (applyLayers s3.toBlobStore layers) objects keys

theorem unspoiled_of_whole {σ : Type} {store : BlobStore (StateM σ)} {objects : σ → PlainMap}
    {screen : Screen} {keys : List Key} (h : Screens store objects screen)
    (hwhole : screen.Whole keys) : Unspoiled store objects keys := by
  rintro blobs s e t rfl hexec he
  exact h.unchanged hwhole hexec he

theorem not_unspoiled_of_not_whole {store : BlobStore (StateM PlainMap)} {screen : Screen}
    {keys : List Key} (h : Obeys store screen) (hwhole : ¬screen.Whole keys) :
    ¬Unspoiled store id keys := by
  have hkeys : (keys.map fun key => BlobInput.new key (Reader.ofBytes [])).map BlobInput.key =
      keys := by
    rw [List.map_map]
    exact List.map_id _
  have hsmall : ∀ blob ∈ keys.map fun key => BlobInput.new key (Reader.ofBytes []), Small blob :=
    List.forall_mem_map.mpr fun key _ => ⟨rfl, by
      show 0 < minMultipartPartSize
      decide⟩
  obtain ⟨M, e, N, he, hexec, hne⟩ := h.spoils hsmall (by rwa [hkeys])
  exact fun hunspoiled => hne (hunspoiled _ M e N hkeys hexec he)

/-- A refused batch changes nothing in any state of either backend exactly when every layer
refuses it before anything was written below. -/
theorem rejectsWhole_iff_whole (levels : List Level) (keys : List Key) :
    RejectsWhole levels keys ↔ (screenOf levels).Whole keys := by
  constructor
  · intro h
    by_contra hwhole
    refine not_unspoiled_of_not_whole (obeys_applyLayers levels obeys_bucket) hwhole ?_
    apply h.2
    · rw [List.map_map]
      exact List.map_congr_left fun level _ => level.level_layer
    · exact List.forall_mem_map.mpr fun level _ => level.keepsObjects_layer
  · intro hwhole
    constructor
    · intro fs layers hlevels hkeeps
      exact unspoiled_of_whole (screens_applyLayers hlevels hkeeps (fs.screens _)) hwhole
    · intro σ _ s3 objects layers hlevels hkeeps
      exact unspoiled_of_whole (screens_applyLayers hlevels hkeeps (s3.screens _)) hwhole

/-- Two encryption layers. -/
def doubleLayers : List (Layer (StateM FsState)) :=
  [.encryption (RekeyableShiftEncryption.toProvider ⟨3, 0⟩) ['h'],
    .encryption (RekeyableShiftEncryption.toProvider ⟨3, 0⟩) ['h']]

/-- A put of `a/b` through the two layers, over a root where it is stored. -/
def refusedPut : Except BlobStorageError PutResult × FsState :=
  exec ((applyLayers sampleFs.toBlobStore doubleLayers).put
    [BlobInput.new ['a', '/', 'b'] (Reader.ofBytes [7])]) nestedState

/-- The inner layer refuses the header of the outer one, which then deletes the blob that was
stored before. -/
theorem refused_put_deletes_blob :
    (∃ e, refusedPut.1 = .error e ∧ e.IsInvalidInput) ∧
      nestedState.objects ['a', '/', 'b'] = some [1] ∧
      refusedPut.2.objects ['a', '/', 'b'] = none ∧
      ¬RejectsWhole [.encryption ['h'], .encryption ['h']] [['a', '/', 'b']] := by
  have hbefore : nestedState.objects ['a', '/', 'b'] = some [1] := by decide +kernel
  have hafter : refusedPut.2.objects ['a', '/', 'b'] = none := by decide +kernel
  have hrefused : (match refusedPut.1 with
      | .error e => decide e.IsInvalidInput
      | .ok _ => false) = true := by decide +kernel
  cases hput : refusedPut.1 with
  | ok result =>
      rw [hput] at hrefused
      cases hrefused
  | error e =>
      rw [hput] at hrefused
      have he : e.IsInvalidInput := of_decide_eq_true hrefused
      refine ⟨⟨e, rfl, he⟩, hbefore, hafter, fun h => ?_⟩
      have hkeeps : ∀ layer ∈ doubleLayers, layer.KeepsObjects FsState.objects := by
        simp only [doubleLayers, List.forall_mem_cons, List.not_mem_nil]
        exact ⟨fun _ _ => rfl, fun _ _ => rfl, nofun⟩
      have hexec : exec ((applyLayers sampleFs.toBlobStore doubleLayers).put
          [BlobInput.new ['a', '/', 'b'] (Reader.ofBytes [7])]) nestedState =
            (.error e, refusedPut.2) := by
        rw [← hput]
        exact Prod.mk.eta.symm
      have hsame := h.1 sampleFs doubleLayers rfl hkeeps _ nestedState e refusedPut.2 rfl hexec he
      rw [hsame, hbefore] at hafter
      cases hafter

end BlobStorage
