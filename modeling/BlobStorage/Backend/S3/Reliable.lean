import BlobStorage.Backend.S3.Pages
import BlobStorage.Backend.S3.Service
import Mathlib.Data.List.AList

/-!
# Reliable services

A reliable service does what is asked of it within limits, and refuses the rest. A bucket in
memory is one.
-/

namespace BlobStorage

open Fallible

/-- What the service takes: how many parts an upload has, how large a part and an object are, and
which keys there are. -/
structure ServiceLimits where
  parts : Nat
  partSize : Nat
  objectSize : Nat
  takesKey : Key → Bool
  somePart : 0 < parts

/-- These parts can be put together: there are some, and all but the last are large enough. -/
structure ServiceLimits.Takes (limits : ServiceLimits) (contents : List Bytes) : Prop where
  some : contents ≠ []
  large : ∀ content ∈ contents.dropLast, minMultipartPartSize ≤ content.length
  fits : contents.flatten.length ≤ limits.objectSize

namespace S3BlobStore

variable {σ : Type}

/-- The objects that the pages of a listing name, from a page on. A page that is not the last one
names some. -/
inductive Pages (store : S3BlobStore (StateM σ)) (s : σ) (start : Option Key) :
    Option String → List S3Object → Prop where
  | last {token : Option String} {contents : List S3Object}
      (page : (store.send (.listObjectsV2 start token) s).1 =
        .ok { contents, nextContinuationToken := none }) : Pages store s start token contents
  | more {token : Option String} {next : String} {contents rest : List S3Object}
      (page : (store.send (.listObjectsV2 start token) s).1 =
        .ok { contents, nextContinuationToken := some next }) (named : contents ≠ [])
      (others : Pages store s start (some next) rest) : Pages store s start token (contents ++ rest)

/-- The service behind the client is reliable: an answer tells what was done, an error that
nothing was, and what is within the limits is done. -/
structure Reliable [Clock (StateM σ)] (store : S3BlobStore (StateM σ)) (vault : σ → Vault Unit)
    (limits : ServiceLimits) : Prop where
  carries : ∀ {s q output}, (store.send q s).1 = .ok output →
    (vault s).Carries () q output (vault (store.send q s).2)
  refuses : ∀ {s q e}, (store.send q s).1 = .error e → vault (store.send q s).2 = vault s
  clock : ∀ s, vault ((Clock.utcNow : StateM σ DateTime) s).2 = vault s
  quiet : ∀ s, store.ReadsQuietly s
  puts : ∀ s {key body}, limits.takesKey key = true → body.length ≤ limits.partSize →
    ∃ eTag, (store.send (.putObject key body) s).1 = .ok eTag
  fetches : ∀ s {key}, (vault s).objects key ≠ none →
    ∃ output, (store.send (.getObject key) s).1 = .ok output ∧ output.body.failure = none
  misses : ∀ s {key}, limits.takesKey key = true → (vault s).objects key = none →
    ∃ e, (store.send (.getObject key) s).1 = .error e ∧ e.isNotFound = true
  heads : ∀ s {key}, (vault s).objects key ≠ none → (store.send (.headObject key) s).1 = .ok ()
  headsMissing : ∀ s {key}, limits.takesKey key = true → (vault s).objects key = none →
    ∃ e, (store.send (.headObject key) s).1 = .error e ∧ e.isNotFound = true
  deletes : ∀ s {keys}, keys.length ≤ 1000 → (∀ key ∈ keys, limits.takesKey key = true) →
    ∃ output, (store.send (.deleteObjects keys) s).1 = .ok output ∧ output.errors = [] ∧
      ∀ key ∈ keys, (vault (store.send (.deleteObjects keys) s).2).objects key = none
  lists : ∀ s start, ∃ objects, store.Pages s start none objects ∧
    (∀ object ∈ objects, object.key ≠ none) ∧ (objects.map S3Object.key).Nodup ∧
    ∀ key, some key ∈ objects.map S3Object.key ↔
      (vault s).objects key ≠ none ∧ start.getD [] <+: key
  starts : ∀ s {key}, limits.takesKey key = true →
    ∃ uploadId, (store.send (.createMultipartUpload key) s).1 = .ok (some uploadId)
  takes : ∀ {s uploadId upload number body}, (vault s).uploads uploadId = some upload →
    1 ≤ number → number ≤ limits.parts → body.length ≤ limits.partSize →
    ∃ eTag, (store.send (.uploadPart upload.key uploadId number body) s).1 = .ok eTag
  takesNoMore : ∀ s key uploadId body {number}, limits.parts < number →
    ∃ e, (store.send (.uploadPart key uploadId number body) s).1 = .error e
  completes : ∀ {s uploadId upload parts contents}, (vault s).uploads uploadId = some upload →
    upload.contents parts = some contents → limits.Takes contents →
    (parts.map CompletedPart.partNumber).Pairwise (· < ·) →
    ∃ eTag, (store.send (.completeMultipartUpload upload.key uploadId parts) s).1 = .ok eTag
  aborts : ∀ {s uploadId upload}, (vault s).uploads uploadId = some upload →
    (store.send (.abortMultipartUpload upload.key uploadId) s).1 = .ok ()

end S3BlobStore

/-- A bucket in memory. -/
structure Bucket where
  objects : AList fun _ : Key => Bytes
  uploads : AList fun _ : String => Upload Unit
  stored : List (Key × Bytes)

instance : Clock (StateM Bucket) where
  utcNow := pure 0

namespace Bucket

def empty : Bucket := { objects := ∅, uploads := ∅, stored := [] }

def vault (b : Bucket) : Vault Unit where
  objects := fun key => b.objects.lookup key
  uploads := fun uploadId => b.uploads.lookup uploadId
  stored := b.stored

/-- The service's usual limits: 10000 parts of at most 5 GiB, objects of at most 5 TiB, and keys
of at most 1024 bytes. -/
def limits : ServiceLimits where
  parts := 10000
  partSize := 5 * 1024 * 1024 * 1024
  objectSize := 5 * 1024 * 1024 * 1024 * 1024
  takesKey := fun key => decide ((String.ofList key).utf8ByteSize ≤ 1024)
  somePart := by decide

/-- An identifier that is longer than all that there are. -/
def freshId (uploadIds : List String) : String :=
  String.ofList ('u' :: uploadIds.flatMap String.toList)

theorem freshId_notMem (uploadIds : List String) : freshId uploadIds ∉ uploadIds := by
  have hlonger : ∀ uploadId ∈ uploadIds,
      uploadId.toList.length < (freshId uploadIds).toList.length := by
    intro uploadId hmem
    obtain ⟨before, after, rfl⟩ := List.append_of_mem hmem
    simp only [freshId, String.toList_ofList, List.length_cons, List.flatMap_append,
      List.flatMap_cons, List.length_append]
    omega
  exact fun hmem => absurd (hlonger _ hmem) (Nat.lt_irrefl _)

def store (b : Bucket) (key : Key) (content : Bytes) : Bucket :=
  { b with objects := b.objects.insert key content, stored := (key, content) :: b.stored }

def replace (b : Bucket) (uploadId : String) (upload : Upload Unit) : Bucket :=
  { b with uploads := b.uploads.insert uploadId upload }

def discard (b : Bucket) (uploadId : String) : Bucket :=
  { b with uploads := b.uploads.erase uploadId }

def remove (b : Bucket) (keys : List Key) : Bucket :=
  { b with objects := keys.foldl (fun objects key => objects.erase key) b.objects }

/-- Whether the contents can be put together. -/
def takes (contents : List Bytes) : Bool :=
  contents ≠ [] ∧ (∀ content ∈ contents.dropLast, minMultipartPartSize ≤ content.length) ∧
    contents.flatten.length ≤ limits.objectSize

def object (key : Key) : S3Object where
  key := some key
  size := none
  eTag := none
  lastModified := none

def fault (code : String) : SdkError := { code := some code }

/-- The service. It tags each part with its number. -/
def send : (q : S3Request) → StateM Bucket q.Response
  | .putObject key body => fun b =>
      if limits.takesKey key ∧ body.length ≤ limits.partSize then (.ok none, b.store key body)
      else (.error (fault "InvalidRequest"), b)
  | .getObject key => fun b =>
      match b.objects.lookup key with
      | some content => (.ok
          { body := Reader.ofBytes content, contentLength := some content.length, eTag := none,
            lastModified := none }, b)
      | none => (.error (fault "NoSuchKey"), b)
  | .headObject key => fun b =>
      (if (b.objects.lookup key).isSome then .ok () else .error (fault "NotFound"), b)
  | .deleteObjects keys => fun b =>
      if keys.length ≤ 1000 then (.ok { deleted := keys.map some, errors := [] }, b.remove keys)
      else (.error (fault "MalformedXML"), b)
  | .listObjectsV2 start _ => fun b =>
      (.ok { contents := (b.objects.keys.filter fun key => decide (start.getD [] <+: key)).map object,
             nextContinuationToken := none }, b)
  | .createMultipartUpload key => fun b =>
      if limits.takesKey key then
        (.ok (some (freshId b.uploads.keys)),
          b.replace (freshId b.uploads.keys) { client := (), key, parts := fun _ => none })
      else (.error (fault "KeyTooLongError"), b)
  | .uploadPart key uploadId number body => fun b =>
      match b.uploads.lookup uploadId with
      | some upload =>
          if upload.key = key ∧ 1 ≤ number ∧ number ≤ limits.parts ∧
              body.length ≤ limits.partSize then
            (.ok (some (toString number)),
              b.replace uploadId (upload.receive number body (toString number)))
          else (.error (fault "InvalidArgument"), b)
      | none => (.error (fault "NoSuchUpload"), b)
  | .completeMultipartUpload key uploadId parts => fun b =>
      match b.uploads.lookup uploadId with
      | some upload =>
          match upload.contents parts with
          | some contents =>
              if upload.key = key ∧ takes contents = true then
                (.ok none, (b.discard uploadId).store key contents.flatten)
              else (.error (fault "InvalidPart"), b)
          | none => (.error (fault "InvalidPart"), b)
      | none => (.error (fault "NoSuchUpload"), b)
  | .abortMultipartUpload key uploadId => fun b =>
      match b.uploads.lookup uploadId with
      | some upload =>
          if upload.key = key then (.ok (), b.discard uploadId)
          else (.error (fault "NoSuchUpload"), b)
      | none => (.error (fault "NoSuchUpload"), b)

def backend (maxPages : Nat) : S3BlobStore (StateM Bucket) := .new send "blobs" maxPages

section Frames

variable (b : Bucket) (key : Key) (content : Bytes) (keys : List Key) (uploadId : String)
  (upload : Upload Unit)

theorem vault_store : (b.store key content).vault = b.vault.store key content := by
  unfold vault store Vault.store
  congr 1
  funext other
  by_cases hsame : other = key
  · rw [hsame, AList.lookup_insert, Function.update_self]
  · rw [AList.lookup_insert_ne hsame, Function.update_of_ne hsame]

theorem vault_replace :
    (b.replace uploadId upload).vault = b.vault.replace uploadId upload := by
  unfold vault replace Vault.replace
  congr 1
  funext other
  by_cases hsame : other = uploadId
  · rw [hsame, AList.lookup_insert, Function.update_self]
  · rw [AList.lookup_insert_ne hsame, Function.update_of_ne hsame]

theorem vault_discard : (b.discard uploadId).vault = b.vault.discard uploadId := by
  unfold vault discard Vault.discard
  congr 1
  funext other
  by_cases hsame : other = uploadId
  · rw [hsame, AList.lookup_erase, Function.update_self]
  · rw [AList.lookup_erase_ne hsame, Function.update_of_ne hsame]

omit b in
theorem lookup_eraseAll (objects : AList fun _ : Key => Bytes) :
    (keys.foldl (fun objects key => objects.erase key) objects).lookup key =
      KeyMap.removeAll (fun key => objects.lookup key) keys key := by
  induction keys generalizing objects with
  | nil => exact (KeyMap.removeAll_of_not_mem List.not_mem_nil).symm
  | cons first rest ih =>
      rw [List.foldl_cons, ih]
      by_cases hrest : key ∈ rest
      · rw [KeyMap.removeAll_of_mem hrest,
          KeyMap.removeAll_of_mem (List.mem_cons_of_mem first hrest)]
      rw [KeyMap.removeAll_of_not_mem hrest]
      by_cases hsame : key = first
      · rw [hsame, AList.lookup_erase, KeyMap.removeAll_of_mem List.mem_cons_self]
      · rw [AList.lookup_erase_ne hsame, KeyMap.removeAll_of_not_mem (by simp [hsame, hrest])]

theorem vault_remove : (b.remove keys).vault = b.vault.remove keys := by
  unfold vault remove Vault.remove
  congr 1
  funext key
  exact lookup_eraseAll key keys b.objects

end Frames

theorem takes_eq_true_iff {contents : List Bytes} :
    takes contents = true ↔ limits.Takes contents := by
  unfold takes
  rw [decide_eq_true_iff]
  exact ⟨fun h => ⟨h.1, h.2.1, h.2.2⟩, fun h => ⟨h.some, h.large, h.fits⟩⟩

/-- An answer tells what was done. -/
theorem send_carries {b : Bucket} {q : S3Request} {output : q.Output}
    (h : (send q b).1 = .ok output) : b.vault.Carries () q output (send q b).2.vault := by
  cases q with
  | putObject key body =>
      unfold send at h ⊢
      dsimp only at h ⊢
      split at h
      · next hfits =>
          cases h
          rw [if_pos hfits, vault_store]
          exact .putObject key body none
      · cases h
  | getObject key =>
      unfold send at h ⊢
      dsimp only at h ⊢
      split at h
      · next content hthere =>
          cases h
          exact .getObject _ hthere (.inl ⟨rfl, rfl⟩)
      · cases h
  | headObject key =>
      unfold send at h ⊢
      dsimp only at h ⊢
      split at h
      · next hthere =>
          cases h
          exact .headObject (Option.isSome_iff_ne_none.mp hthere)
      · cases h
  | deleteObjects keys =>
      unfold send at h ⊢
      dsimp only at h ⊢
      split at h
      · next hfew =>
          cases h
          rw [if_pos hfew, vault_remove]
          refine .deleteObjects _ (fun _ hkey => hkey) fun key hkey => ?_
          simpa using hkey
      · cases h
  | listObjectsV2 start token =>
      cases h
      refine .listObjectsV2 _ fun listed hlisted key hkey => ?_
      obtain ⟨other, hother, rfl⟩ := List.mem_map.mp hlisted
      cases hkey
      exact Option.isSome_iff_ne_none.mp
        (AList.lookup_isSome.mpr (AList.mem_keys.mpr (List.mem_filter.mp hother).1))
  | createMultipartUpload key =>
      unfold send at h ⊢
      dsimp only at h ⊢
      split at h
      · next htakes =>
          cases h
          rw [if_pos htakes, vault_replace]
          refine .createMultipartUpload key (AList.lookup_eq_none.mpr fun hmem => ?_)
          exact freshId_notMem _ (AList.mem_keys.mp hmem)
      · cases h
  | uploadPart key uploadId number body =>
      unfold send at h ⊢
      dsimp only at h ⊢
      split at h
      · next upload hthere =>
          split at h
          · next hfits =>
              cases h
              have hkey := hfits.1
              subst hkey
              rw [if_pos hfits, vault_replace]
              exact .uploadPart number body _ hthere
          · cases h
      · cases h
  | completeMultipartUpload key uploadId parts =>
      unfold send at h ⊢
      dsimp only at h ⊢
      split at h
      · next upload hthere =>
          split at h
          · next contents hcontents =>
              split at h
              · next htakes =>
                  cases h
                  have hkey := htakes.1
                  subst hkey
                  rw [if_pos htakes, vault_store, vault_discard]
                  exact .completeMultipartUpload none hthere hcontents
              · cases h
          · cases h
      · cases h
  | abortMultipartUpload key uploadId =>
      unfold send at h ⊢
      dsimp only at h ⊢
      split at h
      · next upload hthere =>
          split at h
          · next hkey =>
              cases h
              subst hkey
              rw [if_pos rfl, vault_discard]
              exact .abortMultipartUpload hthere
          · cases h
      · cases h

/-- An error tells that nothing was done. -/
theorem send_refuses {b : Bucket} {q : S3Request} {e : SdkError}
    (h : (send q b).1 = .error e) : (send q b).2 = b := by
  cases q with
  | putObject | deleteObjects | createMultipartUpload =>
      unfold send at h ⊢
      dsimp only at h ⊢
      split at h
      · cases h
      · next hbad => rw [if_neg hbad]
  | getObject =>
      unfold send
      dsimp only
      split <;> rfl
  | headObject | listObjectsV2 => rfl
  | uploadPart | abortMultipartUpload =>
      unfold send at h ⊢
      dsimp only at h ⊢
      split at h
      · split at h
        · cases h
        · next hbad => rw [if_neg hbad]
      · rfl
  | completeMultipartUpload =>
      unfold send at h ⊢
      dsimp only at h ⊢
      split at h
      · split at h
        · split at h
          · cases h
          · next hbad => rw [if_neg hbad]
        · rfl
      · rfl

theorem reads_quietly (maxPages : Nat) (b : Bucket) : (backend maxPages).ReadsQuietly b where
  getObject key := by
    change (send (.getObject key) b).2 = b
    unfold send
    dsimp only
    split <;> rfl
  headObject _ := rfl
  listObjectsV2 _ _ := rfl

theorem send_getObject_missing {b : Bucket} {key : Key} (h : b.vault.objects key = none) :
    (send (.getObject key) b).1 = .error (fault "NoSuchKey") := by
  change b.objects.lookup key = none at h
  unfold send
  dsimp only
  rw [h]

theorem backend_reliable (maxPages : Nat) : (backend maxPages).Reliable vault limits where
  carries := send_carries
  refuses := fun h => congrArg vault (send_refuses h)
  clock := fun _ => rfl
  quiet := reads_quietly maxPages
  puts := fun b _ _ hkey hfits => ⟨none, by
    change (send _ b).1 = _
    unfold send
    dsimp only
    rw [if_pos ⟨hkey, hfits⟩]⟩
  fetches := by
    intro b key hthere
    obtain ⟨content, hcontent⟩ := Option.ne_none_iff_exists'.mp hthere
    change b.objects.lookup key = some content at hcontent
    refine ⟨
      { body := Reader.ofBytes content, contentLength := some content.length, eTag := none,
        lastModified := none }, ?_, rfl⟩
    change (send (.getObject key) b).1 = _
    unfold send
    dsimp only
    rw [hcontent]
  misses := fun _ _ _ hmissing => ⟨_, send_getObject_missing hmissing, by decide⟩
  heads := by
    intro b key hthere
    change b.objects.lookup key ≠ none at hthere
    change (send (.headObject key) b).1 = _
    unfold send
    dsimp only
    rw [if_pos (Option.isSome_iff_ne_none.mpr hthere)]
  headsMissing := by
    intro b key _ hmissing
    refine ⟨fault "NotFound", ?_, by decide⟩
    change b.objects.lookup key = none at hmissing
    change (send (.headObject key) b).1 = _
    unfold send
    dsimp only
    rw [hmissing]
    rfl
  deletes := by
    intro b keys hfew _
    refine ⟨{ deleted := keys.map some, errors := [] }, ?_, rfl, fun key hkey => ?_⟩
    · change (send (.deleteObjects keys) b).1 = _
      unfold send
      dsimp only
      rw [if_pos hfew]
    · change (send (.deleteObjects keys) b).2.vault.objects key = none
      unfold send
      dsimp only
      rw [if_pos hfew, vault_remove]
      exact KeyMap.removeAll_of_mem hkey
  lists := by
    intro b start
    refine ⟨_, .last rfl, fun listed hlisted => ?_, ?_, fun key => ?_⟩
    · obtain ⟨key, _, rfl⟩ := List.mem_map.mp hlisted
      exact Option.some_ne_none key
    · rw [List.map_map]
      exact (b.objects.nodupKeys.filter _).map (fun _ _ h => Option.some.inj h)
    · rw [List.map_map]
      change some key ∈ List.map some _ ↔ _
      rw [List.mem_map_of_injective (Option.some_injective Key), List.mem_filter,
        decide_eq_true_iff, ← AList.mem_keys, ← AList.lookup_isSome, Option.isSome_iff_ne_none]
      rfl
  starts := by
    intro b key hkey
    refine ⟨freshId b.uploads.keys, ?_⟩
    change (send (.createMultipartUpload key) b).1 = _
    unfold send
    dsimp only
    rw [if_pos hkey]
  takes := by
    intro b uploadId upload number body hthere hnumber hfew hfits
    refine ⟨some (toString number), ?_⟩
    change b.uploads.lookup uploadId = some upload at hthere
    change (send (.uploadPart upload.key uploadId number body) b).1 = _
    unfold send
    dsimp only
    rw [hthere]
    dsimp only
    rw [if_pos ⟨rfl, hnumber, hfew, hfits⟩]
  takesNoMore := by
    intro b key uploadId body number hmany
    change ∃ e, (send (.uploadPart key uploadId number body) b).1 = .error e
    unfold send
    dsimp only
    split
    · rw [if_neg (fun h => absurd h.2.2.1 (Nat.not_le_of_lt hmany))]
      exact ⟨_, rfl⟩
    · exact ⟨_, rfl⟩
  completes := by
    intro b uploadId upload parts contents hthere hcontents htakes _
    refine ⟨none, ?_⟩
    change b.uploads.lookup uploadId = some upload at hthere
    change (send (.completeMultipartUpload upload.key uploadId parts) b).1 = _
    unfold send
    dsimp only
    rw [hthere]
    dsimp only
    rw [hcontents]
    dsimp only
    rw [if_pos ⟨rfl, takes_eq_true_iff.mpr htakes⟩]
  aborts := by
    intro b uploadId upload hthere
    change b.uploads.lookup uploadId = some upload at hthere
    change (send (.abortMultipartUpload upload.key uploadId) b).1 = _
    unfold send
    dsimp only
    rw [hthere]
    dsimp only
    rw [if_pos rfl]

end Bucket

end BlobStorage
