import BlobStorage.Backend.S3.Pages
import BlobStorage.Browsing.Selection

/-!
# What the S3 backend enumerates

A service that answers all requests from the same objects lists each of them once, under the
prefix that it is asked for, and finds what it lists.
-/

namespace BlobStorage

open Fallible

namespace S3BlobStore

variable {σ : Type}

/-- The record that `get_with_metadata` makes of a response. -/
def outputMeta (key : Key) (output : GetObjectOutput) : BlobMeta :=
  { key, storedSize := toUnsigned (output.contentLength.getD 0),
    modifiedAt := output.lastModified.getD 0, etag := output.eTag }

/-- The objects that the service answers from. What goes wrong at the service is left open: any
request may fail, but none reports an object missing that is there. -/
structure Holds (store : S3BlobStore (StateM σ)) (s : σ) (objects : List BlobMeta) : Prop where
  reads : store.ReadsQuietly s
  once : (objects.map BlobMeta.key).Nodup
  pages : ∀ start, (store.listed s start store.maxPages none).2 = none →
    ((store.listed s start store.maxPages none).1.map recordOf).Perm
      (objects.filter fun info => decide (start.getD [] <+: info.key))
  headed : ∀ key e, (store.send (.headObject key) s).1 = .ok () →
    (store.send (.getObject key) s).1 = .error e → e.isNotFound = false
  listed : ∀ info ∈ objects, ∀ e, (store.send (.getObject info.key) s).1 = .error e →
    e.isNotFound = false
  fetched : ∀ info ∈ objects, ∀ output, (store.send (.getObject info.key) s).1 = .ok output →
    outputMeta info.key output = info

/-- The service lists everything under the prefix of the filter. -/
def Walks (store : S3BlobStore (StateM σ)) (s : σ) (filter : ListFilter) : Prop :=
  (store.listed s (requestPrefix filter) store.maxPages none).2 = none

def comesBy (objects : List BlobMeta) (filter : ListFilter) : List BlobMeta :=
  objects.filter fun info => decide ((requestPrefix filter).getD [] <+: info.key)

/-- The enumeration of the backend in a state in which the service holds the objects. -/
def enumeration (store : S3BlobStore (StateM σ)) (s : σ) (objects : List BlobMeta) : Enumeration :=
  .ofBackend (store.shown s) objects (store.Walks s) (comesBy objects)

theorem requestPrefix_getD (filter : ListFilter) :
    (requestPrefix filter).getD [] = filter.prefixHint.getD [] := by
  unfold requestPrefix
  split
  · next hhint => rw [hhint]; rfl
  · rfl

section Right

variable {store : S3BlobStore (StateM σ)} {s : σ}

theorem outputAnswer_eq_notFound {key other : Key}
    (h : store.outputAnswer s key = .error (.notFound other)) :
    ∃ e, (store.send (.getObject key) s).1 = .error e ∧ e.isNotFound = true := by
  unfold outputAnswer at h
  cases hsend : (store.send (.getObject key) s).1 with
  | ok output =>
      rw [hsend] at h
      cases h
  | error e =>
      rw [hsend] at h
      dsimp only at h
      refine ⟨e, rfl, ?_⟩
      by_contra hfound
      by_cases hmisconfigured : e.isMisconfigured = true
      · rw [if_pos hmisconfigured, requestError, if_pos hmisconfigured] at h
        cases h
      · rw [if_neg hmisconfigured, if_neg hfound, requestError, if_neg hmisconfigured] at h
        cases h

theorem outputAnswer_eq_ok {key : Key} {output : GetObjectOutput}
    (h : store.outputAnswer s key = .ok output) :
    (store.send (.getObject key) s).1 = .ok output := by
  unfold outputAnswer at h
  cases hsend : (store.send (.getObject key) s).1 with
  | ok other =>
      rw [hsend] at h
      exact congrArg Except.ok (Except.ok.inj h)
  | error e =>
      rw [hsend] at h
      dsimp only at h
      split at h
      · cases h
      · split at h <;> cases h

/-- The checks that come first do not report anything missing. -/
theorem checked_bind_eq {α : Type} {key : Key} {f : Unit → Except BlobStorageError α}
    {answer : Except BlobStorageError α} (h : (validateBlobKey key >>= f) = answer)
    (hanswer : ∀ e, e.IsInvalidInput → answer ≠ .error e) : f () = answer := by
  obtain ⟨_, hkey⟩ | ⟨_, e, hkey, he⟩ := validateBlobKey_cases key
  · rw [hkey] at h
    exact h
  · rw [hkey] at h
    exact absurd h.symm (hanswer e he)

variable {objects : List BlobMeta} (h : store.Holds s objects)

include h

theorem Holds.findsPresent : (store.shown s).FindsPresent := by
  intro key other hexists hget
  have hhead : store.headAnswer s key = .ok true := checked_bind_eq hexists fun e _ => nofun
  have hthere : (store.send (.headObject key) s).1 = .ok () := by
    unfold headAnswer at hhead
    cases hsend : (store.send (.headObject key) s).1 with
    | ok _ => rfl
    | error e =>
        rw [hsend] at hhead
        dsimp only at hhead
        split at hhead
        · cases hhead
        · split at hhead <;> cases hhead
  have hbody := checked_bind_eq hget (notFound_ne_invalid other)
  cases houtput : store.outputAnswer s key with
  | ok output =>
      rw [houtput] at hbody
      cases hbody
  | error e =>
      rw [houtput] at hbody
      obtain rfl : e = .notFound other := Except.error.inj hbody
      obtain ⟨fault, hfault, hmissing⟩ := outputAnswer_eq_notFound houtput
      rw [h.headed key fault hthere hfault] at hmissing
      cases hmissing

/-- The backend shows what it enumerates. -/
theorem Holds.enumeration_right : (store.enumeration s objects).Right := by
  apply Enumeration.Right.ofBackend
  · exact fun filter => Iff.rfl
  · exact fun filter => h.pages (requestPrefix filter)
  · exact h.findsPresent
  · exact fun filter => h.once.sublist (List.filter_sublist.map BlobMeta.key)
  · exact h.once
  · intro filter info record hsound _ hinfo hmatch
    refine List.mem_filter.mpr ⟨hinfo, ?_⟩
    rw [requestPrefix_getD]
    exact decide_eq_true (hsound.getD_isPrefix hmatch)
  · intro filter info hinfo other hmissing
    have hheld := List.mem_of_mem_filter hinfo
    have hbody := checked_bind_eq hmissing (notFound_ne_invalid other)
    cases houtput : store.outputAnswer s info.key with
    | ok output =>
        rw [houtput] at hbody
        cases hbody
    | error e =>
        rw [houtput] at hbody
        obtain rfl : e = .notFound other := Except.error.inj hbody
        obtain ⟨fault, hfault, hnotFound⟩ := outputAnswer_eq_notFound houtput
        rw [h.listed info hheld fault hfault] at hnotFound
        cases hnotFound
  · intro filter info hinfo pair hget
    have hheld := List.mem_of_mem_filter hinfo
    have hbody := checked_bind_eq hget fun e _ => nofun
    cases houtput : store.outputAnswer s info.key with
    | error e =>
        rw [houtput] at hbody
        cases hbody
    | ok output =>
        rw [houtput] at hbody
        obtain rfl := Except.ok.inj hbody
        exact h.fetched info hheld output (outputAnswer_eq_ok houtput)

end Right

end S3BlobStore

/-- A bucket that is only read: its objects, each with its content. -/
abbrev Shelf := List (Key × Bytes)

instance : Clock (StateM Shelf) where
  utcNow := pure 0

namespace Shelf

/-- The object as a listing shows it. -/
def object (entry : Key × Bytes) : S3Object where
  key := some entry.1
  size := some entry.2.length
  eTag := none
  lastModified := some 0

/-- The record of an object. -/
def record (entry : Key × Bytes) : BlobMeta :=
  S3BlobStore.objectMeta entry.1 (object entry)

/-- The service lists all objects under a prefix in one page. -/
def send : (q : S3Request) → StateM Shelf q.Response
  | .listObjectsV2 start _ => fun shelf =>
      (.ok { contents := (shelf.filter fun entry => decide (start.getD [] <+: entry.1)).map object,
             nextContinuationToken := none }, shelf)
  | .getObject key => fun shelf =>
      match shelf.find? fun entry => decide (entry.1 = key) with
      | some entry => (.ok
          { body := Reader.ofBytes entry.2, contentLength := some entry.2.length, eTag := none,
            lastModified := some 0 }, shelf)
      | none => (.error { code := some "NoSuchKey" }, shelf)
  | .headObject key => fun shelf =>
      (if (shelf.find? fun entry => decide (entry.1 = key)).isSome then .ok ()
        else .error { code := some "NotFound" }, shelf)
  | _ => fun shelf => (.error { code := some "AccessDenied" }, shelf)

def store : S3BlobStore (StateM Shelf) := .new send "blobs" 1

theorem find_of_mem {shelf : Shelf} (honce : (shelf.map Prod.fst).Nodup) {entry : Key × Bytes}
    (h : entry ∈ shelf) : (shelf.find? fun other => decide (other.1 = entry.1)) = some entry := by
  cases hfind : shelf.find? fun other => decide (other.1 = entry.1) with
  | none => exact absurd (decide_eq_true rfl) (List.find?_eq_none.mp hfind entry h)
  | some other =>
      have hsame : other.1 = entry.1 := by simpa using List.find?_some hfind
      rw [List.inj_on_of_nodup_map honce (List.mem_of_find?_eq_some hfind) h hsame]

/-- No two objects having one key, the service holds them. -/
theorem holds {shelf : Shelf} (honce : (shelf.map Prod.fst).Nodup) :
    store.Holds shelf (shelf.map record) := by
  constructor
  · constructor
    · intro key
      change (send (.getObject key) shelf).2 = shelf
      unfold send
      dsimp only
      split <;> rfl
    · exact fun key => rfl
    · exact fun start token => rfl
  · rw [List.map_map]
    exact honce
  · intro start _
    have hlisted : (store.listed shelf start store.maxPages none).1 =
        S3BlobStore.keyed ((shelf.filter fun entry =>
          decide (start.getD [] <+: entry.1)).map object) := rfl
    rw [hlisted, S3BlobStore.keyed, List.filterMap_map, List.map_filterMap, List.filter_map,
      ← List.filterMap_eq_map]
    exact List.Perm.refl _
  · intro key e hhead hget
    change (send (.headObject key) shelf).1 = .ok () at hhead
    change (send (.getObject key) shelf).1 = .error e at hget
    unfold send at hhead hget
    dsimp only at hhead hget
    cases hfind : shelf.find? fun entry => decide (entry.1 = key) with
    | none =>
        rw [hfind] at hhead
        cases hhead
    | some entry =>
        rw [hfind] at hget
        cases hget
  · intro info hinfo e hget
    obtain ⟨entry, hentry, rfl⟩ := List.mem_map.mp hinfo
    change (send (.getObject entry.1) shelf).1 = .error e at hget
    unfold send at hget
    dsimp only at hget
    rw [find_of_mem honce hentry] at hget
    cases hget
  · intro info hinfo output hget
    obtain ⟨entry, hentry, rfl⟩ := List.mem_map.mp hinfo
    change (send (.getObject entry.1) shelf).1 = .ok output at hget
    unfold send at hget
    dsimp only at hget
    rw [find_of_mem honce hentry] at hget
    obtain rfl := Except.ok.inj hget
    rfl

end Shelf

end BlobStorage
