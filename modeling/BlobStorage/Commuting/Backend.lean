import BlobStorage.Backend.Map
import BlobStorage.Browsing.Shown
import BlobStorage.Calls

/-!
# Backends on which layers can be compared

A map-like backend over valid keys: reading leaves it as it is, and every listing and every walk
selects from one sequence. Two computations on it mirror each other when they leave the same
state, and results that agree up to wording and the names that a layer gives to keys.
-/

namespace BlobStorage

open Fallible

/-- `Holds` is what every request leaves true; `keys` and `entries` are what a listing and a
walk select from. -/
structure MapBackend {σ : Type} (store : BlobStore (StateM σ)) (Holds : σ → Prop)
    (keys : σ → List Key) (entries : σ → List (Key × Option BlobMeta)) : Prop where
  keys_valid : ∀ {s}, Holds s → ∀ key ∈ keys s, ValidKey key
  keys_sorted : ∀ {s}, Holds s → (keys s).Pairwise (· ≤ ·)
  entries_valid : ∀ {s}, Holds s → ∀ entry ∈ entries s, ValidKey entry.1
  put : ∀ {s t blobs result}, exec (store.put blobs) s = (result, t) → Holds s →
    (∀ blob ∈ blobs, ValidKey blob.key) →
    Holds t ∧ ∀ stored, result = .ok stored →
      stored.blobs.map BlobMeta.key = blobs.map BlobInput.key
  delete : ∀ {s batch}, Holds s → (∀ key ∈ batch, ValidKey key) →
    ∃ t, exec (store.delete batch) s = (.ok (), t) ∧ Holds t
  get : ∀ {s key}, Holds s → ValidKey key → ∃ answer, exec (store.get key) s = (answer, s)
  existsBlob : ∀ {s key}, Holds s → ValidKey key →
    ∃ present, exec (store.existsBlob key) s = (.ok present, s)
  getWithMetadata : ∀ {s key}, Holds s → ValidKey key →
    ∃ answer, exec (store.getWithMetadata key) s = (answer, s) ∧
      ∀ e, answer = .error e → e.IsNotFound
  list : ∀ {s filter}, Holds s → filter.SoundHint → filter.MetadataIndependent →
    exec (store.list filter) s = (.ok ((keys s).filter fun key => filter.matchesBlob key none), s)
  visit : ∀ {s} {S : Type} {filter} {visitor : BlobVisitor (StateM σ) S} {l : S}, Holds s →
    filter.SoundHint → filter.MetadataIndependent →
    execLocal (store.visit filter visitor) l s =
      execLocal (visitEach visitor
        ((entries s).filter fun entry => filter.matchesBlob entry.1 none)) l s

/-- Results that agree up to wording, where `f` translates the errors of the second. -/
inductive SameResult {α β : Type} (f : BlobStorageError → BlobStorageError) (R : α → β → Prop) :
    Except BlobStorageError α → Except BlobStorageError β → Prop where
  | ok {a : α} {b : β} (h : R a b) : SameResult f R (.ok a) (.ok b)
  | error {e e' : BlobStorageError} (h : e.unworded = (f e').unworded) :
      SameResult f R (.error e) (.error e')

section Mirrors

variable {σ α β γ δ : Type} {f : BlobStorageError → BlobStorageError} {Holds : σ → Prop}
variable {R : α → β → Prop} {R' : γ → δ → Prop}

/-- Run from `s`, the two leave the same state and results that correspond. -/
structure Mirrors (f : BlobStorageError → BlobStorageError) (Holds : σ → Prop)
    (R : α → β → Prop) (x : Fallible (StateM σ) α) (y : Fallible (StateM σ) β) (s : σ) : Prop where
  result : SameResult f R (exec x s).1 (exec y s).1
  state : (exec x s).2 = (exec y s).2
  holds : Holds (exec x s).2

variable {x : Fallible (StateM σ) α} {y : Fallible (StateM σ) β} {s : σ}

namespace Mirrors

theorem of_exec {t : σ} {r : Except BlobStorageError α} {r' : Except BlobStorageError β}
    (hx : exec x s = (r, t)) (hy : exec y s = (r', t)) (h : SameResult f R r r') (ht : Holds t) :
    Mirrors f Holds R x y s where
  result := by
    rw [hx, hy]
    exact h
  state := by rw [hx, hy]
  holds := by
    rw [hx]
    exact ht

theorem pure {a : α} {b : β} (h : R a b) (hs : Holds s) :
    Mirrors f Holds R (Pure.pure a : Fallible (StateM σ) α) (Pure.pure b) s :=
  of_exec rfl rfl (.ok h) hs

theorem throw {e e' : BlobStorageError} (h : e.unworded = (f e').unworded) (hs : Holds s) :
    Mirrors f Holds R (MonadExcept.throw e) (MonadExcept.throw e') s :=
  of_exec rfl rfl (.error h) hs

theorem bind {g : α → Fallible (StateM σ) γ} {g' : β → Fallible (StateM σ) δ}
    (h : Mirrors f Holds R x y s)
    (hnext : ∀ a b t, R a b → Holds t → Mirrors f Holds R' (g a) (g' b) t) :
    Mirrors f Holds R' (x >>= g) (y >>= g') s := by
  obtain ⟨hresult, hstate, hholds⟩ := h
  cases hx : exec x s with
  | mk r t =>
      cases hy : exec y s with
      | mk r' t' =>
          rw [hx, hy] at hresult hstate
          rw [hx] at hholds
          obtain rfl : t = t' := hstate
          cases hresult with
          | ok hab =>
              obtain ⟨hresult, hstate, hholds⟩ := hnext _ _ t hab hholds
              refine ⟨?_, ?_, ?_⟩
              · rw [exec_bind_ok hx, exec_bind_ok hy]
                exact hresult
              · rw [exec_bind_ok hx, exec_bind_ok hy]
                exact hstate
              · rw [exec_bind_ok hx]
                exact hholds
          | error he =>
              exact of_exec (exec_bind_error hx) (exec_bind_error hy) (.error he) hholds

theorem attempt (h : Mirrors f Holds R x y s) :
    Mirrors f Holds (SameResult f R) (Fallible.attempt x) (Fallible.attempt y) s where
  result := by
    rw [exec_attempt, exec_attempt]
    exact .ok h.result
  state := by
    rw [exec_attempt, exec_attempt]
    exact h.state
  holds := by
    rw [exec_attempt]
    exact h.holds

theorem congr {x' : Fallible (StateM σ) α} {y' : Fallible (StateM σ) β}
    (hx : exec x s = exec x' s) (hy : exec y s = exec y' s) (h : Mirrors f Holds R x' y' s) :
    Mirrors f Holds R x y s := by
  obtain ⟨hresult, hstate, hholds⟩ := h
  refine ⟨?_, ?_, ?_⟩
  · rw [hx, hy]
    exact hresult
  · rw [hx, hy]
    exact hstate
  · rw [hx]
    exact hholds

/-- The same effect on both sides. -/
theorem perform {f : BlobStorageError → BlobStorageError} {x : StateM σ α} (h : Holds (x s).2) :
    Mirrors f Holds Eq (Fallible.perform x : Fallible (StateM σ) α) (Fallible.perform x) s :=
  of_exec rfl rfl (.ok rfl) h

theorem mapErr (h : Mirrors f Holds R x y s) :
    Mirrors id Holds R x (PrefixBlobStore.mapErr f y) s := by
  have hmap := exec_mapErr f y s
  have hresult := h.result
  generalize hx : (exec x s).1 = r at hresult
  generalize hy : (exec y s).1 = r' at hresult hmap
  refine ⟨?_, ?_, h.holds⟩
  · rw [hx, hmap]
    cases hresult with
    | ok hab => exact .ok hab
    | error he => exact .error he
  · rw [hmap]
    exact h.state

theorem map_right {R' : α → γ → Prop} {g : β → γ} (h : Mirrors f Holds R x y s)
    (hR : ∀ {a b}, R a b → R' a (g b)) :
    Mirrors f Holds R' x (do let b ← y; Pure.pure (g b)) s := by
  obtain ⟨hresult, hstate, hholds⟩ := h
  cases hx : exec x s with
  | mk r t =>
      cases hy : exec y s with
      | mk r' t' =>
          rw [hx, hy] at hresult hstate
          rw [hx] at hholds
          obtain rfl : t = t' := hstate
          cases hresult with
          | ok hab => exact .of_exec hx (exec_bind_ok hy) (.ok (hR hab)) hholds
          | error he => exact .of_exec hx (exec_bind_error hy) (.error he) hholds

theorem mono {R₀ : α → β → Prop} (h : Mirrors f Holds R₀ x y s) (hR : ∀ {a b}, R₀ a b → R a b) :
    Mirrors f Holds R x y s := by
  obtain ⟨hresult, hstate, hholds⟩ := h
  refine ⟨?_, hstate, hholds⟩
  generalize (exec x s).1 = r at hresult ⊢
  generalize (exec y s).1 = r' at hresult ⊢
  cases hresult with
  | ok hab => exact .ok (hR hab)
  | error he => exact .error he

end Mirrors

end Mirrors

section MapState

open MapState MapBlobStore

/-- Every object of the map is under a valid key. -/
def MapState.OverValidKeys (s : MapState) : Prop := ∀ key ∈ s.objects.keys, ValidKey key

theorem MapState.OverValidKeys.write {s : MapState} (h : s.OverValidKeys) {key : Key}
    (hkey : ValidKey key) (content : Bytes) : (s.write key content).OverValidKeys := by
  intro other hother
  rw [MapState.mem_keys_iff] at hother
  by_cases hsame : other = key
  · exact hsame ▸ hkey
  · rw [find_write_of_ne s content hsame] at hother
    exact h other (MapState.mem_keys_iff.mpr hother)

theorem MapState.OverValidKeys.eraseAll {s : MapState} (h : s.OverValidKeys) (batch : List Key) :
    (batch.foldl MapState.erase s).OverValidKeys := by
  intro key hkey
  rw [MapState.mem_keys_iff, find_eraseAll] at hkey
  split at hkey
  · cases hkey
  · exact h key (MapState.mem_keys_iff.mpr hkey)

/-- Where a filter accepts a key, its hint is no further restriction. -/
theorem selected_candidates {filter : ListFilter} (hsound : filter.SoundHint) (useHint : Bool)
    (s : MapState) :
    ((candidates useHint s filter).filter fun key => filter.matchesBlob key none) =
      s.objects.keys.filter fun key => filter.matchesBlob key none := by
  unfold candidates
  cases useHint with
  | false => rfl
  | true =>
      rw [if_pos rfl, List.filter_filter]
      refine List.filter_congr fun key _ => ?_
      cases hmatch : filter.matchesBlob key none with
      | false => rfl
      | true =>
          have hhint := hsound.getD_isPrefix hmatch
          simpa using hhint

theorem filter_sortKeys (keys : List Key) (p : Key → Bool) :
    (sortKeys keys).filter p = sortKeys (keys.filter p) := by
  have hperm : ((sortKeys keys).filter p).Perm (sortKeys (keys.filter p)) :=
    ((sortKeys_perm keys).filter p).trans (sortKeys_perm _).symm
  exact hperm.eq_of_pairwise (fun a b _ _ => le_antisymm)
    ((sortKeys_sorted keys).filter p) (sortKeys_sorted _)

theorem exec_putBlobs_overValidKeys {blobs : List BlobInput}
    (hblobs : ∀ blob ∈ blobs, ValidKey blob.key) {s : MapState} (h : s.OverValidKeys) :
    (exec (putBlobs blobs) s).2.OverValidKeys ∧
      ∀ infos, (exec (putBlobs blobs) s).1 = .ok infos →
        infos.map BlobMeta.key = blobs.map BlobInput.key := by
  induction blobs generalizing s with
  | nil => exact ⟨h, fun infos hinfos => by cases hinfos; rfl⟩
  | cons blob rest ih =>
      rw [List.forall_mem_cons] at hblobs
      rw [putBlobs]
      cases hread : blob.data.readToEnd with
      | error e => exact ⟨h, fun infos hinfos => nomatch hinfos⟩
      | ok content =>
          obtain ⟨hholds, hkeys⟩ := ih hblobs.2 (h.write hblobs.1 content)
          dsimp only
          rw [exec_bind_ok (exec_getState s), exec_bind_ok (exec_setState s _), exec_bind]
          cases hrest : exec (putBlobs rest) (s.write blob.key content) with
          | mk r t =>
              rw [hrest] at hholds hkeys
              cases r with
              | error e => exact ⟨hholds, fun infos hinfos => nomatch hinfos⟩
              | ok others =>
                  refine ⟨hholds, fun infos hinfos => ?_⟩
                  cases hinfos
                  rw [List.map_cons, List.map_cons, hkeys others rfl]

theorem exec_getWithMetadata_quiet {key : Key} (hkey : ValidKey key) (s : MapState) :
    ∃ answer, exec (MapBlobStore.getWithMetadata key) s = (answer, s) ∧
      ∀ e, answer = .error e → e.IsNotFound := by
  rw [MapBlobStore.getWithMetadata, exec_bind_ok (exec_checkKey_of_valid s hkey),
    exec_bind_ok (exec_getState s)]
  cases s.find key with
  | none =>
      refine ⟨_, rfl, ?_⟩
      rintro _ ⟨⟩
      trivial
  | some blob =>
      refine ⟨_, rfl, fun e he => ?_⟩
      cases he

/-- The map backend, as long as its keys are valid. -/
theorem MapBlobStore.mapBackend (store : MapBlobStore) :
    MapBackend store.toBlobStore MapState.OverValidKeys (fun s => sortKeys s.objects.keys)
      (fun s => (s.objects.keys.filterMap fun key => (s.find key).map (StoredBlob.info key)).map
        fun info => (info.key, some info)) where
  keys_valid h key hkey := h key (mem_sortKeys.mp hkey)
  keys_sorted _ := sortKeys_sorted _
  entries_valid := by
    intro s h entry hentry
    obtain ⟨info, hinfo, rfl⟩ := List.mem_map.mp hentry
    obtain ⟨key, hkey, hfind⟩ := List.mem_filterMap.mp hinfo
    obtain ⟨blob, _, rfl⟩ := Option.map_eq_some_iff.mp hfind
    exact h key hkey
  put := by
    intro s t blobs result hexec h hblobs
    change exec (MapBlobStore.put blobs) s = _ at hexec
    rw [MapBlobStore.put, exec_bind_ok (exec_checkKeys_of_valid s (by simpa using hblobs)),
      exec_bind] at hexec
    obtain ⟨hholds, hkeys⟩ := exec_putBlobs_overValidKeys hblobs h
    cases hput : exec (putBlobs blobs) s with
    | mk r u =>
        rw [hput] at hexec hholds hkeys
        cases r with
        | error e =>
            cases hexec
            exact ⟨hholds, fun stored hstored => nomatch hstored⟩
        | ok infos =>
            cases hexec
            refine ⟨hholds, fun stored hstored => ?_⟩
            cases hstored
            exact hkeys infos rfl
  delete := by
    intro s batch h hbatch
    refine ⟨_, ?_, h.eraseAll batch⟩
    change exec (MapBlobStore.delete batch) s = _
    rw [MapBlobStore.delete, exec_bind_ok (exec_checkKeys_of_valid s hbatch),
      exec_bind_ok (exec_getState s)]
    rfl
  get := by
    intro s key _ hkey
    obtain ⟨answer, hread, _⟩ := exec_getWithMetadata_quiet hkey s
    exact ⟨_, exec_map_answer hread Prod.snd⟩
  existsBlob := by
    intro s key _ hkey
    refine ⟨(s.find key).isSome, ?_⟩
    change exec (MapBlobStore.existsBlob key) s = _
    rw [MapBlobStore.existsBlob, exec_bind_ok (exec_checkKey_of_valid s hkey)]
    rfl
  getWithMetadata _ hkey := exec_getWithMetadata_quiet hkey _
  list := by
    intro s filter _ hsound _
    change exec (store.list filter) s = _
    rw [MapBlobStore.list, exec_bind_ok (exec_getState s), selected_candidates hsound,
      filter_sortKeys]
    rfl
  visit := by
    intro s S filter visitor l _ hsound _
    show execLocal (visitEach visitor _) l s = execLocal (visitEach visitor _) l s
    rw [MapBlobStore.infos, selected_candidates hsound]
    congr 2
    induction s.objects.keys with
    | nil => rfl
    | cons key rest ih =>
        rw [List.filter_cons, List.filterMap_cons]
        cases hfind : s.find key with
        | none =>
            rw [Option.map_none]
            split
            · rw [List.filterMap_cons, hfind]
              exact ih
            · exact ih
        | some blob =>
            rw [Option.map_some]
            show _ = List.filter _ ((key, some (blob.info key)) :: _)
            rw [List.filter_cons]
            split
            · rw [List.filterMap_cons, hfind]
              exact congrArg _ ih
            · exact ih

end MapState

end BlobStorage
