import BlobStorage.Backend.Map
import BlobStorage.Browsing.Shown
import BlobStorage.Library.Ensures

/-!
# Prefix layers compose

A prefix layer over another is one layer with the two prefixes put together: it makes the same
requests of the store below, over any monad of effects, and every result and every call of a
visitor is the same. Only a store that speaks of keys it was not given can tell the two apart.
-/

namespace BlobStorage

open Fallible

variable {m : Type → Type} [Monad m]

/-- The results, records and batch errors of the store name only the keys they were asked for. -/
structure NamesGiven (store : BlobStore m) : Prop where
  put : ∀ blobs, Ensures (fun result => ∀ stored, result = .ok stored →
    ∀ info ∈ stored.blobs, info.key ∈ blobs.map BlobInput.key) (store.put blobs).run
  delete : ∀ keys, Ensures (fun result => ∀ error, result = .error (.batch error) →
    ∀ failed ∈ error.errors, failed.key ∈ keys) (store.delete keys).run
  getWithMetadata : ∀ key, Ensures (fun result => ∀ pair, result = .ok pair → pair.1.key = key)
    (store.getWithMetadata key).run

/-- Listings and walks yield only what begins with the prefix that was asked for. -/
structure ObeysPrefixes (store : BlobStore m) : Prop where
  list : ∀ start, Ensures (fun result => ∀ keys, result = .ok keys → ∀ key ∈ keys, start <+: key)
    (store.list (prefixFilter start)).run
  listWithMetadata : ∀ start, Ensures (fun result => ∀ infos, result = .ok infos →
    ∀ info ∈ infos, start <+: info.key) (store.listWithMetadata (prefixFilter start)).run
  visit : ∀ {S : Type} start {visitor other : BlobVisitor m S},
    (∀ key info, start <+: key → visitor.visit key info = other.visit key info) →
    store.visit (prefixFilter start) visitor = store.visit (prefixFilter start) other

section Keys

variable {p q : Key}

theorem stripKeyPrefix_of_append (p q key : Key) :
    stripKeyPrefix (p ++ q) key = (stripKeyPrefix p key).bind (stripKeyPrefix q) := by
  ext logical
  rw [stripKeyPrefix_eq_some_iff, Option.bind_eq_some_iff]
  constructor
  · rintro rfl
    exact ⟨q ++ logical, by rw [List.append_assoc, stripKeyPrefix_append],
      stripKeyPrefix_append q logical⟩
  · rintro ⟨middle, hmiddle, hlogical⟩
    rw [stripKeyPrefix_eq_some_iff] at hmiddle hlogical
    rw [hmiddle, hlogical, List.append_assoc]

/-- A visitor sees the same record behind two layers as behind one: a key without the prefix is
lost either way. -/
theorem stripKeyPrefix_of_append_getD (p q key : Key) :
    (stripKeyPrefix (p ++ q) key).getD [] =
      (stripKeyPrefix q ((stripKeyPrefix p key).getD [])).getD [] := by
  rw [stripKeyPrefix_of_append]
  cases stripKeyPrefix p key with
  | none =>
      rw [Option.bind_none, Option.getD_none, stripKeyPrefix]
      split <;> simp
  | some middle => rfl

theorem combinedPrefixFilter_combined (p q : Key) (filter : ListFilter) :
    combinedPrefixFilter p (combinedPrefixFilter q filter) = combinedPrefixFilter (p ++ q) filter := by
  unfold combinedPrefixFilter
  rw [List.append_assoc]
  rfl

/-- Below both prefixes, what the filter accepts under the key begins with its hint. -/
def KeepsHint (p q : Key) (filter : ListFilter) (key : Key) : Prop :=
  ∀ logical info, key = p ++ (q ++ logical) → filter.matchesBlob logical info = true →
    filter.prefixHint.getD [] <+: logical

theorem keepsHint_of_sound {filter : ListFilter} (h : filter.SoundHint) (key : Key) :
    KeepsHint p q filter key := fun _ _ _ hmatch => h.getD_isPrefix hmatch

theorem keepsHint_of_begins {filter : ListFilter} {key : Key}
    (h : p ++ (q ++ filter.prefixHint.getD []) <+: key) : KeepsHint p q filter key := by
  rintro logical info rfl _
  rwa [List.prefix_append_right_inj, List.prefix_append_right_inj] at h

/-- The layer in between drops nothing that the filter accepts. -/
theorem KeepsHint.combined {filter : ListFilter} {key middle logical : Key}
    (h : KeepsHint p q filter key) (hmiddle : stripKeyPrefix p key = some middle)
    (hlogical : stripKeyPrefix q middle = some logical) {info info' : Option BlobMeta}
    (hmatch : filter.matchesBlob logical info = true) :
    (combinedPrefixFilter q filter).matchesBlob middle info' = true := by
  rw [stripKeyPrefix_eq_some_iff] at hmiddle hlogical
  subst hlogical
  refine decide_eq_true ?_
  rw [List.prefix_append_right_inj]
  exact h logical info hmiddle hmatch

/-- One key of a listing, through two layers and through one. -/
theorem KeepsHint.listed {filter : ListFilter} {key : Key} (h : KeepsHint p q filter key) :
    ((stripKeyPrefix p key).filter fun middle =>
        (combinedPrefixFilter q filter).matchesBlob middle none).bind
      (fun middle => (stripKeyPrefix q middle).filter fun logical =>
        filter.matchesBlob logical none) =
    (stripKeyPrefix (p ++ q) key).filter fun logical => filter.matchesBlob logical none := by
  rw [stripKeyPrefix_of_append]
  cases hmiddle : stripKeyPrefix p key with
  | none => rfl
  | some middle =>
      rw [Option.bind_some, Option.filter_some]
      cases hkept : (combinedPrefixFilter q filter).matchesBlob middle none with
      | true => rfl
      | false =>
          rw [if_neg Bool.false_ne_true, Option.bind_none, eq_comm, Option.filter_eq_none_iff]
          intro logical hlogical hmatch
          rw [h.combined hmiddle hlogical hmatch] at hkept
          cases hkept

/-- One record of a listing, through two layers and through one. -/
theorem KeepsHint.recorded {filter : ListFilter} {info : BlobMeta}
    (h : KeepsHint p q filter info.key) :
    (prefixRecord p (combinedPrefixFilter q filter) info).bind
        (prefixRecord q filter) =
      prefixRecord (p ++ q) filter info := by
  unfold prefixRecord
  rw [stripKeyPrefix_of_append]
  cases hmiddle : stripKeyPrefix p info.key with
  | none => rfl
  | some middle =>
      rw [Option.bind_some]
      dsimp only
      cases hlogical : stripKeyPrefix q middle with
      | none =>
          dsimp only
          split
          · rw [Option.bind_some]
            dsimp only
            rw [hlogical]
          · rfl
      | some logical =>
          dsimp only
          split
          · rw [Option.bind_some]
            dsimp only
            rw [hlogical]
          · next hkept =>
              rw [Option.bind_none, if_neg]
              exact fun hmatch => hkept (h.combined hmiddle hlogical hmatch)

/-- What a visitor makes of an entry, behind two layers and behind one. -/
theorem KeepsHint.visited {S : Type} {filter : ListFilter} {key : Key}
    (h : KeepsHint p q filter key) (info : Option BlobMeta) (outer : BlobVisitor m S) :
    (PrefixBlobStore.visitor p (combinedPrefixFilter q filter)
        (PrefixBlobStore.visitor q filter outer)).visit key info =
      (PrefixBlobStore.visitor (p ++ q) filter outer).visit key info := by
  have hrecords : (info.map fun record : BlobMeta =>
        { record with key := (stripKeyPrefix p record.key).getD [] }).map
        (fun record => { record with key := (stripKeyPrefix q record.key).getD [] }) =
      info.map fun record =>
        { record with key := (stripKeyPrefix (p ++ q) record.key).getD [] } := by
    rw [Option.map_map]
    congr 1
    funext record
    rw [stripKeyPrefix_of_append_getD]
    rfl
  unfold PrefixBlobStore.visitor
  dsimp only
  rw [stripKeyPrefix_of_append, hrecords]
  cases hmiddle : stripKeyPrefix p key with
  | none => rfl
  | some middle =>
      rw [Option.bind_some]
      dsimp only
      cases hlogical : stripKeyPrefix q middle with
      | none => split <;> rfl
      | some logical =>
          dsimp only
          split
          · rfl
          · next hkept =>
              rw [if_neg]
              exact fun hmatch => hkept (h.combined hmiddle hlogical hmatch)

end Keys

namespace PrefixBlobStore

variable [LawfulMonad m]

theorem mapErr_run {α : Type} (f : BlobStorageError → BlobStorageError) (x : Fallible m α) :
    (mapErr f x).run = Except.mapError f <$> x.run := by
  rw [mapErr, ExceptT.run_bind, attempt, ExceptT.run_mk, bind_assoc, map_eq_pure_bind]
  congr 1
  funext r
  rw [pure_bind]
  cases r <;> rfl

/-- A key that is rejected is rejected whatever the prefix. -/
theorem prefixed_of_not_valid {key : Key} (hkey : ¬ValidKey key) :
    ∃ e, ∀ self : PrefixBlobStore m, self.prefixed key = throw e := by
  obtain ⟨e, _, he⟩ := @checkKey_of_not_valid m _ _ hkey
  exact ⟨e, fun self => by rw [prefixed, he, ExceptT.bind_throw]⟩

theorem prefixedAll_of_not_valid {keys : List Key} (h : ¬∀ key ∈ keys, ValidKey key) :
    ∃ e, ∀ self : PrefixBlobStore m, (∀ key, ValidKey key → ValidKey (self.keyPrefix ++ key)) →
      self.prefixedAll keys = throw e := by
  induction keys with
  | nil => simp at h
  | cons key rest ih =>
      by_cases hkey : ValidKey key
      · rw [List.forall_mem_cons, not_and] at h
        obtain ⟨e, he⟩ := ih (h hkey)
        refine ⟨e, fun self hvalid => ?_⟩
        rw [prefixedAll, self.prefixed_of_valid hkey (hvalid key hkey), pure_bind, he self hvalid,
          ExceptT.bind_throw]
      · obtain ⟨e, he⟩ := @prefixed_of_not_valid m _ _ _ hkey
        exact ⟨e, fun self _ => by rw [prefixedAll, he self, ExceptT.bind_throw]⟩

/-- A batch that passes the checks. -/
theorem put_of_valid (self : PrefixBlobStore m) {blobs : List BlobInput}
    (h : ∀ key ∈ blobs.map BlobInput.key, ValidKey key ∧ ValidKey (self.keyPrefix ++ key)) :
    self.put blobs =
      (fun result : PutResult => ⟨result.blobs.map (BlobMeta.stripped self.keyPrefix)⟩) <$>
        self.inner.put (blobs.map fun blob => { blob with key := self.keyPrefix ++ blob.key }) := by
  rw [put, self.prefixedAll_of_valid h, pure_bind, entriesOf_prefixed, bind_pure_comp]

theorem delete_of_valid (self : PrefixBlobStore m) {keys : List Key}
    (h : ∀ key ∈ keys, ValidKey key ∧ ValidKey (self.keyPrefix ++ key)) :
    self.delete keys =
      mapErr (mapBatchError self.keyPrefix) (self.inner.delete (keys.map (self.keyPrefix ++ ·))) := by
  rw [delete, self.prefixedAll_of_valid h, pure_bind]

theorem getWithMetadata_of_valid (self : PrefixBlobStore m) {key : Key} (hkey : ValidKey key)
    (hphysical : ValidKey (self.keyPrefix ++ key)) :
    self.getWithMetadata key =
      (fun pair : BlobMeta × Reader => (pair.1.stripped self.keyPrefix, pair.2)) <$>
        mapErr (mapError key) (self.inner.getWithMetadata (self.keyPrefix ++ key)) := by
  rw [getWithMetadata, self.prefixed_of_valid hkey hphysical, pure_bind, bind_pure_comp]

end PrefixBlobStore

/-- A layer with the prefix `q` over one with the prefix `p`. -/
abbrev prefixOverPrefix (inner : BlobStore m) (p q : Key) : PrefixBlobStore m :=
  { inner := PrefixBlobStore.toBlobStore { inner, keyPrefix := p }, keyPrefix := q }

/-- One layer with both prefixes. -/
abbrev joinedPrefix (inner : BlobStore m) (p q : Key) : PrefixBlobStore m :=
  { inner, keyPrefix := p ++ q }

section Layers

open PrefixBlobStore

variable [LawfulMonad m] {inner : BlobStore m} {p q : Key}

theorem mapErr_mapErr {α : Type} (f g : BlobStorageError → BlobStorageError) (x : Fallible m α) :
    mapErr f (mapErr g x) = mapErr (f ∘ g) x := by
  apply ExceptT.ext
  rw [mapErr_run, mapErr_run, mapErr_run, ← comp_map]
  congr 1
  funext r
  cases r <;> rfl

/-- The error that names the key the caller asked for does not show through how many layers it
came. -/
theorem mapError_mapError (key other : Key) : mapError key ∘ mapError other = mapError key := by
  funext e
  cases e <;> rfl

/-- An operation on one key, translated at both levels or once. -/
theorem prefixed_composes {α : Type} (hq : ∀ key, ValidKey key → ValidKey (q ++ key))
    (hpq : ∀ key, ValidKey key → ValidKey (p ++ q ++ key)) (f : Key → Fallible m α) (key : Key) :
    (do let middle ← (prefixOverPrefix inner p q).prefixed key
        mapErr (mapError key) (do
          let physical ← PrefixBlobStore.prefixed { inner, keyPrefix := p } middle
          mapErr (mapError middle) (f physical))) =
      (do let physical ← (joinedPrefix inner p q).prefixed key
          mapErr (mapError key) (f physical)) := by
  by_cases hkey : ValidKey key
  · have hphysical : ValidKey (p ++ (q ++ key)) := by
      rw [← List.append_assoc]
      exact hpq key hkey
    rw [prefixed_of_valid _ hkey (hq key hkey), pure_bind,
      prefixed_of_valid _ (hq key hkey) hphysical, pure_bind, mapErr_mapErr, mapError_mapError,
      prefixed_of_valid _ hkey (hpq key hkey), pure_bind, List.append_assoc]
  · obtain ⟨e, he⟩ := @prefixed_of_not_valid m _ _ _ hkey
    rw [he, he, ExceptT.bind_throw, ExceptT.bind_throw]

theorem stripped_of_key {info : BlobMeta} {key : Key} (h : info.key = p ++ key) :
    info.stripped p = { info with key := key } := by
  rw [BlobMeta.stripped, h, stripKeyPrefix_append]
  rfl

/-- A record of a key below both prefixes. -/
theorem stripped_stripped {info : BlobMeta} {key : Key} (h : info.key = p ++ (q ++ key)) :
    (info.stripped p).stripped q = info.stripped (p ++ q) := by
  rw [stripped_of_key h, @stripped_of_key q _ key rfl,
    @stripped_of_key (p ++ q) info key (by rw [h, List.append_assoc])]

/-- Where the prefixes keep keys valid, a batch passes the checks of each layer. -/
theorem valid_through (hq : ∀ key, ValidKey key → ValidKey (q ++ key))
    (hpq : ∀ key, ValidKey key → ValidKey (p ++ q ++ key)) {keys : List Key}
    (hkeys : ∀ key ∈ keys, ValidKey key) :
    (∀ key ∈ keys, ValidKey key ∧ ValidKey (q ++ key)) ∧
      (∀ key ∈ keys, ValidKey key ∧ ValidKey (p ++ q ++ key)) ∧
      ∀ key ∈ keys.map (q ++ ·), ValidKey key ∧ ValidKey (p ++ key) := by
  refine ⟨fun key hkey => ⟨hkeys key hkey, hq key (hkeys key hkey)⟩,
    fun key hkey => ⟨hkeys key hkey, hpq key (hkeys key hkey)⟩, fun middle hmiddle => ?_⟩
  obtain ⟨key, hkey, rfl⟩ := List.mem_map.mp hmiddle
  refine ⟨hq key (hkeys key hkey), ?_⟩
  rw [← List.append_assoc]
  exact hpq key (hkeys key hkey)

theorem put_composes (hq : ∀ key, ValidKey key → ValidKey (q ++ key))
    (hpq : ∀ key, ValidKey key → ValidKey (p ++ q ++ key)) (hinner : NamesGiven inner)
    (blobs : List BlobInput) :
    (prefixOverPrefix inner p q).put blobs = (joinedPrefix inner p q).put blobs := by
  by_cases hkeys : ∀ key ∈ blobs.map BlobInput.key, ValidKey key
  · obtain ⟨hmiddle, hjoined, hthrough⟩ := valid_through hq hpq hkeys
    have hmapped : (blobs.map fun blob => { blob with key := q ++ blob.key }).map BlobInput.key =
        (blobs.map BlobInput.key).map (q ++ ·) := by
      rw [List.map_map, List.map_map]
      rfl
    rw [← hmapped] at hthrough
    have hsame : ((blobs.map fun blob => { blob with key := q ++ blob.key }).map
        fun blob : BlobInput => { blob with key := p ++ blob.key }) =
        blobs.map fun blob => { blob with key := p ++ q ++ blob.key } := by
      rw [List.map_map]
      refine List.map_congr_left fun blob _ => ?_
      rw [Function.comp_apply, List.append_assoc]
    rw [put_of_valid (prefixOverPrefix inner p q) hmiddle,
      put_of_valid (joinedPrefix inner p q) hjoined]
    change _ <$> PrefixBlobStore.put { inner, keyPrefix := p } _ = _
    rw [put_of_valid { inner, keyPrefix := p } hthrough, hsame, ← comp_map]
    apply ExceptT.ext
    rw [ExceptT.run_map, ExceptT.run_map]
    refine (hinner.put _).map_congr fun result hresult => ?_
    cases result with
    | error e => rfl
    | ok stored =>
        have hstripped : (stored.blobs.map (BlobMeta.stripped p)).map (BlobMeta.stripped q) =
            stored.blobs.map (BlobMeta.stripped (p ++ q)) := by
          rw [List.map_map]
          refine List.map_congr_left fun info hinfo => ?_
          have hkey := hresult stored rfl info hinfo
          rw [List.map_map] at hkey
          obtain ⟨blob, _, hblob⟩ := List.mem_map.mp hkey
          refine @stripped_stripped p q info blob.key ?_
          rw [← hblob, ← List.append_assoc]
          rfl
        exact congrArg (fun infos => Except.ok (PutResult.mk infos)) hstripped
  · obtain ⟨e, he⟩ := @prefixedAll_of_not_valid m _ _ _ hkeys
    rw [PrefixBlobStore.put, PrefixBlobStore.put, he _ hq, he _ hpq, ExceptT.bind_throw,
      ExceptT.bind_throw]

/-- A report of keys below both prefixes. -/
theorem mapBatchError_mapBatchError {error : BatchError}
    (h : ∀ failed ∈ error.errors, ∃ key, failed.key = p ++ (q ++ key)) :
    mapBatchError q (mapBatchError p (.batch error)) = mapBatchError (p ++ q) (.batch error) := by
  have hsucceeded : (error.succeeded.filterMap (stripKeyPrefix p)).filterMap (stripKeyPrefix q) =
      error.succeeded.filterMap (stripKeyPrefix (p ++ q)) := by
    rw [List.filterMap_filterMap]
    refine List.filterMap_congr fun key _ => ?_
    exact (stripKeyPrefix_of_append p q key).symm
  have herrors : (error.errors.map fun failed =>
        { failed with key := (stripKeyPrefix p failed.key).getD failed.key }).map
        (fun failed => { failed with key := (stripKeyPrefix q failed.key).getD failed.key }) =
      error.errors.map fun failed =>
        { failed with key := (stripKeyPrefix (p ++ q) failed.key).getD failed.key } := by
    rw [List.map_map]
    refine List.map_congr_left fun failed hfailed => ?_
    obtain ⟨key, hkey⟩ := h failed hfailed
    rw [Function.comp_apply, hkey, stripKeyPrefix_append, Option.getD_some, stripKeyPrefix_append,
      ← List.append_assoc, stripKeyPrefix_append]
    rfl
  exact congrArg₂ (fun succeeded errors => BlobStorageError.batch ⟨succeeded, errors⟩) hsucceeded
    herrors

theorem delete_composes (hq : ∀ key, ValidKey key → ValidKey (q ++ key))
    (hpq : ∀ key, ValidKey key → ValidKey (p ++ q ++ key)) (hinner : NamesGiven inner)
    (keys : List Key) :
    (prefixOverPrefix inner p q).delete keys = (joinedPrefix inner p q).delete keys := by
  by_cases hkeys : ∀ key ∈ keys, ValidKey key
  · obtain ⟨hmiddle, hjoined, hthrough⟩ := valid_through hq hpq hkeys
    have hsame : (keys.map (q ++ ·)).map (p ++ ·) = keys.map (p ++ q ++ ·) := by
      rw [List.map_map]
      refine List.map_congr_left fun key _ => ?_
      rw [Function.comp_apply, List.append_assoc]
    rw [delete_of_valid (prefixOverPrefix inner p q) hmiddle,
      delete_of_valid (joinedPrefix inner p q) hjoined]
    change mapErr _ (PrefixBlobStore.delete { inner, keyPrefix := p } _) = _
    rw [delete_of_valid { inner, keyPrefix := p } hthrough, hsame, mapErr_mapErr]
    apply ExceptT.ext
    rw [mapErr_run, mapErr_run]
    refine (hinner.delete _).map_congr fun result hresult => ?_
    cases result with
    | ok done => rfl
    | error e =>
        cases e with
        | batch error =>
            refine congrArg Except.error (mapBatchError_mapBatchError fun failed hfailed => ?_)
            obtain ⟨key, _, hkey⟩ := List.mem_map.mp (hresult error rfl failed hfailed)
            exact ⟨key, by rw [← hkey, List.append_assoc]⟩
        | _ => rfl
  · obtain ⟨e, he⟩ := @prefixedAll_of_not_valid m _ _ _ hkeys
    rw [PrefixBlobStore.delete, PrefixBlobStore.delete, he _ hq, he _ hpq, ExceptT.bind_throw,
      ExceptT.bind_throw]

theorem getWithMetadata_composes (hq : ∀ key, ValidKey key → ValidKey (q ++ key))
    (hpq : ∀ key, ValidKey key → ValidKey (p ++ q ++ key)) (hinner : NamesGiven inner)
    (key : Key) :
    (prefixOverPrefix inner p q).getWithMetadata key =
      (joinedPrefix inner p q).getWithMetadata key := by
  by_cases hkey : ValidKey key
  · have hphysical : ValidKey (p ++ (q ++ key)) := by
      rw [← List.append_assoc]
      exact hpq key hkey
    rw [getWithMetadata_of_valid (prefixOverPrefix inner p q) hkey (hq key hkey),
      getWithMetadata_of_valid (joinedPrefix inner p q) hkey (hpq key hkey)]
    change _ <$> mapErr _ (PrefixBlobStore.getWithMetadata { inner, keyPrefix := p } _) = _
    rw [getWithMetadata_of_valid { inner, keyPrefix := p } (hq key hkey) hphysical]
    apply ExceptT.ext
    rw [ExceptT.run_map, mapErr_run, ExceptT.run_map, mapErr_run, ExceptT.run_map, mapErr_run,
      ← List.append_assoc, ← comp_map, ← comp_map, ← comp_map, ← comp_map]
    refine (hinner.getWithMetadata _).map_congr fun result hresult => ?_
    cases result with
    | error e => cases e <;> rfl
    | ok pair =>
        have hpair := @stripped_stripped p q pair.1 key (by
          rw [hresult pair rfl, List.append_assoc])
        exact congrArg (fun info => Except.ok (info, pair.2)) hpair
  · obtain ⟨e, he⟩ := @prefixed_of_not_valid m _ _ _ hkey
    rw [PrefixBlobStore.getWithMetadata, PrefixBlobStore.getWithMetadata, he, he,
      ExceptT.bind_throw, ExceptT.bind_throw]

section Listings

variable {filter : ListFilter}

theorem list_keepsHint (h : filter.SoundHint ∨ ObeysPrefixes inner) :
    Ensures (fun result => ∀ keys, result = .ok keys → ∀ key ∈ keys, KeepsHint p q filter key)
      (inner.list (combinedPrefixFilter (p ++ q) filter)).run := by
  obtain hsound | hobeys := h
  · exact .of_forall fun _ _ _ key _ => keepsHint_of_sound hsound key
  · refine (hobeys.list _).mono fun result hresult keys hkeys key hkey => ?_
    have hstart := hresult keys hkeys key hkey
    rw [List.append_assoc] at hstart
    exact keepsHint_of_begins hstart

theorem listWithMetadata_keepsHint (h : filter.SoundHint ∨ ObeysPrefixes inner) :
    Ensures (fun result => ∀ infos, result = .ok infos →
        ∀ info ∈ infos, KeepsHint p q filter info.key)
      (inner.listWithMetadata (combinedPrefixFilter (p ++ q) filter)).run := by
  obtain hsound | hobeys := h
  · exact .of_forall fun _ _ _ info _ => keepsHint_of_sound hsound info.key
  · refine (hobeys.listWithMetadata _).mono fun result hresult infos hinfos info hinfo => ?_
    have hstart := hresult infos hinfos info hinfo
    rw [List.append_assoc] at hstart
    exact keepsHint_of_begins hstart

theorem list_composes (h : filter.SoundHint ∨ ObeysPrefixes inner) :
    (prefixOverPrefix inner p q).list filter = (joinedPrefix inner p q).list filter := by
  rw [PrefixBlobStore.list, PrefixBlobStore.list, bind_pure_comp, bind_pure_comp]
  change _ <$> PrefixBlobStore.list { inner, keyPrefix := p } _ = _
  rw [PrefixBlobStore.list, bind_pure_comp, combinedPrefixFilter_combined, ← comp_map]
  apply ExceptT.ext
  rw [ExceptT.run_map, ExceptT.run_map]
  refine (list_keepsHint h).map_congr fun result hresult => ?_
  cases result with
  | error e => rfl
  | ok keys =>
      have hkeeps : ∀ key ∈ keys, KeepsHint p q filter key := hresult keys rfl
      refine congrArg Except.ok ?_
      change ((((keys.filterMap (stripKeyPrefix p)).filter fun middle =>
        (combinedPrefixFilter q filter).matchesBlob middle none).filterMap
          (stripKeyPrefix q)).filter fun logical => filter.matchesBlob logical none) =
        (keys.filterMap (stripKeyPrefix (p ++ q))).filter fun logical =>
          filter.matchesBlob logical none
      rw [List.filter_filterMap, List.filter_filterMap, List.filter_filterMap,
        List.filterMap_filterMap]
      exact List.filterMap_congr fun key hkey => (hkeeps key hkey).listed

theorem listWithMetadata_composes (h : filter.SoundHint ∨ ObeysPrefixes inner) :
    (prefixOverPrefix inner p q).listWithMetadata filter =
      (joinedPrefix inner p q).listWithMetadata filter := by
  rw [PrefixBlobStore.listWithMetadata, PrefixBlobStore.listWithMetadata, bind_pure_comp,
    bind_pure_comp]
  change _ <$> PrefixBlobStore.listWithMetadata { inner, keyPrefix := p } _ = _
  rw [PrefixBlobStore.listWithMetadata, bind_pure_comp, combinedPrefixFilter_combined, ← comp_map]
  apply ExceptT.ext
  rw [ExceptT.run_map, ExceptT.run_map]
  refine (listWithMetadata_keepsHint h).map_congr fun result hresult => ?_
  cases result with
  | error e => rfl
  | ok infos =>
      have hkeeps : ∀ info ∈ infos, KeepsHint p q filter info.key := hresult infos rfl
      refine congrArg Except.ok ?_
      change (infos.filterMap (prefixRecord p (combinedPrefixFilter q filter))).filterMap
        (prefixRecord q filter) = infos.filterMap (prefixRecord (p ++ q) filter)
      rw [List.filterMap_filterMap]
      exact List.filterMap_congr fun info hinfo => (hkeeps info hinfo).recorded

omit [LawfulMonad m] in
theorem visit_composes (h : filter.SoundHint ∨ ObeysPrefixes inner) {S : Type}
    (outer : BlobVisitor m S) :
    (prefixOverPrefix inner p q).visit filter outer = (joinedPrefix inner p q).visit filter outer := by
  change inner.visit (combinedPrefixFilter p (combinedPrefixFilter q filter)) _ =
    inner.visit (combinedPrefixFilter (p ++ q) filter) _
  rw [combinedPrefixFilter_combined]
  obtain hsound | hobeys := h
  · congr 1
    refine congrArg BlobVisitor.mk (funext fun key => funext fun info => ?_)
    exact (keepsHint_of_sound hsound key).visited info outer
  · refine hobeys.visit _ fun key info hstart => ?_
    rw [List.append_assoc] at hstart
    exact (keepsHint_of_begins hstart).visited info outer

end Listings

/-- Two prefix layers are one: every operation is the same computation over the store below, with
its requests, its results, and what it hands to visitors. For listings and walks the filter has a
sound hint, or the store below keeps to the prefix it is asked for. -/
theorem prefix_layers_compose (hq : ∀ key, ValidKey key → ValidKey (q ++ key))
    (hpq : ∀ key, ValidKey key → ValidKey (p ++ q ++ key)) (hinner : NamesGiven inner) :
    let nested := (prefixOverPrefix inner p q).toBlobStore
    let joined := (joinedPrefix inner p q).toBlobStore
    (∀ blobs, nested.put blobs = joined.put blobs) ∧
      (∀ key, nested.get key = joined.get key) ∧
      (∀ keys, nested.delete keys = joined.delete keys) ∧
      (∀ key, nested.existsBlob key = joined.existsBlob key) ∧
      (∀ key, nested.getWithMetadata key = joined.getWithMetadata key) ∧
      ∀ filter : ListFilter, filter.SoundHint ∨ ObeysPrefixes inner →
        nested.list filter = joined.list filter ∧
          nested.listWithMetadata filter = joined.listWithMetadata filter ∧
          ∀ {S : Type} (visitor : BlobVisitor m S),
            nested.visit filter visitor = joined.visit filter visitor := by
  intro nested joined
  refine ⟨fun blobs => put_composes hq hpq hinner blobs,
    fun key => prefixed_composes hq hpq inner.get key,
    fun keys => delete_composes hq hpq hinner keys,
    fun key => prefixed_composes hq hpq inner.existsBlob key,
    fun key => getWithMetadata_composes hq hpq hinner key, fun filter hfilter => ?_⟩
  exact ⟨list_composes hfilter, listWithMetadata_composes hfilter, fun visitor =>
    visit_composes hfilter visitor⟩

end Layers

section Samples

theorem MapBlobStore.putBlobs_keys {blobs : List BlobInput} {s t : MapState}
    {infos : List BlobMeta} (h : exec (MapBlobStore.putBlobs blobs) s = (.ok infos, t)) :
    infos.map BlobMeta.key = blobs.map BlobInput.key := by
  induction blobs generalizing s infos with
  | nil =>
      cases h
      rfl
  | cons blob rest ih =>
      rw [MapBlobStore.putBlobs] at h
      cases hread : blob.data.readToEnd with
      | error e =>
          rw [hread] at h
          cases h
      | ok content =>
          rw [hread] at h
          dsimp only at h
          rw [exec_bind_ok (exec_getState s), exec_bind_ok (exec_setState s _)] at h
          obtain ⟨others, u, hrest, hpure⟩ := exec_bind_eq_ok.mp h
          cases hpure
          rw [List.map_cons, List.map_cons, ih hrest]

/-- The map backend names only what it is given. -/
theorem MapBlobStore.namesGiven (store : MapBlobStore) : NamesGiven store.toBlobStore where
  put blobs := by
    refine ensures_stateM_iff.mpr fun s stored hstored info hinfo => ?_
    have hexec : exec (MapBlobStore.put blobs) s = (.ok stored, (exec (MapBlobStore.put blobs) s).2) :=
      Prod.ext hstored rfl
    obtain ⟨_, u, _, hrest⟩ := exec_bind_eq_ok.mp hexec
    obtain ⟨infos, v, hinfos, hpure⟩ := exec_bind_eq_ok.mp hrest
    cases hpure
    rw [← putBlobs_keys hinfos]
    exact List.mem_map_of_mem hinfo
  delete keys := by
    refine ensures_stateM_iff.mpr fun s error herror => ?_
    have hresult : (exec (MapBlobStore.delete keys) s).1 = .error (.batch error) := herror
    rw [MapBlobStore.delete] at hresult
    by_cases hkeys : ∀ key ∈ keys, ValidKey key
    · rw [exec_bind_ok (exec_checkKeys_of_valid s hkeys)] at hresult
      cases hresult
    · obtain ⟨e, he, hcheck⟩ := exec_checkKeys_of_not_valid s hkeys
      rw [exec_bind_error hcheck] at hresult
      cases hresult
      exact absurd he not_false
  getWithMetadata key := by
    refine ensures_stateM_iff.mpr fun s pair hpair => ?_
    have hexec : exec (MapBlobStore.getWithMetadata key) s =
        (.ok pair, (exec (MapBlobStore.getWithMetadata key) s).2) := Prod.ext hpair rfl
    obtain ⟨_, u, _, hrest⟩ := exec_bind_eq_ok.mp hexec
    rw [exec_bind_ok (exec_getState u)] at hrest
    cases hfind : u.find key with
    | none =>
        rw [hfind] at hrest
        cases hrest
    | some blob =>
        rw [hfind] at hrest
        cases hrest
        rfl

theorem MapBlobStore.obeysPrefixes (store : MapBlobStore) : ObeysPrefixes store.toBlobStore where
  list start := by
    refine ensures_stateM_iff.mpr fun s keys hkeys key hkey => ?_
    cases hkeys
    rw [mem_sortKeys] at hkey
    exact of_decide_eq_true (List.mem_filter.mp hkey).2
  listWithMetadata start := by
    refine ensures_stateM_iff.mpr fun s infos hinfos info hinfo => ?_
    cases hinfos
    obtain ⟨key, blob, _, rfl, hmatch, _⟩ :=
      MapBlobStore.mem_infos_iff.mp ((List.perm_insertionSort _ _).mem_iff.mp hinfo)
    exact of_decide_eq_true hmatch
  visit start visitor other h := by
    change (withLocal getState >>= fun s => visitEach visitor _) =
      (withLocal getState >>= fun s => visitEach other _)
    congr 1
    funext s
    refine visitEach_congr fun entry hentry => ?_
    obtain ⟨info, hinfo, rfl⟩ := List.mem_map.mp hentry
    obtain ⟨key, blob, _, rfl, hmatch, _⟩ := MapBlobStore.mem_infos_iff.mp hinfo
    exact h key _ (of_decide_eq_true hmatch)

/-- The map backend with a listing that takes no notice of the filter. -/
def looseStore : BlobStore (StateM MapState) :=
  { (MapBlobStore.mk false).toBlobStore with
    list := fun _ => MapBlobStore.list ⟨false⟩ (suffixFilter []) }

/-- The filter accepts every key, and its hint excludes all that do not begin with `z`. -/
def hintedFilter : ListFilter := { matchesBlob := fun _ _ => true, prefixHint := some ['z'] }

/-- Two layers drop a key that the hint excludes, and one layer lists it. -/
theorem loose_listing_differs :
    (∀ key, ValidKey key → ValidKey (['q', '/'] ++ key)) ∧
      (∀ key, ValidKey key → ValidKey (['p', '/'] ++ ['q', '/'] ++ key)) ∧
      NamesGiven looseStore ∧
      (prefixOverPrefix looseStore ['p', '/'] ['q', '/']).toBlobStore.list hintedFilter ≠
        (joinedPrefix looseStore ['p', '/'] ['q', '/']).toBlobStore.list hintedFilter := by
  have hnames := MapBlobStore.namesGiven ⟨false⟩
  refine ⟨fun key hkey => hkey.prepend_iff.mpr (by decide),
    fun key hkey => hkey.prepend_iff.mpr (by decide),
    ⟨hnames.put, hnames.delete, hnames.getWithMetadata⟩, fun hsame => ?_⟩
  have hshown := congrArg
    (fun listing => (exec listing (MapState.empty.write ['p', '/', 'q', '/', 'y'] [1])).1) hsame
  exact absurd hshown (by decide)

/-- A prefix that cuts a component in two, over one that ends at a separator. -/
theorem prefix_layers_compose_cut :
    (∀ key, ValidKey key → ValidKey (['x'] ++ key)) ∧
      (prefixOverPrefix (MapBlobStore.mk true).toBlobStore ['p', '/'] ['x']).toBlobStore.list
          (prefixFilter ['a']) =
        (joinedPrefix (MapBlobStore.mk true).toBlobStore ['p', '/'] ['x']).toBlobStore.list
          (prefixFilter ['a']) := by
  have hq : ∀ key, ValidKey key → ValidKey (['x'] ++ key) := fun key hkey =>
    hkey.prepend_iff.mpr (by decide)
  have hpq : ∀ key, ValidKey key → ValidKey (['p', '/'] ++ ['x'] ++ key) := fun key hkey =>
    hkey.prepend_iff.mpr (by decide)
  obtain ⟨_, _, _, _, _, hlist⟩ :=
    prefix_layers_compose hq hpq (MapBlobStore.namesGiven ⟨true⟩)
  exact ⟨hq, (hlist (prefixFilter ['a']) (.inr (MapBlobStore.obeysPrefixes ⟨true⟩))).1⟩

end Samples

end BlobStorage
