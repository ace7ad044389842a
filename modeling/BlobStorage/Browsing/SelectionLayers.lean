import BlobStorage.Browsing.Pullback
import BlobStorage.Browsing.Selection
import BlobStorage.Browsing.Visibility

/-!
# Layers over an enumeration

Each layer keeps what an enumeration says of the store below: what it lets through of a walk and
of a listing is what it makes of the records that the store comes by.
-/

namespace BlobStorage

open Fallible

variable {σ : Type} {s : σ} {E : Enumeration} {filter : ListFilter}

/-- What is sorted out in advance would not have been kept anyway. -/
theorem filterMap_filter_of_kept {α β : Type} {f : α → Option β} {keep : α → Bool}
    (h : ∀ a b, f a = some b → keep a = true) (items : List α) :
    (items.filter keep).filterMap f = items.filterMap f := by
  rw [List.filterMap_filter]
  refine List.filterMap_congr fun a _ => ?_
  cases hf : f a with
  | none => exact ite_self none
  | some b => exact if_pos (h a b hf)

section Results

variable {α β : Type} {answer : Except BlobStorageError α} {f : α → β}

theorem map_eq_ok_iff {b : β} : answer.map f = .ok b ↔ ∃ a, answer = .ok a ∧ f a = b := by
  cases answer <;> simp [Except.map]

theorem exists_map_eq_ok_iff : (∃ b, answer.map f = .ok b) ↔ ∃ a, answer = .ok a := by
  simp only [map_eq_ok_iff]
  constructor
  · rintro ⟨_, a, h, _⟩
    exact ⟨a, h⟩
  · rintro ⟨a, h⟩
    exact ⟨_, a, h, rfl⟩

theorem map_eq_error {e : BlobStorageError} (h : answer.map f = .error e) : answer = .error e := by
  cases answer with
  | ok a => cases h
  | error other => exact congrArg Except.error (Except.error.inj h)

end Results

section PrefixLayer

variable {start : Key}

theorem BlobMeta.logical_eq_some_iff {info record : BlobMeta} :
    info.logical start = some record ↔
      info.key = start ++ record.key ∧ record = { info with key := record.key } := by
  unfold logical
  rw [Option.map_eq_some_iff]
  constructor
  · rintro ⟨key, hstrip, rfl⟩
    exact ⟨stripKeyPrefix_eq_some_iff.mp hstrip, rfl⟩
  · rintro ⟨hkey, hrecord⟩
    exact ⟨record.key, stripKeyPrefix_eq_some_iff.mpr hkey, hrecord.symm⟩

theorem BlobMeta.logical_key (info : BlobMeta) :
    (info.logical start).map BlobMeta.key = stripKeyPrefix start info.key := by
  unfold logical
  rw [Option.map_map]
  exact Option.map_id'

/-- What has a logical record in the filter has not been kept from the store below. -/
theorem combined_of_logical (hsound : filter.SoundHint) {info record : BlobMeta}
    {about : Option BlobMeta} (hlogical : info.logical start = some record)
    (hmatch : filter.matchesBlob record.key about = true) (seen : Option BlobMeta) :
    (combinedPrefixFilter start filter).matchesBlob info.key seen = true := by
  obtain ⟨hkey, _⟩ := BlobMeta.logical_eq_some_iff.mp hlogical
  rw [hkey]
  apply decide_eq_true
  exact (List.prefix_append_right_inj start).mpr (hsound.getD_isPrefix hmatch)

theorem prefixRelay_entry (info : BlobMeta) :
    (prefixRelay start filter info.key (some info)).entry =
      ((info.logical start).filter filter.byRecord).map fun record => (record.key, some record) := by
  unfold prefixRelay BlobMeta.logical
  cases hstrip : stripKeyPrefix start info.key with
  | none => rfl
  | some logical =>
      dsimp only [Option.map_some]
      rw [hstrip, Option.filter_some, ListFilter.byRecord, Option.getD_some]
      split <;> rfl

theorem prefixRecord_eq (info : BlobMeta) :
    prefixRecord start filter info = (info.logical start).filter filter.byRecord := by
  unfold prefixRecord BlobMeta.logical
  cases stripKeyPrefix start info.key with
  | none => rfl
  | some logical => rw [Option.map_some, Option.filter_some, ListFilter.byRecord]

/-- The three listings of the layer, of the records that the store below comes by. -/
theorem walked_logical (hsound : filter.SoundHint) (infos : List BlobMeta) :
    ((infos.filter (combinedPrefixFilter start filter).byKey).map
        fun info => (info.key, some info)).filterMap
          (fun entry => (prefixRelay start filter entry.1 entry.2).entry) =
      ((infos.filterMap (BlobMeta.logical start)).filter filter.byRecord).map
        fun record => (record.key, some record) := by
  rw [List.filterMap_map, List.filter_filterMap, List.map_filterMap, filterMap_filter_of_kept]
  · exact List.filterMap_congr fun info _ => prefixRelay_entry info
  · intro info entry hentry
    rw [Function.comp_apply, prefixRelay_entry, Option.map_eq_some_iff] at hentry
    obtain ⟨record, hrecord, _⟩ := hentry
    obtain ⟨hlogical, hmatch⟩ := Option.filter_eq_some_iff.mp hrecord
    exact combined_of_logical hsound hlogical hmatch none

theorem listed_logical (hsound : filter.SoundHint) (infos : List BlobMeta) :
    (((infos.filter (combinedPrefixFilter start filter).byKey).map BlobMeta.key).filterMap
        (stripKeyPrefix start)).filter (fun key => filter.matchesBlob key none) =
      ((infos.filterMap (BlobMeta.logical start)).filter filter.byKey).map BlobMeta.key := by
  have hkept : ∀ info : BlobMeta, (stripKeyPrefix start info.key).filter
      (fun key => filter.matchesBlob key none) =
        ((info.logical start).filter filter.byKey).map BlobMeta.key := by
    intro info
    rw [← info.logical_key]
    cases info.logical start with
    | none => rfl
    | some record =>
        rw [Option.map_some, Option.filter_some, Option.filter_some, ListFilter.byKey]
        split <;> rfl
  rw [List.filterMap_map, List.filter_filterMap, List.filter_filterMap, List.map_filterMap,
    filterMap_filter_of_kept]
  · exact List.filterMap_congr fun info _ => hkept info
  · intro info key hkey
    rw [Function.comp_apply, hkept, Option.map_eq_some_iff] at hkey
    obtain ⟨record, hrecord, _⟩ := hkey
    obtain ⟨hlogical, hmatch⟩ := Option.filter_eq_some_iff.mp hrecord
    exact combined_of_logical hsound hlogical hmatch none

theorem recorded_logical (hsound : filter.SoundHint) (infos : List BlobMeta) :
    (infos.filter (combinedPrefixFilter start filter).byKey).filterMap (prefixRecord start filter) =
      (infos.filterMap (BlobMeta.logical start)).filter filter.byRecord := by
  rw [List.filter_filterMap, filterMap_filter_of_kept]
  · exact List.filterMap_congr fun info _ => prefixRecord_eq info
  · intro info record hrecord
    rw [prefixRecord_eq] at hrecord
    obtain ⟨hlogical, hmatch⟩ := Option.filter_eq_some_iff.mp hrecord
    exact combined_of_logical hsound hlogical hmatch none

theorem prefixedKey_cases (start key : Key) :
    prefixedKey start key = .ok (start ++ key) ∨
      ∃ e, e.IsInvalidInput ∧ prefixedKey start key = .error e := by
  unfold prefixedKey
  obtain ⟨_, hkey⟩ | ⟨_, e, hkey, he⟩ := validateBlobKey_cases key
  · obtain ⟨_, hphysical⟩ | ⟨_, e, hphysical, he⟩ := validateBlobKey_cases (start ++ key)
    · left
      rw [hkey, hphysical]
      rfl
    · exact .inr ⟨e, he, by rw [hkey, hphysical]; rfl⟩
  · exact .inr ⟨e, he, by rw [hkey]; rfl⟩

theorem mapError_eq_notFound {α : Type} {answer : Except BlobStorageError α} {key other : Key}
    (h : answer.mapError (PrefixBlobStore.mapError key) = .error (.notFound other)) :
    ∃ inner, answer = .error (.notFound inner) := by
  cases answer with
  | ok a => cases h
  | error e =>
      cases e with
      | notFound inner => exact ⟨inner, rfl⟩
      | _ => cases h

theorem mapError_eq_ok {α : Type} {answer : Except BlobStorageError α} {key : Key} {a : α}
    (h : answer.mapError (PrefixBlobStore.mapError key) = .ok a) : answer = .ok a := by
  cases answer with
  | ok b => exact h
  | error e => cases h

/-- What the layer answers about a key is what the store below says of the physical one. -/
theorem prefixedKey_bind_eq {α : Type} {key : Key} {f : Key → Except BlobStorageError α}
    {answer : Except BlobStorageError α} (h : (prefixedKey start key >>= f) = answer)
    (hanswer : ∀ e, e.IsInvalidInput → answer ≠ .error e) :
    prefixedKey start key = .ok (start ++ key) ∧ f (start ++ key) = answer := by
  obtain hkey | ⟨e, he, hkey⟩ := prefixedKey_cases start key
  · rw [hkey] at h
    exact ⟨hkey, h⟩
  · rw [hkey] at h
    exact absurd h.symm (hanswer e he)

variable {shown : Shown}

theorem Reads.FindsPresent.prefixed (h : shown.FindsPresent) (start : Key) :
    (shown.prefixed start).FindsPresent := by
  intro key other hexists hget
  obtain ⟨_, hthere⟩ := prefixedKey_bind_eq hexists fun e _ => nofun
  obtain ⟨_, hmissing⟩ := prefixedKey_bind_eq hget (notFound_ne_invalid other)
  obtain ⟨inner, hinner⟩ := mapError_eq_notFound hmissing
  exact h _ inner (mapError_eq_ok hthere) hinner

/-- Two records with one key are behind the prefix under one key. -/
theorem nodup_logical {infos : List BlobMeta} (h : (infos.map BlobMeta.key).Nodup) :
    ((infos.filterMap (BlobMeta.logical start)).map BlobMeta.key).Nodup := by
  have hkeys : (infos.filterMap (BlobMeta.logical start)).map BlobMeta.key =
      (infos.map BlobMeta.key).filterMap (stripKeyPrefix start) := by
    rw [List.map_filterMap, List.filterMap_map]
    exact List.filterMap_congr fun info _ => info.logical_key
  rw [hkeys]
  refine h.filterMap fun key other logical hkey hother => ?_
  rw [Option.mem_def, stripKeyPrefix_eq_some_iff] at hkey hother
  rw [hkey, hother]

namespace Enumeration

theorem Right.prefixed (h : E.Right) (start : Key) :
    (Layer.over s E (.keyPrefix start)).Right := by
  have hcombined := fun filter => combinedPrefixFilter_sound start filter
  have hasks := fun filter => h.asks_of_metadataIndependent
    (combinedPrefixFilter_metadataIndependent start filter)
  constructor
  · exact h.findsPresent.prefixed start
  · exact fun filter => .inr rfl
  · exact fun filter => .inr rfl
  · intro filter _
    change ((E.shown.prefixed start).walk filter).2 = none ↔ _
    rw [E.shown.prefixed_walk]
    exact h.ends (hcombined filter)
  · intro filter hsound hwalks
    change ((E.shown.prefixed start).walk filter).1.Perm _
    rw [E.shown.prefixed_walk]
    refine ((h.walk (hcombined filter) hwalks).filterMap _).trans ?_
    rw [(hasks filter).1, walked_logical hsound]
    rfl
  · intro filter hsound hwalks
    obtain ⟨keys, hlist, hkeys⟩ := h.list (hcombined filter) hwalks
    refine ⟨_, congrArg (Except.map _) hlist, ?_⟩
    refine ((hkeys.filterMap _).filter _).trans ?_
    rw [listed_logical hsound]
    rfl
  · intro filter _ hwalks
    refine Iff.trans ?_ (h.fetches (hcombined filter) hwalks)
    exact exists_map_eq_ok_iff
  · intro filter infos hsound hwalks hlist
    obtain ⟨records, hbelow, rfl⟩ := map_eq_ok_iff.mp hlist
    refine ((h.records (hcombined filter) hwalks hbelow).filterMap _).trans ?_
    rw [(hasks filter).2, recorded_logical hsound]
    rfl
  · exact fun filter => nodup_logical (h.nodup _)
  · exact nodup_logical h.nodupVisible
  · intro filter record about hsound hwalks hrecord hmatch
    obtain ⟨info, hinfo, hlogical⟩ := List.mem_filterMap.mp hrecord
    have hkept := combined_of_logical hsound hlogical hmatch none
    have hfound := h.complete (hcombined filter) hwalks hinfo hkept
    exact List.mem_filterMap.mpr ⟨info, hfound, hlogical⟩
  · intro filter record hrecord other hmissing
    obtain ⟨info, hinfo, hlogical⟩ := List.mem_filterMap.mp hrecord
    obtain ⟨hkey, _⟩ := BlobMeta.logical_eq_some_iff.mp hlogical
    obtain ⟨_, hbelow⟩ := prefixedKey_bind_eq hmissing (notFound_ne_invalid other)
    cases hanswer : E.shown.getWithMetadata (start ++ record.key) with
    | ok pair =>
        rw [hanswer] at hbelow
        cases hbelow
    | error e =>
        rw [hanswer] at hbelow
        cases e with
        | notFound inner => exact h.present hinfo inner (hkey ▸ hanswer)
        | _ => cases hbelow
  · intro filter record pair hrecord hget
    obtain ⟨info, hinfo, hlogical⟩ := List.mem_filterMap.mp hrecord
    obtain ⟨hkey, hsame⟩ := BlobMeta.logical_eq_some_iff.mp hlogical
    obtain ⟨_, hbelow⟩ := prefixedKey_bind_eq hget fun e _ => nofun
    cases hanswer : E.shown.getWithMetadata (start ++ record.key) with
    | error e =>
        rw [hanswer] at hbelow
        cases hbelow
    | ok found =>
        rw [hanswer] at hbelow
        obtain rfl := Except.ok.inj hbelow
        have hfound := h.fetched hinfo (hkey ▸ hanswer)
        change found.1.stripped start = record
        rw [hfound, BlobMeta.stripped, hkey, stripKeyPrefix_append]
        exact hsame.symm

end Enumeration

end PrefixLayer

section EncryptionLayer

variable {shown : Shown} {headerSuffix : Key} {run : Reader → Bytes → DecryptRun}

theorem filterMap_select {α β : Type} (keep : α → Bool) (f : α → β) (items : List α) :
    (items.filterMap fun a => if keep a then some (f a) else none) = (items.filter keep).map f := by
  rw [← List.filterMap_eq_map, List.filterMap_filter]
  rfl

theorem Reads.completes_eq_true_iff {reads : Reads} {info : BlobMeta} :
    reads.completes headerSuffix info = true ↔
      ¬headerSuffix <:+ info.key ∧ reads.existsBlob (info.key ++ headerSuffix) = .ok true := by
  unfold completes hasHeader
  rw [Bool.and_eq_true, decide_eq_true_iff]
  refine and_congr_right fun _ => ?_
  cases reads.existsBlob (info.key ++ headerSuffix) with
  | error e => exact iff_of_false nofun nofun
  | ok found => exact ⟨congrArg Except.ok, Except.ok.inj⟩

theorem encryptRelay_entry {reads : Reads} (info : BlobMeta) :
    (reads.encryptRelay headerSuffix filter info.key (some info)).entry =
      if filter.byRecord info && reads.completes headerSuffix info then
        some (info.key, some info) else none := by
  unfold Reads.encryptRelay Reads.completes Reads.hasHeader ListFilter.byRecord
  by_cases hreserved : headerSuffix <:+ info.key
  · rw [if_pos hreserved, decide_eq_false (not_not_intro hreserved), Bool.false_and, Bool.and_false]
    rfl
  · rw [if_neg hreserved, decide_eq_true hreserved, Bool.true_and]
    cases reads.existsBlob (info.key ++ headerSuffix) with
    | error e =>
        dsimp only
        rw [Bool.and_false]
        rfl
    | ok found =>
        cases found with
        | false =>
            dsimp only
            rw [Bool.and_false]
            rfl
        | true =>
            dsimp only
            rw [Bool.and_true]
            split <;> rfl

/-- The record that a listing makes, where fetching what it looks at gives the record again. -/
theorem metadataEntry_eq {reads : Reads} {info : BlobMeta}
    (hfetched : ∀ pair, reads.getWithMetadata info.key = .ok pair → pair.1 = info)
    (hfetches : reads.completes headerSuffix info = true → filter.byKey info = true →
      ∃ pair, reads.getWithMetadata info.key = .ok pair) :
    metadataEntry reads headerSuffix filter info.key =
      if filter.byKey info && reads.completes headerSuffix info then some info else none := by
  by_cases htaken : (filter.byKey info && reads.completes headerSuffix info) = true
  · obtain ⟨hasked, hcomplete⟩ := Bool.and_eq_true_iff.mp htaken
    obtain ⟨pair, hpair⟩ := hfetches hcomplete hasked
    obtain ⟨hreserved, hheader⟩ := Reads.completes_eq_true_iff.mp hcomplete
    rw [if_pos htaken, metadataEntry_eq_some_iff]
    refine ⟨⟨hreserved, hasked⟩, hheader, pair.1, pair.2, hpair, ?_⟩
    rw [hfetched pair hpair]
  · rw [if_neg htaken, Option.eq_none_iff_forall_ne_some]
    intro record hrecord
    obtain ⟨⟨hreserved, hasked⟩, hheader, _⟩ := metadataEntry_eq_some_iff.mp hrecord
    have hcomplete := Reads.completes_eq_true_iff.mpr ⟨hreserved, hheader⟩
    exact htaken (Bool.and_eq_true_iff.mpr ⟨hasked, hcomplete⟩)

theorem collected_of_stops {reads : Reads} {key : Key} (rest : List Key)
    (h : Stops reads headerSuffix filter key) :
    ∃ e, reads.collected headerSuffix filter (key :: rest) = .error e := by
  obtain ⟨⟨hreserved, hasked⟩, hheader, e, hfault, hget⟩ := h
  refine ⟨e, ?_⟩
  rw [Reads.collected, if_neg hreserved, hasked, if_neg (show ¬(!true) = true by decide), hheader,
    hget]
  cases e with
  | notFound _ => exact absurd trivial hfault
  | _ => rfl

/-- The loop of a listing with metadata goes through where it does not stop at any key. -/
theorem collected_ok_iff {reads : Reads} {keys : List Key} :
    (∃ infos, reads.collected headerSuffix filter keys = .ok infos) ↔
      ∀ key ∈ keys, ¬Stops reads headerSuffix filter key := by
  refine ⟨?_, fun h => ⟨_, Reads.collected_eq_filterMap h⟩⟩
  induction keys with
  | nil => exact fun _ => nofun
  | cons key rest ih =>
      rintro ⟨infos, hinfos⟩
      rw [List.forall_mem_cons]
      have hgoes : ¬Stops reads headerSuffix filter key := by
        intro hstops
        obtain ⟨e, he⟩ := collected_of_stops rest hstops
        rw [he] at hinfos
        cases hinfos
      refine ⟨hgoes, ih ?_⟩
      rw [Reads.collected_cons hgoes] at hinfos
      cases hrest : reads.collected headerSuffix filter rest with
      | ok others => exact ⟨others, rfl⟩
      | error e =>
          rw [hrest] at hinfos
          cases hentry : metadataEntry reads headerSuffix filter key with
          | none =>
              rw [hentry] at hinfos
              cases hinfos
          | some info =>
              rw [hentry] at hinfos
              cases hinfos

theorem notReserved_bind_eq {α : Type} {key : Key} {f : Unit → Except BlobStorageError α}
    {answer : Except BlobStorageError α} (h : (Reads.notReserved headerSuffix key >>= f) = answer)
    (hanswer : ∀ message, answer ≠ .error (.invalidInput message)) :
    ¬headerSuffix <:+ key ∧ f () = answer := by
  unfold Reads.notReserved at h
  by_cases hreserved : headerSuffix <:+ key
  · rw [if_pos hreserved] at h
    exact absurd h.symm (hanswer _)
  · rw [if_neg hreserved] at h
    exact ⟨hreserved, h⟩

theorem decrypted_eq_notFound {key other : Key} {encData : Reader}
    (h : shown.decrypted headerSuffix run key encData = .error (.notFound other)) :
    ∃ inner, shown.get (key ++ headerSuffix) = .error (.notFound inner) := by
  cases hget : shown.get (key ++ headerSuffix) with
  | ok headerData => exact absurd trivial (decrypted_of_held hget h)
  | error e =>
      unfold Reads.decrypted at h
      rw [hget] at h
      have hmapped : (.error e : Except BlobStorageError Reader).mapError
          (PrefixBlobStore.mapError key) = .error (.notFound other) := by
        cases e <;> exact h
      obtain ⟨inner, hinner⟩ := mapError_eq_notFound hmapped
      cases hinner
      exact ⟨inner, rfl⟩

theorem Reads.FindsPresent.encrypted (h : shown.FindsPresent)
    (run : Reader → Bytes → DecryptRun) (headerSuffix : Key) :
    (shown.encrypted run headerSuffix).FindsPresent := by
  intro key other hexists hget
  obtain ⟨_, hboth⟩ := notReserved_bind_eq hexists fun message => nofun
  obtain ⟨_, hbelow⟩ := notReserved_bind_eq hget fun message => nofun
  cases hdata : shown.existsBlob key with
  | error e =>
      rw [hdata] at hboth
      cases hboth
  | ok found =>
      rw [hdata] at hboth
      cases found with
      | false => cases hboth
      | true =>
          have hheader : shown.existsBlob (key ++ headerSuffix) = .ok true := hboth
          cases hencData : shown.get key with
          | ok encData =>
              rw [hencData] at hbelow
              obtain ⟨inner, hmissing⟩ := decrypted_eq_notFound hbelow
              exact h _ inner hheader hmissing
          | error e =>
              rw [hencData] at hbelow
              cases e with
              | notFound inner => exact h key inner hdata hencData
              | _ => cases hbelow

theorem everything_matches (key : Key) (info : Option BlobMeta) :
    (suffixFilter []).matchesBlob key info = true := by
  rw [suffixFilter_matches]
  exact decide_eq_true List.nil_suffix

theorem filter_everything (infos : List BlobMeta) :
    infos.filter (suffixFilter []).byKey = infos :=
  List.filter_eq_self.mpr fun info _ => everything_matches info.key none

namespace Enumeration

variable (h : E.Right)

include h

/-- A walk or a listing of everything comes by every record. -/
theorem Right.walk_everything (hwalks : E.Walks (suffixFilter [])) :
    (E.shown.walk (suffixFilter [])).1.Perm
      ((E.comesBy (suffixFilter [])).map fun info => (info.key, some info)) := by
  have hwalked := h.walk (suffixFilter_sound []) hwalks
  rwa [(h.asks_of_metadataIndependent (suffixFilter_metadataIndependent [])).1,
    filter_everything] at hwalked

theorem Right.list_everything (hwalks : E.Walks (suffixFilter [])) :
    ∃ keys, E.shown.list (suffixFilter []) = .ok keys ∧
      keys.Perm ((E.comesBy (suffixFilter [])).map BlobMeta.key) := by
  obtain ⟨keys, hlist, hkeys⟩ := h.list (suffixFilter_sound []) hwalks
  rw [filter_everything] at hkeys
  exact ⟨keys, hlist, hkeys⟩

/-- The visitor of the layer fails nowhere exactly where every header can be looked for. -/
theorem Right.relay_iff (hwalks : E.Walks (suffixFilter [])) (headerSuffix : Key)
    (filter : ListFilter) :
    (∀ entry ∈ (E.shown.walk (suffixFilter [])).1,
        ∀ e, E.shown.encryptRelay headerSuffix filter entry.1 entry.2 ≠ .fail e) ↔
      ∀ info ∈ E.comesBy (suffixFilter []), ¬headerSuffix <:+ info.key →
        ∃ found, E.shown.existsBlob (info.key ++ headerSuffix) = .ok found := by
  have hperm := h.walk_everything hwalks
  constructor
  · intro hnever info hinfo
    have hentry := hperm.mem_iff.mpr (List.mem_map_of_mem hinfo)
    exact Reads.encryptRelay_ne_fail_iff.mp (hnever _ hentry)
  · intro hlooks entry hentry
    obtain ⟨info, hinfo, rfl⟩ := List.mem_map.mp (hperm.mem_iff.mp hentry)
    exact Reads.encryptRelay_ne_fail_iff.mpr (hlooks info hinfo)

/-- Where the loop of a listing stops, a record that it looks at cannot be fetched. -/
theorem Right.collects_iff (headerSuffix : Key) {keys : List Key}
    (hkeys : keys.Perm ((E.comesBy (suffixFilter [])).map BlobMeta.key)) :
    (∀ key ∈ keys, ¬Stops E.shown.toReads headerSuffix filter key) ↔
      ∀ info ∈ (E.comesBy (suffixFilter [])).filter (E.shown.completes headerSuffix),
        filter.byKey info = true → ∃ pair, E.shown.getWithMetadata info.key = .ok pair := by
  constructor
  · intro hnever info hinfo hasked
    obtain ⟨hfound, hcomplete⟩ := List.mem_filter.mp hinfo
    obtain ⟨hreserved, hheader⟩ := Reads.completes_eq_true_iff.mp hcomplete
    cases hget : E.shown.getWithMetadata info.key with
    | ok pair => exact ⟨pair, rfl⟩
    | error e =>
        have hmissing : e.IsNotFound := by
          by_contra hfault
          exact hnever info.key (hkeys.mem_iff.mpr (List.mem_map_of_mem hfound))
            ⟨⟨hreserved, hasked⟩, hheader, e, hfault, hget⟩
        cases e with
        | notFound other => exact absurd hget (h.present hfound other)
        | _ => cases hmissing
  · rintro hfetches key hkey ⟨⟨hreserved, hasked⟩, hheader, e, _, hget⟩
    obtain ⟨info, hinfo, rfl⟩ := List.mem_map.mp (hkeys.mem_iff.mp hkey)
    have hcomplete := Reads.completes_eq_true_iff.mpr ⟨hreserved, hheader⟩
    obtain ⟨pair, hpair⟩ := hfetches info (List.mem_filter.mpr ⟨hinfo, hcomplete⟩) hasked
    rw [hpair] at hget
    cases hget

theorem Right.encrypted (provider : EncryptionProvider (StateM σ)) (headerSuffix : Key) :
    (Layer.over s E (.encryption provider headerSuffix)).Right := by
  constructor
  · exact h.findsPresent.encrypted _ headerSuffix
  · exact fun filter => .inr rfl
  · exact fun filter => .inl rfl
  · intro filter _
    change (relayed _ _ _).2 = none ↔ E.Walks (suffixFilter []) ∧ _
    rw [relayed_snd_eq_none_iff, h.ends (suffixFilter_sound [])]
    exact and_congr_right fun hwalks => h.relay_iff hwalks headerSuffix filter
  · rintro filter _ ⟨hwalks, hlooks⟩
    change (relayed _ _ _).1.Perm _
    rw [relayed_eq_filterMap ((h.relay_iff hwalks headerSuffix filter).mpr hlooks)]
    refine ((h.walk_everything hwalks).filterMap _).trans ?_
    refine List.Perm.of_eq ?_
    change _ = (((E.comesBy (suffixFilter [])).filter _).filter filter.byRecord).map _
    rw [List.filterMap_map, List.filter_filter, ← filterMap_select]
    exact List.filterMap_congr fun info _ => encryptRelay_entry info
  · rintro filter _ ⟨hwalks, hlooks⟩
    obtain ⟨keys, hlist, hkeys⟩ := h.list_everything hwalks
    refine ⟨((keys.filter fun key => decide ¬headerSuffix <:+ key).filter
      fun key => filter.matchesBlob key none).filter (E.shown.hasHeader headerSuffix), ?_, ?_⟩
    · change (E.shown.list (suffixFilter []) >>= fun keys => _) = _
      rw [hlist]
      refine Reads.withHeader_eq_filter fun key hkey => ?_
      obtain ⟨hkey, hreserved⟩ := List.mem_filter.mp (List.mem_of_mem_filter hkey)
      obtain ⟨info, hinfo, rfl⟩ := List.mem_map.mp (hkeys.mem_iff.mp hkey)
      exact hlooks info hinfo (of_decide_eq_true hreserved)
    · refine (((hkeys.filter _).filter _).filter _).trans (List.Perm.of_eq ?_)
      rw [List.filter_map, List.filter_map, List.filter_map, List.filter_filter,
        List.filter_filter]
      change _ = (((E.comesBy (suffixFilter [])).filter _).filter filter.byKey).map _
      rw [List.filter_filter]
      refine congrArg (List.map _) (List.filter_congr fun info _ => ?_)
      unfold Reads.completes ListFilter.byKey
      rw [Function.comp_apply, Function.comp_apply, Function.comp_apply, ← Bool.and_assoc,
        Bool.and_comm (E.shown.hasHeader headerSuffix info.key), Bool.and_assoc,
        Bool.and_comm (E.shown.hasHeader headerSuffix info.key), ← Bool.and_assoc]
  · rintro filter _ ⟨hwalks, hlooks⟩
    obtain ⟨keys, hlist, hkeys⟩ := h.list_everything hwalks
    refine Iff.trans ?_ (collected_ok_iff.trans (h.collects_iff headerSuffix hkeys))
    change (∃ infos, (E.shown.list (suffixFilter []) >>= fun keys => _) = .ok infos) ↔ _
    rw [hlist]
    exact exists_map_eq_ok_iff
  · rintro filter infos hsound ⟨hwalks, hlooks⟩ hinfos
    obtain ⟨keys, hlist, hkeys⟩ := h.list_everything hwalks
    change (E.shown.list (suffixFilter []) >>= fun keys => _) = .ok infos at hinfos
    rw [hlist] at hinfos
    obtain ⟨records, hcollected, rfl⟩ := map_eq_ok_iff.mp hinfos
    have hgoes := collected_ok_iff.mp ⟨records, hcollected⟩
    have hfetches := (h.collects_iff headerSuffix hkeys).mp hgoes
    rw [Reads.collected_eq_filterMap hgoes] at hcollected
    obtain rfl := Except.ok.inj hcollected
    refine (List.perm_insertionSort _ _).trans ((hkeys.filterMap _).trans (List.Perm.of_eq ?_))
    change _ = ((E.comesBy (suffixFilter [])).filter _).filter filter.byKey
    rw [List.filterMap_map, List.filter_filter, ← List.map_id (List.filter _ _),
      ← filterMap_select]
    refine List.filterMap_congr fun info hinfo => ?_
    refine metadataEntry_eq (fun pair hpair => h.fetched hinfo hpair) fun hcomplete hasked => ?_
    exact hfetches info (List.mem_filter.mpr ⟨hinfo, hcomplete⟩) hasked
  · exact fun filter => (h.nodup _).sublist (List.filter_sublist.map BlobMeta.key)
  · exact h.nodupVisible.sublist (List.filter_sublist.map BlobMeta.key)
  · rintro filter info record _ ⟨hwalks, _⟩ hinfo _
    obtain ⟨hvisible, hcomplete⟩ := List.mem_filter.mp hinfo
    have hfound := h.complete (suffixFilter_sound []) hwalks hvisible
      (everything_matches info.key none)
    exact List.mem_filter.mpr ⟨hfound, hcomplete⟩
  · intro filter info hinfo other hmissing
    obtain ⟨hfound, hcomplete⟩ := List.mem_filter.mp hinfo
    obtain ⟨_, hheader⟩ := Reads.completes_eq_true_iff.mp hcomplete
    obtain ⟨_, hbelow⟩ := notReserved_bind_eq hmissing fun message => nofun
    cases hanswer : E.shown.getWithMetadata info.key with
    | error e =>
        rw [hanswer] at hbelow
        cases e with
        | notFound inner => exact h.present hfound inner hanswer
        | _ => cases hbelow
    | ok below =>
        rw [hanswer] at hbelow
        obtain ⟨inner, hnone⟩ := decrypted_eq_notFound (map_eq_error hbelow)
        exact h.findsPresent _ inner hheader hnone
  · intro filter info pair hinfo hget
    obtain ⟨hfound, hcomplete⟩ := List.mem_filter.mp hinfo
    obtain ⟨_, hbelow⟩ := notReserved_bind_eq hget fun message => nofun
    cases hanswer : E.shown.getWithMetadata info.key with
    | error e =>
        rw [hanswer] at hbelow
        cases hbelow
    | ok below =>
        rw [hanswer] at hbelow
        obtain ⟨reader, _, rfl⟩ := map_eq_ok_iff.mp hbelow
        rw [h.fetched hfound hanswer]

end Enumeration

end EncryptionLayer

section Stack

/-- What a layer keeps, layer by layer. -/
theorem Enumeration.Right.over (h : E.Right) (layer : Layer (StateM σ)) :
    (layer.over s E).Right := by
  cases layer with
  | keyPrefix start => exact h.prefixed start
  | encryption provider headerSuffix => exact h.encrypted provider headerSuffix
  | cleanup predicate batchSize => exact h

/-- What enumerating a stack comes down to. -/
def Enumeration.stack (s : σ) (E : Enumeration) (layers : List (Layer (StateM σ))) :
    Enumeration := layers.foldl (Layer.over s) E

theorem Enumeration.Right.stack (h : E.Right) (layers : List (Layer (StateM σ))) :
    (E.stack s layers).Right := by
  induction layers generalizing E with
  | nil => exact h
  | cons layer rest ih => exact ih (h.over layer)

/-- In the state `s` the store enumerates its blobs so, with their records. -/
structure EnumeratesRecords (store : BlobStore (StateM σ)) (s : σ) (shown : Shown) : Prop extends
    Enumerates store s shown where
  listWithMetadata : ∀ filter,
    exec (store.listWithMetadata filter) s = (shown.listWithMetadata filter, s)

theorem Browses.enumeratesRecords {store : BlobStore (StateM σ)} {shown : Shown}
    (h : Browses store s shown) : EnumeratesRecords store s shown :=
  ⟨h.toEnumerates, h.listWithMetadata⟩

/-- The layer fetches what the store below lists. -/
def Layer.Fetches : Layer (StateM σ) → Prop
  | .encryption _ _ => True
  | _ => False

/-- In the state `s` the provider of the layer leaves the state alone. -/
def Layer.QuietAt (s : σ) : Layer (StateM σ) → Prop
  | .encryption provider _ => provider.QuietAt s
  | _ => True

/-- The providers that run during a listing leave the state alone: those of the layers that
another layer fetches from. -/
def QuietBelow (s : σ) : List (Layer (StateM σ)) → Prop
  | [] => True
  | layer :: rest => ((∃ above ∈ rest, above.Fetches) → layer.QuietAt s) ∧ QuietBelow s rest

variable {store : BlobStore (StateM σ)}

theorem Browses.wrap (h : Browses store s E.shown) {layer : Layer (StateM σ)}
    (hquiet : layer.QuietAt s) : Browses (layer.wrap store) s (layer.over s E).shown := by
  cases layer with
  | keyPrefix start => exact h.prefixed start
  | encryption provider headerSuffix => exact h.encrypted hquiet headerSuffix
  | cleanup predicate batchSize =>
      exact ⟨⟨h.existsBlob, h.list, h.visit⟩, h.get, h.getWithMetadata, h.listWithMetadata⟩

theorem EnumeratesRecords.wrap (h : EnumeratesRecords store s E.shown) {layer : Layer (StateM σ)}
    (hfetches : layer.Fetches → Browses store s E.shown) :
    EnumeratesRecords (layer.wrap store) s (layer.over s E).shown := by
  cases layer with
  | keyPrefix start =>
      exact ⟨h.toEnumerates.prefixed start, fun filter => exec_map_answer (h.listWithMetadata _) _⟩
  | encryption provider headerSuffix =>
      refine ⟨h.toEnumerates.encrypted provider _ headerSuffix, fun filter => ?_⟩
      exact (hfetches trivial).encrypted_listWithMetadata _ filter
  | cleanup predicate batchSize => exact ⟨⟨h.existsBlob, h.list, h.visit⟩, h.listWithMetadata⟩

/-- Up the stack, a store that is fetched from gives all its answers so. -/
theorem EnumeratesRecords.applyLayers (h : EnumeratesRecords store s E.shown)
    {layers : List (Layer (StateM σ))}
    (hfetches : (∃ layer ∈ layers, layer.Fetches) → Browses store s E.shown)
    (hquiet : QuietBelow s layers) :
    EnumeratesRecords (applyLayers store layers) s (E.stack s layers).shown := by
  induction layers generalizing store E with
  | nil => exact h
  | cons layer rest ih =>
      refine ih (h.wrap fun hlayer => hfetches ⟨layer, List.mem_cons_self, hlayer⟩) ?_ hquiet.2
      rintro ⟨above, habove, hlayer⟩
      have hbelow := hfetches ⟨above, List.mem_cons_of_mem layer habove, hlayer⟩
      exact hbelow.wrap (hquiet.1 ⟨above, habove, hlayer⟩)

end Stack

end BlobStorage
