import BlobStorage.Browsing.Agreement
import BlobStorage.Browsing.Pullback
import BlobStorage.Browsing.Visibility
import BlobStorage.Cleanup.Sweep

/-!
# Keys that are listed and keys that are accepted

A prefix layer lists whatever stands behind its prefix, and accepts valid keys. Where the prefix
ends at a separator that is the same; elsewhere a foreign key may leave behind the prefix what is
no key at all.
-/

namespace BlobStorage

open Fallible Walking

variable {σ : Type}

/-- In the state `s` the store holds the blobs of `catalogue`, all under valid keys, and serves
them. `Accepts` holds of `s` and of the states that deleting such keys leads to. -/
structure ServesValidKeys [Clock (StateM σ)] (store : BlobStore (StateM σ)) (s : σ)
    (shown : Shown) (catalogue : Key → Option BlobMeta) (Accepts : σ → Prop) : Prop where
  browses : Browses store s shown
  valid : ∀ key, (catalogue key).isSome → ValidKey key
  named : ∀ key info, catalogue key = some info → info.key = key
  existsBlob : ∀ key, (catalogue key).isSome → shown.existsBlob key = .ok true
  get : ∀ key, (catalogue key).isSome → ∃ reader, shown.get key = .ok reader
  accepts : Accepts s
  delete : ∀ t keys, Accepts t → (∀ key ∈ keys, (catalogue key).isSome) →
    ∃ u, exec (store.delete keys) t = (.ok (), u) ∧ Accepts u
  clock : ∀ t, Accepts t → Accepts (Clock.utcNow (m := StateM σ) t).2

/-- Asked with this filter, the store gives out its blobs under the keys that the filter
accepts, as the contract of `list`, `list_with_metadata` and `visit` has it. -/
structure GivesOut (shown : Shown) (catalogue : Key → Option BlobMeta) (filter : ListFilter) :
    Prop where
  list : ∃ keys, shown.list filter = .ok keys ∧
    ∀ key, key ∈ keys ↔ (catalogue key).isSome ∧ filter.matchesBlob key none = true
  listWithMetadata : ∃ infos, shown.listWithMetadata filter = .ok infos ∧
    ∀ info, info ∈ infos ↔ catalogue info.key = some info ∧
      filter.matchesBlob info.key none = true
  walk : ∀ entry ∈ (shown.walk filter).1, (catalogue entry.1).isSome ∧
    filter.matchesBlob entry.1 none = true ∧ (entry.2 = none ∨ entry.2 = catalogue entry.1)

/-- What a caller can expect of a key that it has been given. -/
structure Usable (store : BlobStore (StateM σ)) (s : σ) (key : Key) : Prop where
  valid : ValidKey key
  existsBlob : (exec (store.existsBlob key) s).1 = .ok true
  get : ∃ reader, (exec (store.get key) s).1 = .ok reader
  delete : (exec (store.delete [key]) s).1 = .ok ()

/-- The keys that the store gives out are usable with it. -/
structure YieldsUsable (store : BlobStore (StateM σ)) (s : σ) (filter : ListFilter) : Prop where
  list : ∀ keys, (exec (store.list filter) s).1 = .ok keys → ∀ key ∈ keys, Usable store s key
  listWithMetadata : ∀ infos, (exec (store.listWithMetadata filter) s).1 = .ok infos →
    ∀ info ∈ infos, Usable store s info.key
  visit : ∀ key ∈ (execLocal (store.visit filter collector) [] s).1.2, Usable store s key

/-- The filter takes the key, with or without its record, and the hint does not exclude it. -/
def ListFilter.Takes (filter : ListFilter) (key : Key) (info : BlobMeta) : Prop :=
  filter.prefixHint.getD [] <+: key ∧ (filter.matchesBlob key none = true ∨
    filter.matchesBlob key (some { info with key := key }) = true)

/-- A key that is behind a prefix which ends at a separator is valid when the whole is. -/
theorem ValidKey.of_append {keyPrefix key : Key}
    (hinitial : keyPrefix = [] ∨ [keySeparator] <:+ keyPrefix) (h : ValidKey (keyPrefix ++ key)) :
    ValidKey key := by
  obtain rfl | ⟨front, rfl⟩ := hinitial
  · exact h
  · obtain ⟨hback, hcomponents⟩ := h
    rw [List.append_assoc, List.singleton_append] at hback hcomponents
    rw [Splitting.splitOn_append_sep] at hcomponents
    refine ⟨fun hmem => hback ?_, fun component hcomponent => hcomponents component ?_⟩
    · exact List.mem_append_right _ (List.mem_cons_of_mem _ hmem)
    · exact List.mem_append_right _ hcomponent

namespace BlobCleanup

section Accepted

variable {self : BlobCleanup (StateM σ)} {Accepts : σ → Prop} {Accepted : Key → Prop}
variable {progress : CleanupProgress} (hdelete : ∀ t keys, Accepts t →
  (∀ key ∈ keys, Accepted key) → ∃ u, exec (self.inner.delete keys) t = (.ok (), u) ∧ Accepts u)

include hdelete

theorem flush_accepted (hbatch : ∀ key ∈ progress.batch, Accepted key) {t : σ}
    (haccepts : Accepts t) :
    ∃ k u, execLocal self.flush progress t = ((.ok (), k), u) ∧ k.batch = [] ∧ Accepts u := by
  obtain ⟨batch, count⟩ := progress
  by_cases hempty : batch = []
  · subst hempty
    exact ⟨_, _, execLocal_flush_nil, rfl, haccepts⟩
  · obtain ⟨u, hexec, hafter⟩ := hdelete t batch haccepts hbatch
    exact ⟨_, u, execLocal_flush_ok hempty hexec, rfl, hafter⟩

/-- Of accepted keys only accepted keys come into a batch, and no batch fails. -/
theorem visitor_accepted [Clock (StateM σ)]
    (hclock : ∀ t, Accepts t → Accepts (Clock.utcNow (m := StateM σ) t).2)
    (hbatch : ∀ key ∈ progress.batch, Accepted key) {key : Key} (hkey : Accepted key)
    (info : Option BlobMeta) {t : σ} (haccepts : Accepts t) :
    ∃ k u, execLocal (self.visitor.visit key info) progress t = ((.ok true, k), u) ∧
      (∀ key ∈ k.batch, Accepted key) ∧ Accepts u := by
  rw [visitor, execLocal_bind, execLocal_performLocal]
  dsimp only
  split
  swap
  · exact ⟨_, _, rfl, hbatch, hclock t haccepts⟩
  have hpushed : ∀ other ∈ progress.batch ++ [key], Accepted other := by
    intro other hother
    obtain hearly | hlast := List.mem_append.mp hother
    · exact hbatch other hearly
    · exact List.mem_singleton.mp hlast ▸ hkey
  rw [execLocal_bind, execLocal_getLocal]
  dsimp only
  rw [execLocal_bind, execLocal_setLocal]
  dsimp only
  split
  · obtain ⟨k, u, hflush, hempty, hafter⟩ := @flush_accepted σ self Accepts Accepted
      { progress with batch := progress.batch ++ [key] } hdelete hpushed _ (hclock t haccepts)
    refine ⟨k, u, by rw [execLocal_bind, hflush]; rfl, ?_, hafter⟩
    rw [hempty]
    exact List.forall_mem_nil _
  · exact ⟨_, _, rfl, hpushed, hclock t haccepts⟩

end Accepted

end BlobCleanup

namespace PrefixBlobStore

variable {store : PrefixBlobStore (StateM σ)} {s : σ} {shown : Shown} {Accepts : σ → Prop}
variable {catalogue : Key → Option BlobMeta} {filter : ListFilter} {key : Key}

theorem takes_of_record {record : BlobMeta} {infos : List BlobMeta}
    (hinfos : ∀ info, info ∈ infos ↔ catalogue info.key = some info ∧
      store.keyPrefix ++ filter.prefixHint.getD [] <+: info.key)
    (hrecord : record ∈ infos.filterMap (prefixRecord store.keyPrefix filter)) :
    ∃ info, catalogue (store.keyPrefix ++ record.key) = some info ∧
      filter.Takes record.key info := by
  obtain ⟨info, hinfo, hkept⟩ := List.mem_filterMap.mp hrecord
  obtain ⟨hkey, hsame⟩ := prefixRecord_eq_some hkept
  obtain ⟨hheld, hhint⟩ := (hinfos info).mp hinfo
  rw [hkey] at hheld hhint
  refine ⟨info, hheld, (List.prefix_append_right_inj store.keyPrefix).mp hhint, .inr ?_⟩
  rw [prefixRecord, hkey, stripKeyPrefix_append] at hkept
  dsimp only at hkept
  split at hkept
  next hmatch => exact hmatch
  · cases hkept

section Serves

variable [Clock (StateM σ)] (h : ServesValidKeys store.inner s shown catalogue Accepts)

include h

/-- A batch of usable keys is deleted. -/
theorem exec_delete_usable {keys : List Key}
    (hkeys : ∀ key ∈ keys, (catalogue (store.keyPrefix ++ key)).isSome ∧ ValidKey key) {t : σ}
    (haccepts : Accepts t) :
    ∃ u, exec (store.delete keys) t = (.ok (), u) ∧ Accepts u := by
  have hphysical : ∀ physical ∈ keys.map (store.keyPrefix ++ ·), (catalogue physical).isSome := by
    intro physical hmem
    obtain ⟨key, hkey, rfl⟩ := List.mem_map.mp hmem
    exact (hkeys key hkey).1
  have hvalid : ∀ key ∈ keys, ValidKey key ∧ ValidKey (store.keyPrefix ++ key) :=
    fun key hkey => ⟨(hkeys key hkey).2, h.valid _ (hkeys key hkey).1⟩
  obtain ⟨u, hexec, hafter⟩ := h.delete t _ haccepts hphysical
  refine ⟨u, ?_, hafter⟩
  rw [delete, exec_bind_ok (exec_prefixedAll store hvalid t), exec_mapErr, hexec]
  rfl

/-- A blob behind the prefix is usable as soon as its logical key is valid. -/
theorem usable_of_valid (hheld : (catalogue (store.keyPrefix ++ key)).isSome)
    (hkey : ValidKey key) : Usable store.toBlobStore s key := by
  have hphysical : ValidKey (store.keyPrefix ++ key) := h.valid _ hheld
  refine ⟨hkey, ?_, ?_, ?_⟩
  · change (exec (store.existsBlob key) s).1 = _
    rw [existsBlob, exec_bind_ok (exec_prefixed hkey hphysical s), exec_mapErr,
      h.browses.existsBlob, h.existsBlob _ hheld]
    rfl
  · obtain ⟨reader, hget⟩ := h.get _ hheld
    refine ⟨reader, ?_⟩
    change (exec (store.get key) s).1 = _
    rw [get, exec_bind_ok (exec_prefixed hkey hphysical s), exec_mapErr, h.browses.get, hget]
    rfl
  · obtain ⟨u, hexec, _⟩ := exec_delete_usable h (List.forall_mem_singleton.mpr ⟨hheld, hkey⟩)
      h.accepts
    exact congrArg Prod.fst hexec

section GivesOut

variable (hgives : GivesOut shown catalogue (combinedPrefixFilter store.keyPrefix filter))

include hgives

theorem mem_list {keys : List Key} (hlist : (exec (store.toBlobStore.list filter) s).1 = .ok keys) :
    key ∈ keys ↔ (catalogue (store.keyPrefix ++ key)).isSome ∧
      filter.prefixHint.getD [] <+: key ∧ filter.matchesBlob key none = true := by
  obtain ⟨physical, hphysical, hmem⟩ := hgives.list
  have hexec := exec_list (h.browses.list (combinedPrefixFilter store.keyPrefix filter) ▸
    congrArg (·, s) hphysical)
  change (exec (store.list filter) s).1 = _ at hlist
  rw [hexec] at hlist
  cases hlist
  rw [List.mem_filter, List.mem_filterMap]
  simp only [stripKeyPrefix_eq_some_iff, exists_eq_right, hmem]
  simp [combinedPrefixFilter, and_assoc]

theorem listWithMetadata_eq : ∃ infos : List BlobMeta,
    (exec (store.toBlobStore.listWithMetadata filter) s).1 =
      .ok (infos.filterMap (prefixRecord store.keyPrefix filter)) ∧
    ∀ info, info ∈ infos ↔ catalogue info.key = some info ∧
      store.keyPrefix ++ filter.prefixHint.getD [] <+: info.key := by
  obtain ⟨infos, hphysical, hmem⟩ := hgives.listWithMetadata
  refine ⟨infos, ?_, fun info => (hmem info).trans (by simp [combinedPrefixFilter])⟩
  exact congrArg Prod.fst (exec_listWithMetadata
    (h.browses.listWithMetadata (combinedPrefixFilter store.keyPrefix filter) ▸
      congrArg (·, s) hphysical))

theorem takes_of_delivered
    (hdelivered : key ∈ (execLocal (store.toBlobStore.visit filter collector) [] s).1.2) :
    ∃ info, catalogue (store.keyPrefix ++ key) = some info ∧ filter.Takes key info := by
  have henumerates := (h.browses.prefixed store.keyPrefix).toEnumerates
  change key ∈ (execLocal ((PrefixBlobStore.toBlobStore
    { inner := store.inner, keyPrefix := store.keyPrefix }).visit filter collector) [] s).1.2
    at hdelivered
  rw [henumerates.visit_collector, Reads.walkKeys, shown.prefixed_walk] at hdelivered
  obtain ⟨⟨logical, seen⟩, hentry, rfl⟩ := List.mem_map.mp hdelivered
  obtain ⟨⟨physical, info⟩, hwalked, hpassed⟩ := List.mem_filterMap.mp hentry
  obtain ⟨hheld, hhint, hrecord⟩ := hgives.walk _ hwalked
  obtain ⟨about, habout⟩ := Option.isSome_iff_exists.mp hheld
  dsimp only at hpassed hrecord
  unfold prefixRelay at hpassed
  cases hstrip : stripKeyPrefix store.keyPrefix physical with
  | none =>
      rw [hstrip] at hpassed
      cases hpassed
  | some other =>
  rw [hstrip] at hpassed
  dsimp only at hpassed
  split at hpassed
  swap
  · cases hpassed
  next hmatch =>
  cases hpassed
  obtain rfl := stripKeyPrefix_eq_some_iff.mp hstrip
  refine ⟨about, habout, ?_, ?_⟩
  · simpa [combinedPrefixFilter] using hhint
  · obtain rfl | rfl := hrecord
    · exact .inl hmatch
    · right
      rw [habout, Option.map_some, h.named _ _ habout, stripKeyPrefix_append] at hmatch
      exact hmatch

/-- Of the keys that the filter takes, the valid ones are usable and the others are given out. -/
theorem yieldsUsable_iff : YieldsUsable store.toBlobStore s filter ↔
    ∀ key info, catalogue (store.keyPrefix ++ key) = some info → filter.Takes key info →
      ValidKey key := by
  obtain ⟨infos, hinfos, hmem⟩ := listWithMetadata_eq h hgives
  constructor
  · rintro husable key info hheld ⟨hhint, hplain | hmatch⟩
    · obtain ⟨keys, hkeys⟩ : ∃ keys, (exec (store.toBlobStore.list filter) s).1 = .ok keys := by
        obtain ⟨physical, hphysical, _⟩ := hgives.list
        exact ⟨_, congrArg Prod.fst (exec_list
          (h.browses.list (combinedPrefixFilter store.keyPrefix filter) ▸
            congrArg (·, s) hphysical))⟩
      have hlisted := (mem_list h hgives hkeys).mpr ⟨by rw [hheld]; rfl, hhint, hplain⟩
      exact (husable.list keys hkeys key hlisted).valid
    · have hkey : info.key = store.keyPrefix ++ key := h.named _ _ hheld
      have hkept : prefixRecord store.keyPrefix filter info = some { info with key := key } := by
        rw [prefixRecord, hkey, stripKeyPrefix_append]
        exact if_pos hmatch
      refine (husable.listWithMetadata _ hinfos { info with key := key } ?_).valid
      refine List.mem_filterMap.mpr ⟨info, (hmem info).mpr ⟨by rw [hkey, hheld], ?_⟩, hkept⟩
      rw [hkey]
      exact (List.prefix_append_right_inj store.keyPrefix).mpr hhint
  · intro hvalid
    have husable : ∀ {key : Key}, (∃ info, catalogue (store.keyPrefix ++ key) = some info ∧
        filter.Takes key info) → Usable store.toBlobStore s key := by
      rintro key ⟨info, hheld, htakes⟩
      exact usable_of_valid h (by rw [hheld]; rfl) (hvalid key info hheld htakes)
    constructor
    · intro keys hkeys key hkey
      obtain ⟨hheld, hhint, hmatch⟩ := (mem_list h hgives hkeys).mp hkey
      obtain ⟨info, hinfo⟩ := Option.isSome_iff_exists.mp hheld
      exact husable ⟨info, hinfo, hhint, .inl hmatch⟩
    · intro records hrecords record hrecord
      rw [hinfos] at hrecords
      cases hrecords
      exact husable (takes_of_record hmem hrecord)
    · exact fun key hkey => husable (takes_of_delivered h hgives hkey)

end GivesOut

/-- The walk of a cleanup over the layer comes by blobs of the catalogue, and does not break off
by itself. -/
def WalksForCleanup (store : PrefixBlobStore (StateM σ)) (s : σ)
    (catalogue : Key → Option BlobMeta) (Accepts : σ → Prop) : Prop :=
  ∀ predicate batchSize, ∃ entries ending,
    let cleaner : BlobCleanup (StateM σ) := { inner := store.toBlobStore, predicate, batchSize }
    let relay := visitor store.keyPrefix (prefixFilter []) cleaner.visitor
    WalksOver store.inner (combinedPrefixFilter store.keyPrefix (prefixFilter [])) relay
        (fun t u => Accepts t → Accepts u) relay.Calls entries
        { batch := [], deletedCount := 0 } s ending ∧
      (∀ entry ∈ entries, (catalogue entry.1).isSome) ∧ ∀ e, ending ≠ .broke e

/-- Where every key behind the prefix is valid, no cleanup fails. -/
theorem cleanup_goes_through (hwalks : WalksForCleanup store s catalogue Accepts)
    (hvalid : ∀ key, (catalogue (store.keyPrefix ++ key)).isSome → ValidKey key)
    (predicate : CleanupPredicate) {batchSize : Nat}
    (hbatchSize : batchSize ≤ BlobCleanup.maxCapacity) :
    ∃ result, (exec (BlobCleanup.cleanup
      { inner := store.toBlobStore, predicate, batchSize }) s).1 = .ok (.done result) := by
  let cleaner : BlobCleanup (StateM σ) := { inner := store.toBlobStore, predicate, batchSize }
  let Accepted := fun key => (catalogue (store.keyPrefix ++ key)).isSome ∧ ValidKey key
  have hdelete : ∀ t keys, Accepts t → (∀ key ∈ keys, Accepted key) →
      ∃ u, exec (cleaner.inner.delete keys) t = (.ok (), u) ∧ Accepts u :=
    fun t keys haccepts hkeys => exec_delete_usable h hkeys haccepts
  obtain ⟨entries, ending, ⟨left, k, t, hvisit, hwalk⟩, hentries, hending⟩ :=
    hwalks predicate batchSize
  have hcall : ∀ {entry : Key × Option BlobMeta} {progress progress' : CleanupProgress}
      {u v : σ} {verdict : Verdict BlobStorageError}, (catalogue entry.1).isSome →
      (∀ key ∈ progress.batch, Accepted key) → Accepts u →
      (visitor store.keyPrefix (prefixFilter []) cleaner.visitor).Calls entry progress u verdict
        progress' v →
      verdict = .goOn ∧ (∀ key ∈ progress'.batch, Accepted key) ∧ Accepts v := by
    intro entry progress progress' u v verdict hheld hbatch haccepts hcalls
    unfold BlobVisitor.Calls visitor at hcalls
    dsimp only at hcalls
    cases hstrip : stripKeyPrefix store.keyPrefix entry.1 with
    | none =>
        rw [hstrip] at hcalls
        cases verdict <;> cases hcalls
        exact ⟨rfl, hbatch, haccepts⟩
    | some logical =>
        have hkey := stripKeyPrefix_eq_some_iff.mp hstrip
        rw [hkey] at hheld
        rw [hstrip] at hcalls
        dsimp only at hcalls
        rw [if_pos (by simp)] at hcalls
        obtain ⟨k', u', hexec, hafter⟩ := @BlobCleanup.visitor_accepted σ cleaner Accepts Accepted
          progress hdelete _ h.clock hbatch logical ⟨hheld, hvalid _ hheld⟩
          (entry.2.map fun record =>
            { record with key := (stripKeyPrefix store.keyPrefix record.key).getD [] }) u haccepts
        rw [hexec] at hcalls
        cases verdict <;> cases hcalls
        exact ⟨rfl, hafter⟩
  have hwalked : ending = .complete ∧ (∀ key ∈ k.batch, Accepted key) ∧ Accepts t := by
    refine hwalk.rule
      (fun entries progress u => (∀ entry ∈ entries, (catalogue entry.1).isSome) ∧
        (∀ key ∈ progress.batch, Accepted key) ∧ Accepts u)
      (fun ending _ progress u => (∀ e, ending ≠ .broke e) →
        ending = .complete ∧ (∀ key ∈ progress.batch, Accepted key) ∧ Accepts u)
      ?_ ?_ ?_ ?_ ?_ ?_ ⟨hentries, nofun, h.accepts⟩ hending
    · exact fun hinv hquiet => ⟨hinv.1, hinv.2.1, hquiet hinv.2.2⟩
    · exact fun hinv _ => ⟨rfl, hinv.2⟩
    · exact fun e _ hnot => absurd rfl (hnot e)
    · intro entry rest progress u progress' v hinv hcalls
      exact ⟨fun other hother => hinv.1 other (List.mem_cons_of_mem _ hother),
        (hcall (hinv.1 entry (List.mem_cons_self ..)) hinv.2.1 hinv.2.2 hcalls).2⟩
    · intro entry rest progress u progress' v hinv hcalls
      cases (hcall (hinv.1 entry (List.mem_cons_self ..)) hinv.2.1 hinv.2.2 hcalls).1
    · intro entry rest progress u progress' v e hinv hcalls
      cases (hcall (hinv.1 entry (List.mem_cons_self ..)) hinv.2.1 hinv.2.2 hcalls).1
  obtain ⟨rfl, hbatch, haccepts⟩ := hwalked
  obtain ⟨k', t', hflush, _⟩ := BlobCleanup.flush_accepted hdelete hbatch haccepts
  have hcleaned : execLocal (cleaner.inner.visit (prefixFilter []) cleaner.visitor)
      { batch := [], deletedCount := 0 } s = ((.ok (), k), t) := hvisit
  refine ⟨{ deletedCount := k'.deletedCount }, ?_⟩
  change (exec cleaner.cleanup s).1 = _
  rw [BlobCleanup.exec_cleanup_of_le hbatchSize, BlobCleanup.sweep, exec_bind, exec_scopeLocal,
    execLocal_bind, hcleaned]
  dsimp only
  rw [hflush]
  rfl

/-- What a prefix layer gives out for a filter is usable when the keys behind the prefix that the
filter takes are valid, and only then; and a cleanup can rely on what it is given when every key
behind the prefix is valid. The store below is asked with the combined filter alone. -/
theorem listed_keys_usable_iff
    (hgives : GivesOut shown catalogue (combinedPrefixFilter store.keyPrefix filter))
    (hall : GivesOut shown catalogue (combinedPrefixFilter store.keyPrefix (prefixFilter [])))
    (hwalks : WalksForCleanup store s catalogue Accepts) :
    (YieldsUsable store.toBlobStore s filter ↔
      ∀ key info, catalogue (store.keyPrefix ++ key) = some info → filter.Takes key info →
        ValidKey key) ∧
    (YieldsUsable store.toBlobStore s (prefixFilter []) ∧
        (∀ predicate batchSize, batchSize ≤ BlobCleanup.maxCapacity →
          ∃ result, (exec (BlobCleanup.cleanup
            { inner := store.toBlobStore, predicate, batchSize }) s).1 = .ok (.done result)) ↔
      ∀ key, (catalogue (store.keyPrefix ++ key)).isSome → ValidKey key) := by
  refine ⟨yieldsUsable_iff h hgives, ?_, fun hvalid => ⟨?_, ?_⟩⟩
  · rintro ⟨husable, _⟩ key hheld
    obtain ⟨info, hinfo⟩ := Option.isSome_iff_exists.mp hheld
    exact (yieldsUsable_iff h hall).mp husable key info hinfo ⟨List.nil_prefix, .inl (by simp)⟩
  · exact (yieldsUsable_iff h hall).mpr fun key info hinfo _ => hvalid key (by rw [hinfo]; rfl)
  · exact fun predicate batchSize => cleanup_goes_through h hwalks hvalid predicate

/-- So it is when the prefix ends at a separator. -/
theorem valid_behind_separator
    (hinitial : store.keyPrefix = [] ∨ [keySeparator] <:+ store.keyPrefix) :
    ∀ key, (catalogue (store.keyPrefix ++ key)).isSome → ValidKey key :=
  fun _ hheld => (h.valid _ hheld).of_append hinitial

end Serves

end PrefixBlobStore

/-! ### The map backend -/

namespace MapBlobStore

theorem servesValidKeys (store : MapBlobStore) {s : MapState}
    (hvalid : ∀ key, (s.find key).isSome → ValidKey key) :
    ServesValidKeys store.toBlobStore s (store.shown s) (catalogue s) fun _ => True where
  browses := store.browses s
  valid := by simpa only [catalogue_isSome] using hvalid
  named := by
    intro key info hinfo
    obtain ⟨blob, _, rfl⟩ := Option.map_eq_some_iff.mp hinfo
    rfl
  existsBlob := by
    intro key hheld
    rw [catalogue_isSome] at hheld
    obtain ⟨found, hexists, hfound⟩ := (store.consistent hvalid).existsBlob key (hvalid key hheld)
    rw [hexists, hfound.mpr hheld]
  get := by
    intro key hheld
    rw [catalogue_isSome] at hheld
    exact (store.consistent hvalid).get_held key hheld
  accepts := trivial
  delete := by
    intro t keys _ hkeys
    have hvalidKeys : ∀ key ∈ keys, ValidKey key := by
      intro key hkey
      have hheld := hkeys key hkey
      rw [catalogue_isSome] at hheld
      exact hvalid key hheld
    refine ⟨keys.foldl MapState.erase t, ?_, trivial⟩
    change exec (MapBlobStore.delete keys) t = _
    rw [MapBlobStore.delete, exec_bind_ok (exec_checkKeys_of_valid t hvalidKeys)]
    rfl
  clock := fun _ _ => trivial

theorem givesOut (store : MapBlobStore) (s : MapState) {filter : ListFilter}
    (hsound : filter.SoundHint) : GivesOut (store.shown s) (catalogue s) filter where
  list := by
    refine ⟨_, rfl, fun key => ?_⟩
    rw [mem_sortKeys, List.mem_filter, MapState.mem_candidates, catalogue_isSome]
    constructor
    · rintro ⟨⟨hsome, _⟩, hmatch⟩
      exact ⟨hsome, hmatch⟩
    · rintro ⟨hsome, hmatch⟩
      exact ⟨⟨hsome, fun _ => hsound.getD_isPrefix hmatch⟩, hmatch⟩
  listWithMetadata := by
    refine ⟨_, rfl, fun info => ?_⟩
    rw [sortByKey, List.mem_insertionSort, mem_infos_iff]
    constructor
    · rintro ⟨key, blob, hfind, rfl, hmatch, _⟩
      exact ⟨Option.map_eq_some_iff.mpr ⟨blob, hfind, rfl⟩, hmatch⟩
    · rintro ⟨hinfo, hmatch⟩
      obtain ⟨blob, hfind, hsame⟩ := Option.map_eq_some_iff.mp hinfo
      exact ⟨info.key, blob, hfind, hsame.symm, hmatch, fun _ => hsound.getD_isPrefix hmatch⟩
  walk := by
    intro entry hentry
    obtain ⟨info, hinfo, rfl⟩ := List.mem_map.mp hentry
    obtain ⟨key, blob, hfind, rfl, hmatch, _⟩ := mem_infos_iff.mp hinfo
    have hheld : catalogue s key = some (blob.info key) :=
      Option.map_eq_some_iff.mpr ⟨blob, hfind, rfl⟩
    exact ⟨by rw [show (blob.info key).key = key from rfl, hheld]; rfl, hmatch, .inr hheld.symm⟩

theorem walksForCleanup (store : MapBlobStore) (keyPrefix : Key) (s : MapState)
    {Accepts : MapState → Prop} :
    PrefixBlobStore.WalksForCleanup ⟨store.toBlobStore, keyPrefix⟩ s (catalogue s) Accepts := by
  intro predicate batchSize
  obtain ⟨ending, left, k, t, hexec, hwalk, hending⟩ := @walk_visitEach _ _
    (PrefixBlobStore.visitor keyPrefix (prefixFilter []) (BlobCleanup.visitor
      { inner := PrefixBlobStore.toBlobStore ⟨store.toBlobStore, keyPrefix⟩, predicate, batchSize }))
    (fun t u => Accepts t → Accepts u) (fun _ => id)
    ((store.infos s (combinedPrefixFilter keyPrefix (prefixFilter []))).map fun info =>
      (info.key, some info)) { batch := [], deletedCount := 0 } s
  refine ⟨_, ending, ⟨left, k, t, hexec, hwalk⟩, fun entry hentry => ?_, hending⟩
  obtain ⟨info, hinfo, rfl⟩ := List.mem_map.mp hentry
  obtain ⟨key, blob, hfind, rfl, _⟩ := mem_infos_iff.mp hinfo
  rw [catalogue_isSome, show (blob.info key).key = key from rfl, hfind]
  rfl

end MapBlobStore

section Samples

/-- A blob whose key is a tenant's prefix, and one of the tenant's. -/
def tenantState : MapState :=
  (MapState.empty.write ['t', '-'] [1]).write ['t', '-', 'x'] [2]

theorem tenantState_valid (key : Key) (h : (tenantState.find key).isSome) : ValidKey key := by
  have hkeys : ∀ key ∈ tenantState.objects.keys, ValidKey key := by decide
  exact hkeys key (MapState.mem_keys_iff.mpr h)

def tenantStore : PrefixBlobStore (StateM MapState) where
  inner := MapBlobStore.toBlobStore ⟨true⟩
  keyPrefix := ['t', '-']

/-- A prefix that is a name of its own keeps keys valid. -/
theorem ValidKey.append_left {keyPrefix key : Key} (hinitial : ValidKey keyPrefix)
    (hkey : ValidKey key) : ValidKey (keyPrefix ++ key) := by
  obtain ⟨front, last, first, back, hfront, hback, happend⟩ :=
    Splitting.splitOn_append keySeparator keyPrefix key
  refine ⟨fun hmem => (List.mem_append.mp hmem).elim hinitial.1 hkey.1, ?_⟩
  rw [happend]
  intro component hcomponent
  obtain hearly | hlate := List.mem_append.mp hcomponent
  · exact hinitial.2 _ (hfront ▸ List.mem_append_left _ hearly)
  · obtain rfl | hrest := List.mem_cons.mp hlate
    · exact (hinitial.2 last (hfront ▸ List.mem_append_right _ (List.mem_singleton_self _))).append _
    · exact hkey.2 _ (hback ▸ List.mem_cons_of_mem _ hrest)

/-- The empty key is listed and not accepted. -/
theorem empty_key_is_listed :
    (∀ key, ValidKey key → ValidKey (tenantStore.keyPrefix ++ key)) ∧
      ServesValidKeys tenantStore.inner tenantState (MapBlobStore.shown ⟨true⟩ tenantState)
        (MapBlobStore.catalogue tenantState) (fun _ => True) ∧
      (∃ keys, (exec (tenantStore.list (suffixFilter [])) tenantState).1 = .ok keys ∧ [] ∈ keys) ∧
      ¬Usable tenantStore.toBlobStore tenantState [] ∧
      ¬∃ result, (exec (BlobCleanup.cleanup
        { inner := tenantStore.toBlobStore, predicate := fun _ _ => true, batchSize := 1 })
          tenantState).1 = .ok result := by
  refine ⟨fun key => ValidKey.append_left (by decide),
    MapBlobStore.servesValidKeys ⟨true⟩ tenantState_valid, ⟨_, rfl, by decide⟩, ?_, ?_⟩
  · intro husable
    exact absurd husable.valid (by decide)
  · rintro ⟨result, hresult⟩
    cases hresult

/-- The same store without a prefix. -/
def wholeStore : PrefixBlobStore (StateM MapState) where
  inner := MapBlobStore.toBlobStore ⟨true⟩
  keyPrefix := []

/-- Of the two blobs the filter `x` takes the one whose key is left, and gives out usable keys. A
cleanup is given the other one, too, unless there is no prefix. -/
theorem listed_keys_usable_tenant :
    YieldsUsable tenantStore.toBlobStore tenantState (prefixFilter ['x']) ∧
      ¬(YieldsUsable tenantStore.toBlobStore tenantState (prefixFilter []) ∧
        ∀ predicate batchSize, batchSize ≤ BlobCleanup.maxCapacity →
          ∃ result, (exec (BlobCleanup.cleanup
            { inner := tenantStore.toBlobStore, predicate, batchSize }) tenantState).1 =
              .ok (.done result)) ∧
      (YieldsUsable wholeStore.toBlobStore tenantState (prefixFilter []) ∧
        ∀ predicate batchSize, batchSize ≤ BlobCleanup.maxCapacity →
          ∃ result, (exec (BlobCleanup.cleanup
            { inner := wholeStore.toBlobStore, predicate, batchSize }) tenantState).1 =
              .ok (.done result)) := by
  have hserves := MapBlobStore.servesValidKeys ⟨true⟩ tenantState_valid
  have hgives : ∀ keyPrefix filter, GivesOut (MapBlobStore.shown ⟨true⟩ tenantState)
      (MapBlobStore.catalogue tenantState) (combinedPrefixFilter keyPrefix filter) :=
    fun keyPrefix filter => MapBlobStore.givesOut ⟨true⟩ tenantState
      (combinedPrefixFilter_sound keyPrefix filter)
  obtain ⟨hfilter, hall⟩ := @PrefixBlobStore.listed_keys_usable_iff _ tenantStore tenantState
    _ _ _ (prefixFilter ['x']) _ hserves (hgives _ _) (hgives _ _)
    (MapBlobStore.walksForCleanup ⟨true⟩ ['t', '-'] tenantState)
  obtain ⟨_, hwhole⟩ := @PrefixBlobStore.listed_keys_usable_iff _ wholeStore tenantState
    _ _ _ (prefixFilter []) _ hserves (hgives _ _) (hgives _ _)
    (MapBlobStore.walksForCleanup ⟨true⟩ [] tenantState)
  refine ⟨?_, ?_, hwhole.mpr (PrefixBlobStore.valid_behind_separator hserves (.inl rfl))⟩
  · rw [hfilter]
    rintro key info hheld ⟨hhint, _⟩
    have hkeys : ∀ key ∈ tenantState.objects.keys,
        ['t', '-', 'x'] <+: key → key = ['t', '-', 'x'] := by decide
    have hthere : (tenantState.find (['t', '-'] ++ key)).isSome := by
      rw [← MapBlobStore.catalogue_isSome]
      exact Option.isSome_iff_exists.mpr ⟨info, hheld⟩
    have hkey := hkeys _ (MapState.mem_keys_iff.mpr hthere)
      ((List.prefix_append_right_inj ['t', '-']).mpr hhint)
    obtain rfl : key = ['x'] := List.append_cancel_left hkey
    decide
  · rw [hall]
    exact fun hvalid => absurd (hvalid [] (by decide)) (by decide)

end Samples

end BlobStorage
