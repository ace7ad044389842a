import BlobStorage.Backend.Fs.Presence
import BlobStorage.Browsing.Encrypted
import BlobStorage.Encrypt.Shift
import Mathlib.Tactic.TFAE

/-!
# One notion of visibility

A blob of the encrypted layer is there when both of its objects are. Each operation
decides this in its own way; over a store whose reads agree with each other they all
decide it alike, whatever the store holds. Of listings and walks that concerns only those of
everything, which are all that the layer asks for.
-/

namespace BlobStorage

open Fallible Posix FileTree

variable {σ : Type} {Held : Key → Prop}

/-- The reads of a store without faults agree about which objects it holds, all of them
under valid keys. -/
structure Reads.Consistent (reads : Reads) (Held : Key → Prop) : Prop where
  valid : ∀ key, Held key → ValidKey key
  existsBlob : ∀ key, ValidKey key →
    ∃ found, reads.existsBlob key = .ok found ∧ (found = true ↔ Held key)
  get_held : ∀ key, Held key → ∃ reader, reads.get key = .ok reader
  get_missing : ∀ key, ValidKey key → ¬Held key → ∃ other, reads.get key = .error (.notFound other)
  list : ∃ keys, reads.list (suffixFilter []) = .ok keys ∧ ∀ key, key ∈ keys ↔ Held key
  walk : (reads.walk (suffixFilter [])).2 = none ∧
    ∀ key, key ∈ reads.walkKeys (suffixFilter []) ↔ Held key

/-- And so does `get_with_metadata`. -/
structure Reads.ConsistentRecords (reads : Reads) (Held : Key → Prop) : Prop where
  held : ∀ key, Held key → ∃ pair, reads.getWithMetadata key = .ok pair
  missing : ∀ key, ValidKey key → ¬Held key →
    ∃ other, reads.getWithMetadata key = .error (.notFound other)

section Encrypted

variable {shown : Shown} {headerSuffix : Key} {run : Reader → Bytes → DecryptRun}

/-- Both objects of the blob are there, and its key is one that the layer accepts. -/
def PairHeld (Held : Key → Prop) (headerSuffix key : Key) : Prop :=
  ¬headerSuffix <:+ key ∧ Held key ∧ Held (key ++ headerSuffix)

section Everywhere

variable (h : shown.Consistent Held)
  (hsuffix : ∀ key, ValidKey key → ValidKey (key ++ headerSuffix))

include h hsuffix

theorem Reads.Consistent.existsHeader {key : Key} (hkey : Held key) :
    ∃ found, shown.existsBlob (key ++ headerSuffix) = .ok found ∧
      (found = true ↔ Held (key ++ headerSuffix)) :=
  h.existsBlob _ (hsuffix key (h.valid key hkey))

theorem Reads.Consistent.hasHeader_iff {key : Key} (hkey : Held key) :
    shown.hasHeader headerSuffix key = true ↔ Held (key ++ headerSuffix) := by
  obtain ⟨found, hfound, hiff⟩ := h.existsHeader hsuffix hkey
  rw [Reads.hasHeader, hfound]
  exact hiff

/-- The listing of the layer: the complete blobs that the filter selects by key. -/
theorem mem_encrypted_list (filter : ListFilter) :
    ∃ keys, (shown.encrypted run headerSuffix).list filter = .ok keys ∧
      ∀ key, key ∈ keys ↔
        PairHeld Held headerSuffix key ∧ filter.matchesBlob key none = true := by
  obtain ⟨all, hlist, hmem⟩ := h.list
  have hheader := @Reads.withHeader_eq_filter shown.toReads headerSuffix
    ((all.filter fun key => decide ¬headerSuffix <:+ key).filter
      fun key => filter.matchesBlob key none) (by
    intro key hkey
    have hall : key ∈ all := List.mem_of_mem_filter (List.mem_of_mem_filter hkey)
    obtain ⟨found, hfound, _⟩ := h.existsHeader hsuffix ((hmem key).mp hall)
    exact ⟨found, hfound⟩)
  refine ⟨((all.filter fun key => decide ¬headerSuffix <:+ key).filter
    fun key => filter.matchesBlob key none).filter (shown.hasHeader headerSuffix), ?_,
    fun key => ?_⟩
  · change (shown.list (suffixFilter []) >>= fun keys => _) = _
    rw [hlist]
    exact hheader
  · rw [List.mem_filter, List.mem_filter, List.mem_filter, hmem, decide_eq_true_iff]
    constructor
    · rintro ⟨⟨⟨hheld, hreserved⟩, hmatch⟩, hfound⟩
      exact ⟨⟨hreserved, hheld, (h.hasHeader_iff hsuffix hheld).mp hfound⟩, hmatch⟩
    · rintro ⟨⟨hreserved, hheld, hfound⟩, hmatch⟩
      exact ⟨⟨⟨hheld, hreserved⟩, hmatch⟩, (h.hasHeader_iff hsuffix hheld).mpr hfound⟩

/-- The listing with metadata has a record for the same keys. -/
theorem mem_encrypted_listWithMetadata (hrecords : shown.ConsistentRecords Held)
    (filter : ListFilter) :
    ∃ infos, (shown.encrypted run headerSuffix).listWithMetadata filter = .ok infos ∧
      ∀ key, key ∈ infos.map BlobMeta.key ↔
        PairHeld Held headerSuffix key ∧ filter.matchesBlob key none = true := by
  obtain ⟨all, hlist, hmem⟩ := h.list
  have hcollect := @Reads.collected_eq_filterMap shown.toReads headerSuffix filter all (by
    rintro key hkey ⟨_, _, e, _, hget⟩
    obtain ⟨pair, hpair⟩ := hrecords.held key ((hmem key).mp hkey)
    rw [hpair] at hget
    cases hget)
  refine ⟨sortByKey (all.filterMap (metadataEntry shown.toReads headerSuffix filter)), ?_,
    fun key => ?_⟩
  · change (shown.list (suffixFilter []) >>= fun keys => _) = _
    rw [hlist]
    change (shown.collected headerSuffix filter all).map sortByKey = _
    rw [hcollect]
    rfl
  · have hsort : ∀ infos : List BlobMeta, (sortByKey infos).Perm infos := fun infos =>
      List.perm_insertionSort _ infos
    rw [((hsort _).map BlobMeta.key).mem_iff, List.mem_map]
    constructor
    · rintro ⟨info, hinfo, rfl⟩
      obtain ⟨key, hkey, hentry⟩ := List.mem_filterMap.mp hinfo
      obtain ⟨hcandidate, hheader, found, reader, _, rfl⟩ := metadataEntry_eq_some_iff.mp hentry
      have hheld := (hmem key).mp hkey
      obtain ⟨there, hthere, hiff⟩ := h.existsHeader hsuffix hheld
      obtain rfl : true = there := Except.ok.inj (hheader.symm.trans hthere)
      exact ⟨⟨hcandidate.1, hheld, hiff.mp rfl⟩, hcandidate.2⟩
    · rintro ⟨⟨hreserved, hheld, hfound⟩, hmatch⟩
      obtain ⟨⟨info, reader⟩, hpair⟩ := hrecords.held key hheld
      obtain ⟨there, hthere, hiff⟩ := h.existsHeader hsuffix hheld
      obtain rfl : there = true := hiff.mpr hfound
      refine ⟨{ info with key := key }, List.mem_filterMap.mpr ⟨key, (hmem key).mpr hheld, ?_⟩,
        rfl⟩
      exact metadataEntry_eq_some_iff.mpr ⟨⟨hreserved, hmatch⟩, hthere, info, reader, hpair, rfl⟩

/-- A walk goes to its end and hands out the same keys, each as the filter sees it. -/
theorem mem_encrypted_walk (filter : ListFilter) :
    ((shown.encrypted run headerSuffix).walk filter).2 = none ∧
      ∀ key, key ∈ (shown.encrypted run headerSuffix).walkKeys filter ↔
        PairHeld Held headerSuffix key ∧ ∃ info,
          (key, info) ∈ (shown.walk (suffixFilter [])).1 ∧ filter.matchesBlob key info = true := by
  obtain ⟨hend, hmem⟩ := h.walk
  have hheld : ∀ entry ∈ (shown.walk (suffixFilter [])).1, Held entry.1 := by
    intro entry hentry
    exact (hmem entry.1).mp (List.mem_map_of_mem hentry)
  have hwalk := @relayed_eq_filterMap (shown.encryptRelay headerSuffix filter)
    (shown.walk (suffixFilter [])).2 (shown.walk (suffixFilter [])).1 (by
    intro entry hentry e hfail
    obtain ⟨found, hfound, _⟩ := h.existsHeader hsuffix (hheld entry hentry)
    unfold Reads.encryptRelay at hfail
    rw [hfound] at hfail
    split at hfail
    · cases hfail
    · cases found
      · cases hfail
      · dsimp only at hfail
        split at hfail <;> cases hfail)
  have hrelay : ∀ key info, Held key → ∀ entry,
      (shown.encryptRelay headerSuffix filter key info).entry = some entry ↔
        (PairHeld Held headerSuffix key ∧ filter.matchesBlob key info = true) ∧
          entry = (key, info) := by
    intro key info hkey entry
    obtain ⟨found, hfound, hiff⟩ := h.existsHeader hsuffix hkey
    unfold Reads.encryptRelay PairHeld
    rw [hfound]
    by_cases hreserved : headerSuffix <:+ key
    · simp [hreserved, Relay.entry]
    · rw [if_neg hreserved]
      cases found with
      | false =>
          have hmissing : ¬Held (key ++ headerSuffix) := fun hheader => by
            cases hiff.mpr hheader
          simp [hmissing, Relay.entry]
      | true =>
          have hheader := hiff.mp rfl
          cases hmatch : filter.matchesBlob key info with
          | false => simp [Relay.entry]
          | true => simp [hreserved, hkey, hheader, Relay.entry, eq_comm]
  constructor
  · exact (congrArg Prod.snd hwalk).trans hend
  · intro key
    have hkeys : (shown.encrypted run headerSuffix).walkKeys filter =
        ((shown.walk (suffixFilter [])).1.filterMap fun entry =>
          (shown.encryptRelay headerSuffix filter entry.1 entry.2).entry).map Prod.fst :=
      congrArg (fun walk => walk.1.map Prod.fst) hwalk
    rw [hkeys, List.mem_map]
    constructor
    · rintro ⟨entry, hentry, rfl⟩
      obtain ⟨⟨key, info⟩, hwalked, hseen⟩ := List.mem_filterMap.mp hentry
      obtain ⟨⟨hpair, hmatch⟩, rfl⟩ := (hrelay key info (hheld _ hwalked) entry).mp hseen
      exact ⟨hpair, info, hwalked, hmatch⟩
    · rintro ⟨hpair, info, hwalked, hmatch⟩
      refine ⟨(key, info), List.mem_filterMap.mpr ⟨(key, info), hwalked, ?_⟩, rfl⟩
      exact (hrelay key info (hheld _ hwalked) _).mpr ⟨⟨hpair, hmatch⟩, rfl⟩

end Everywhere

/-- With both objects there, nothing is reported missing. -/
theorem decrypted_of_held {key : Key} {encData headerData : Reader}
    (hget : shown.get (key ++ headerSuffix) = .ok headerData) {e : BlobStorageError}
    (h : shown.decrypted headerSuffix run key encData = .error e) : ¬e.IsNotFound := by
  rw [Reads.decrypted_of_header headerSuffix run hget] at h
  cases hread : headerData.readToEnd with
  | error failure =>
      rw [hread] at h
      cases h
      exact not_false
  | ok header =>
      rw [hread] at h
      cases h

theorem decrypted_of_missing {key other : Key} (encData : Reader)
    (hget : shown.get (key ++ headerSuffix) = .error (.notFound other)) :
    shown.decrypted headerSuffix run key encData = .error (.notFound key) := by
  unfold Reads.decrypted
  rw [hget]
  rfl

/-- `get` reports a blob missing exactly when one of its objects is. -/
theorem encrypted_get_iff (h : shown.Consistent Held) {key : Key}
    (hreserved : ¬headerSuffix <:+ key) (hkey : ValidKey key)
    (hheader : ValidKey (key ++ headerSuffix)) :
    (∀ e, (shown.encrypted run headerSuffix).get key = .error e → ¬e.IsNotFound) ↔
      Held key ∧ Held (key ++ headerSuffix) := by
  have hrun : (shown.encrypted run headerSuffix).get key = (do
      let encData ← (shown.get key).mapError (PrefixBlobStore.mapError key)
      shown.decrypted headerSuffix run key encData) := by
    change (Reads.notReserved headerSuffix key >>= fun _ => _) = _
    rw [Reads.notReserved_ok hreserved]
    rfl
  rw [hrun]
  by_cases hdata : Held key
  · obtain ⟨encData, hencData⟩ := h.get_held key hdata
    rw [hencData]
    change (∀ e, shown.decrypted headerSuffix run key encData = .error e → _) ↔ _
    by_cases hfound : Held (key ++ headerSuffix)
    · obtain ⟨headerData, hheaderData⟩ := h.get_held _ hfound
      exact ⟨fun _ => ⟨hdata, hfound⟩, fun _ e he => decrypted_of_held hheaderData he⟩
    · obtain ⟨other, hmissing⟩ := h.get_missing _ hheader hfound
      have hgone := @decrypted_of_missing shown headerSuffix run key other encData hmissing
      exact ⟨fun hnever => absurd trivial (hnever _ hgone), fun hpair => absurd hpair.2 hfound⟩
  · obtain ⟨other, hmissing⟩ := h.get_missing _ hkey hdata
    rw [hmissing]
    exact ⟨fun hnever => absurd trivial (hnever (.notFound key) rfl),
      fun hpair => absurd hpair.1 hdata⟩

/-- So does `get_with_metadata`. -/
theorem encrypted_getWithMetadata_iff (h : shown.Consistent Held)
    (hrecords : shown.ConsistentRecords Held) {key : Key}
    (hreserved : ¬headerSuffix <:+ key) (hkey : ValidKey key)
    (hheader : ValidKey (key ++ headerSuffix)) :
    (∀ e, (shown.encrypted run headerSuffix).getWithMetadata key = .error e → ¬e.IsNotFound) ↔
      Held key ∧ Held (key ++ headerSuffix) := by
  have hrun : (shown.encrypted run headerSuffix).getWithMetadata key = (do
      let pair ← (shown.getWithMetadata key).mapError (PrefixBlobStore.mapError key)
      (shown.decrypted headerSuffix run key pair.2).map fun decrypted =>
        ({ pair.1 with key := key }, decrypted)) := by
    change (Reads.notReserved headerSuffix key >>= fun _ => _) = _
    rw [Reads.notReserved_ok hreserved]
    rfl
  rw [hrun]
  by_cases hdata : Held key
  · obtain ⟨pair, hpair⟩ := hrecords.held key hdata
    rw [hpair]
    change (∀ e, (shown.decrypted headerSuffix run key pair.2).map _ = .error e → _) ↔ _
    by_cases hfound : Held (key ++ headerSuffix)
    · obtain ⟨headerData, hheaderData⟩ := h.get_held _ hfound
      refine ⟨fun _ => ⟨hdata, hfound⟩, fun _ e he => ?_⟩
      cases hdecrypted : shown.decrypted headerSuffix run key pair.2 with
      | ok reader =>
          rw [hdecrypted] at he
          cases he
      | error failure =>
          rw [hdecrypted] at he
          cases he
          exact decrypted_of_held hheaderData hdecrypted
    · obtain ⟨other, hmissing⟩ := h.get_missing _ hheader hfound
      have hgone := @decrypted_of_missing shown headerSuffix run key other pair.2 hmissing
      rw [hgone]
      exact ⟨fun hnever => absurd trivial (hnever (.notFound key) rfl),
        fun hpair => absurd hpair.2 hfound⟩
  · obtain ⟨other, hmissing⟩ := hrecords.missing _ hkey hdata
    rw [hmissing]
    exact ⟨fun hnever => absurd trivial (hnever (.notFound key) rfl),
      fun hpair => absurd hpair.1 hdata⟩

/-- And `exists`. -/
theorem encrypted_existsBlob_iff (h : shown.Consistent Held) {key : Key}
    (hreserved : ¬headerSuffix <:+ key) (hkey : ValidKey key)
    (hheader : ValidKey (key ++ headerSuffix)) :
    (shown.encrypted run headerSuffix).existsBlob key = .ok true ↔
      Held key ∧ Held (key ++ headerSuffix) := by
  obtain ⟨data, hdata, hdataIff⟩ := h.existsBlob key hkey
  obtain ⟨header, hfound, hheaderIff⟩ := h.existsBlob _ hheader
  have hrun : (shown.encrypted run headerSuffix).existsBlob key =
      if !data then .ok false else .ok header := by
    change (Reads.notReserved headerSuffix key >>= fun _ => shown.existsBlob key >>= fun _ => _) = _
    rw [Reads.notReserved_ok hreserved, hdata, ← hfound]
    rfl
  rw [hrun, ← hdataIff, ← hheaderIff]
  cases data <;> cases header <;> simp

end Encrypted

/-- No operation that enumerates blobs yields the key of a header. -/
structure YieldsNoHeader (store : BlobStore (StateM σ)) (s : σ) (headerSuffix : Key) : Prop where
  list : ∀ filter keys, (exec (store.list filter) s).1 = .ok keys →
    ∀ key ∈ keys, ¬headerSuffix <:+ key
  listWithMetadata : ∀ filter infos, (exec (store.listWithMetadata filter) s).1 = .ok infos →
    ∀ info ∈ infos, ¬headerSuffix <:+ info.key
  visit : ∀ filter, ∀ key ∈ (execLocal (store.visit filter collector) [] s).1.2,
    ¬headerSuffix <:+ key

/-- All operations of the encrypted layer agree on whether a blob is there, over a store whose
reads, `get_with_metadata` included, do: it is exactly when the store holds both of its objects.
And none of them shows a header. -/
theorem visible_tfae {inner : BlobStore (StateM σ)} {s : σ} {shown : Shown}
    {provider : EncryptionProvider (StateM σ)} {headerSuffix key : Key} {filter : ListFilter}
    (h : Browses inner s shown) (hconsistent : shown.Consistent Held)
    (hmetadata : shown.ConsistentRecords Held) (hreserved : ¬headerSuffix <:+ key)
    (hkey : ValidKey key) (hheader : ValidKey (key ++ headerSuffix))
    (hfilter : ∀ info, filter.matchesBlob key info = true) :
    let store := (encryptedOver provider headerSuffix inner).toBlobStore
    [Held key ∧ Held (key ++ headerSuffix),
      (exec (store.existsBlob key) s).1 = .ok true,
      ∀ e, (exec (store.get key) s).1 = .error e → ¬e.IsNotFound,
      ∀ e, (exec (store.getWithMetadata key) s).1 = .error e → ¬e.IsNotFound,
      ∃ keys, (exec (store.list filter) s).1 = .ok keys ∧ key ∈ keys,
      ∃ infos, (exec (store.listWithMetadata filter) s).1 = .ok infos ∧
        key ∈ infos.map BlobMeta.key,
      ∃ delivered, (execLocal (store.visit filter collector) [] s).1 = (.ok (), delivered) ∧
        key ∈ delivered].TFAE ∧
    YieldsNoHeader store s headerSuffix := by
  intro store
  have hsuffix : ∀ other, ValidKey other → ValidKey (other ++ headerSuffix) := fun other hother =>
    hother.append_of_append hheader
  let run := fun encData header => (provider.decryptStream encData header s).1
  have hlists := @mem_encrypted_list _ _ _ run hconsistent hsuffix
  have hrecords := @mem_encrypted_listWithMetadata _ _ _ run hconsistent hsuffix hmetadata
  have hwalks := @mem_encrypted_walk _ _ _ run hconsistent hsuffix
  have hstore : Enumerates store s (shown.encrypted run headerSuffix) :=
    h.toEnumerates.encrypted provider run headerSuffix
  have hexists : (exec (store.existsBlob key) s).1 =
      (shown.encrypted run headerSuffix).existsBlob key := by rw [hstore.existsBlob]
  have hlist : ∀ filter, (exec (store.list filter) s).1 =
      (shown.encrypted run headerSuffix).list filter := fun filter => by rw [hstore.list]
  have hlistWithMetadata : ∀ filter, (exec (store.listWithMetadata filter) s).1 =
      (shown.encrypted run headerSuffix).listWithMetadata filter :=
    fun filter => congrArg Prod.fst (h.encrypted_listWithMetadata run filter)
  have hvisit : ∀ filter, (execLocal (store.visit filter collector) [] s).1 =
      (.ok (), (shown.encrypted run headerSuffix).walkKeys filter) := by
    intro filter
    rw [hstore.visit_collector, (hwalks filter).1]
    rfl
  have hpair : Held key ∧ Held (key ++ headerSuffix) ↔ PairHeld Held headerSuffix key :=
    ⟨fun hpair => ⟨hreserved, hpair⟩, fun hpair => hpair.2⟩
  constructor
  · tfae_have 1 ↔ 2 := by
      rw [hexists]
      exact (encrypted_existsBlob_iff hconsistent hreserved hkey hheader).symm
    tfae_have 1 ↔ 3 := by
      rw [show (exec (store.get key) s).1 = _ from h.encrypted_get_result key]
      exact (encrypted_get_iff hconsistent hreserved hkey hheader).symm
    tfae_have 1 ↔ 4 := by
      rw [show (exec (store.getWithMetadata key) s).1 = _ from
        h.encrypted_getWithMetadata_result key]
      exact (encrypted_getWithMetadata_iff hconsistent hmetadata hreserved hkey hheader).symm
    tfae_have 1 ↔ 5 := by
      obtain ⟨keys, hkeys, hmem⟩ := hlists filter
      rw [hlist, hpair, hkeys]
      simp [hmem, hfilter]
    tfae_have 1 ↔ 6 := by
      obtain ⟨infos, hinfos, hmem⟩ := hrecords filter
      rw [hlistWithMetadata, hpair, hinfos]
      simpa [hfilter] using (hmem key).symm
    tfae_have 1 ↔ 7 := by
      rw [hvisit, hpair]
      constructor
      · intro hshown
        obtain ⟨⟨other, info⟩, hentry, rfl⟩ :=
          List.mem_map.mp ((hconsistent.walk.2 key).mpr hshown.2.1)
        exact ⟨_, rfl, ((hwalks filter).2 _).mpr ⟨hshown, info, hentry, hfilter info⟩⟩
      · rintro ⟨delivered, heq, hmem⟩
        obtain rfl := (Prod.mk.inj heq).2
        exact (((hwalks filter).2 key).mp hmem).1
    tfae_finish
  · constructor
    · intro filter keys hkeys other hother
      obtain ⟨listed, hlisted, hmem⟩ := hlists filter
      rw [hlist, hlisted] at hkeys
      obtain rfl := Except.ok.inj hkeys
      exact ((hmem other).mp hother).1.1
    · intro filter infos hinfos info hinfo
      obtain ⟨listed, hlisted, hmem⟩ := hrecords filter
      rw [hlistWithMetadata, hlisted] at hinfos
      obtain rfl := Except.ok.inj hinfos
      exact ((hmem info.key).mp (List.mem_map_of_mem hinfo)).1.1
    · intro filter other hother
      rw [hvisit] at hother
      exact (((hwalks filter).2 other).mp hother).1.1

namespace MapBlobStore

open MapState

/-- What the map store shows. -/
def shown (self : MapBlobStore) (s : MapState) : Shown where
  toReads := self.reads s
  listWithMetadata filter := .ok (sortByKey (self.infos s filter))

theorem browses (self : MapBlobStore) (s : MapState) :
    Browses self.toBlobStore s (self.shown s) := by
  have h := self.answers s
  exact ⟨⟨h.existsBlob, h.list, h.visit⟩, h.get, h.getWithMetadata, fun _ => rfl⟩

theorem getWithMetadata_eq {key : Key} (hkey : ValidKey key) (s : MapState) :
    (exec (getWithMetadata key) s).1 =
      match s.find key with
      | none => .error (.notFound key)
      | some blob => .ok (blob.info key, Reader.ofBytes blob.content) := by
  rw [getWithMetadata, exec_bind_ok (exec_checkKey_of_valid s hkey),
    exec_bind_ok (exec_getState s)]
  cases s.find key <;> rfl

theorem get_eq {key : Key} (hkey : ValidKey key) (s : MapState) :
    (exec (get key) s).1 =
      match s.find key with
      | none => .error (.notFound key)
      | some blob => .ok (Reader.ofBytes blob.content) := by
  have hpair := getWithMetadata_eq hkey s
  rw [get, exec_bind]
  cases hrun : exec (getWithMetadata key) s with
  | mk r t =>
      rw [hrun] at hpair
      dsimp only at hpair
      rw [hpair]
      cases s.find key <;> rfl

/-- Over valid keys the reads of the map store are consistent. -/
theorem consistent (self : MapBlobStore) {s : MapState}
    (hvalid : ∀ key, (s.find key).isSome → ValidKey key) :
    (self.shown s).Consistent fun key => (s.find key).isSome := by
  refine ⟨hvalid, ?_, ?_, ?_, ?_, ?_⟩
  · intro key hkey
    refine ⟨(s.find key).isSome, ?_, Iff.rfl⟩
    change (exec (existsBlob key) s).1 = _
    rw [existsBlob, exec_bind_ok (exec_checkKey_of_valid s hkey)]
    rfl
  · intro key hheld
    obtain ⟨blob, hfind⟩ := Option.isSome_iff_exists.mp hheld
    exact ⟨_, (get_eq (hvalid key hheld) s).trans (by rw [hfind])⟩
  · intro key hkey hmissing
    exact ⟨key, (get_eq hkey s).trans (by rw [Option.not_isSome_iff_eq_none.mp hmissing])⟩
  · refine ⟨_, rfl, fun key => ?_⟩
    rw [mem_sortKeys, List.mem_filter, mem_candidates]
    simp
  · refine ⟨rfl, fun key => ?_⟩
    have hkeys : (self.shown s).walkKeys (suffixFilter []) =
        (self.infos s (suffixFilter [])).map BlobMeta.key := by
      simp [Reads.walkKeys, shown, reads]
    rw [hkeys, List.mem_map]
    constructor
    · rintro ⟨info, hinfo, rfl⟩
      obtain ⟨key, blob, hfind, rfl, _⟩ := mem_infos_iff.mp hinfo
      rw [show (blob.info key).key = key from rfl, hfind]
      rfl
    · intro hheld
      obtain ⟨blob, hfind⟩ := Option.isSome_iff_exists.mp hheld
      exact ⟨blob.info key, mem_infos_iff.mpr ⟨key, blob, hfind, rfl, by simp, by simp⟩, rfl⟩

theorem consistentRecords (self : MapBlobStore) {s : MapState}
    (hvalid : ∀ key, (s.find key).isSome → ValidKey key) :
    (self.shown s).ConsistentRecords fun key => (s.find key).isSome := by
  constructor
  · intro key hheld
    obtain ⟨blob, hfind⟩ := Option.isSome_iff_exists.mp hheld
    exact ⟨_, (getWithMetadata_eq (hvalid key hheld) s).trans (by rw [hfind])⟩
  · intro key hkey hmissing
    exact ⟨key, (getWithMetadata_eq hkey s).trans
      (by rw [Option.not_isSome_iff_eq_none.mp hmissing])⟩

end MapBlobStore

/-- A complete blob, a data object and a header that stand alone, and a foreign object. -/
def damagedState : MapState :=
  (((pairState.write ['d'] [1]).write ['o', 'h'] [2]).write ['f', '/', 'x'] [3])

theorem damagedState_valid (key : Key) (h : (damagedState.find key).isSome) : ValidKey key := by
  have hkeys : ∀ key ∈ damagedState.objects.keys, ValidKey key := by decide
  exact hkeys key (MapState.mem_keys_iff.mpr h)

theorem visible_tfae_damaged :
    let store := (encryptedOver shiftProvider ['h'] (MapBlobStore.toBlobStore ⟨false⟩)).toBlobStore
    (exec (store.existsBlob ['k']) damagedState).1 = .ok true ∧
      ¬(exec (store.existsBlob ['d']) damagedState).1 = .ok true ∧
      YieldsNoHeader store damagedState ['h'] := by
  intro store
  have hbrowses := MapBlobStore.browses ⟨false⟩ damagedState
  have hconsistent := MapBlobStore.consistent ⟨false⟩ damagedState_valid
  have hmetadata := MapBlobStore.consistentRecords ⟨false⟩ damagedState_valid
  obtain ⟨hpair, hheaders⟩ := @visible_tfae _ _ _ _ _ shiftProvider ['h'] ['k'] (suffixFilter [])
    hbrowses hconsistent hmetadata (by decide) (by decide) (by decide) fun _ => rfl
  have horphan := (@visible_tfae _ _ _ _ _ shiftProvider ['h'] ['d'] (suffixFilter [])
    hbrowses hconsistent hmetadata (by decide) (by decide) (by decide) fun _ => rfl).1
  refine ⟨(hpair.out 0 1).mp (by decide), fun h => ?_, hheaders⟩
  exact absurd ((horphan.out 0 1).mpr h) (by decide)

/-! ### The filesystem without directories -/

namespace FsBlobStore

/-- Where the tree has no directories the reads of the filesystem are consistent, but for
`get_with_metadata`. -/
theorem consistent (self : FsBlobStore) {s : FsState} (hroot : s.rootStat = .ok true)
    (hvalid : ∀ key, s.tree.isFile (ofText key) = true → ValidKey key)
    (hflat : ∀ key, s.tree.find (ofText key) ≠ some .dir) :
    (self.shown s).Consistent fun key => s.tree.isFile (ofText key) = true := by
  have hget : ∀ key, (exec (self.get key) s).1 = (self.shown s).get key := fun key =>
    congrArg Prod.fst (self.exec_get s key)
  have hstored : ∀ key, (∃ data, Stored s.tree key data) ↔ s.tree.isFile (ofText key) = true :=
    fun key => Volume.isFile_iff.symm
  obtain ⟨keys, hexec, hkeys⟩ := self.exec_list_everything hroot
  have hlist : (self.shown s).list (suffixFilter []) = .ok keys :=
    congrArg Prod.fst (((self.browses s).list _).symm.trans hexec)
  have hagrees : (self.shown s).AgreesWhen True := Shown.enumerating_agrees _ _ _ _
  refine ⟨hvalid, ?_, ?_, ?_, ⟨keys, hlist, fun key => (hkeys key).trans (hstored key)⟩, ?_, ?_⟩
  · intro key hkey
    exact ⟨_, congrArg Prod.fst ((self.exec_existsBlob s key).symm.trans
      (self.exec_existsBlob_of_valid hroot hkey)), Iff.rfl⟩
  · intro key hheld
    obtain ⟨data, hfind⟩ := Volume.isFile_iff.mp hheld
    refine ⟨openNode (.file data), ?_⟩
    rw [← hget, self.exec_get_of_valid hroot (hvalid key hheld), hfind]
  · intro key hkey hmissing
    refine ⟨key, ?_⟩
    rw [← hget, self.exec_get_of_valid hroot hkey]
    cases hfind : s.tree.find (ofText key) with
    | none => rfl
    | some node =>
        cases node with
        | dir => exact absurd hfind (hflat key)
        | file data => exact absurd (Volume.isFile_iff.mpr ⟨data, hfind⟩) hmissing
  · exact (hagrees.ends (suffixFilter_sound []) (suffixFilter_metadataIndependent []) hlist).mpr
      trivial
  · intro key
    rw [(hagrees.perm (suffixFilter_sound []) (suffixFilter_metadataIndependent []) hlist
      trivial).mem_iff]
    exact (hkeys key).trans (hstored key)

end FsBlobStore

/-- The files `a` and `ah`, side by side. -/
def flatFiles : FsState :=
  (exec (sampleFs.put [BlobInput.new ['a'] (Reader.ofBytes [2]),
    BlobInput.new ['a', 'h'] (Reader.ofBytes [1, 0])]) emptyRoot).2

theorem flatFiles_node {key : Key} {node : Node FileData}
    (h : flatFiles.tree.find (ofText key) = some node) :
    (key = ['a'] ∨ key = ['a', 'h']) ∧ node ≠ .dir := by
  have hnodes : ∀ path ∈ flatFiles.tree.nodes.keys,
      (path = ofText ['a'] ∨ path = ofText ['a', 'h']) ∧
        flatFiles.tree.find path ≠ some .dir := by decide
  obtain ⟨hpath, hfile⟩ := hnodes _ (Volume.mem_of_find (ofText_ne_nil key) h)
  refine ⟨hpath.imp (fun heq => ?_) fun heq => ?_, fun hdir => hfile (h.trans (by rw [hdir]))⟩
  · rw [← text_ofText key, heq, text_ofText]
  · rw [← text_ofText key, heq, text_ofText]

/-- Over the two files the key `a/b` does not exist, and yet `get_with_metadata` does not report
it missing. -/
theorem beneath_file_is_not_missing :
    let store := (encryptedOver (RekeyableShiftEncryption.toProvider ⟨1, 0⟩) ['h']
      sampleFs.toBlobStore).toBlobStore
    let Held := fun key => flatFiles.tree.isFile (ofText key) = true
    Browses sampleFs.toBlobStore flatFiles (sampleFs.shown flatFiles) ∧
      (sampleFs.shown flatFiles).Consistent Held ∧
      (¬['h'] <:+ ['a', '/', 'b'] ∧ ValidKey ['a', '/', 'b'] ∧ ValidKey ['a', '/', 'b', 'h']) ∧
      ¬(Held ['a', '/', 'b'] ∧ Held ['a', '/', 'b', 'h']) ∧
      (exec (store.existsBlob ['a', '/', 'b']) flatFiles).1 = .ok false ∧
      ∀ e, (exec (store.getWithMetadata ['a', '/', 'b']) flatFiles).1 = .error e →
        ¬e.IsNotFound := by
  refine ⟨sampleFs.browses flatFiles, sampleFs.consistent rfl ?_ ?_, by decide, by decide,
    by decide, ?_⟩
  · intro key hfile
    obtain ⟨data, hfind⟩ := Volume.isFile_iff.mp hfile
    obtain ⟨rfl | rfl, _⟩ := flatFiles_node hfind
    · decide
    · decide
  · exact fun key hdir => (flatFiles_node hdir).2 rfl
  · intro e he
    have hfails : (exec ((encryptedOver (RekeyableShiftEncryption.toProvider ⟨1, 0⟩) ['h']
        sampleFs.toBlobStore).toBlobStore.getWithMetadata ['a', '/', 'b']) flatFiles).1 =
        .error (.storage "stat failed for 'a/b'"
          (some (.io (ioError .notDirectory)))) := by decide
    rw [hfails] at he
    cases he
    exact not_false

end BlobStorage
