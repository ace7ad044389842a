import BlobStorage.Backend.Fs.Files

/-!
# Presence in the filesystem backend

`exists`, `get`, `get_with_metadata` and `list` decide by different system calls whether a
key is stored. They agree on it except for a key that spells a directory, and, as to
`get_with_metadata`, for one that lies beneath a stored file or that the system does not take.
-/

namespace BlobStorage

open Fallible Posix FileTree

/-- The contents of a stored key. -/
def Stored (t : Volume FileData) (key : Key) (data : FileData) : Prop :=
  t.find (ofText key) = some (.file data)

namespace FsBlobStore

variable {self : FsBlobStore} {s : FsState} {key : Key}

theorem legal_of_valid (h : ValidKey key) : ∀ name ∈ ofText key, LegalName name := by
  intro name hname
  obtain ⟨hempty, hdots, hdot⟩ := h.2 name hname
  exact ⟨hempty, hdot, hdots, not_mem_of_mem_ofText hname⟩

theorem components_keyPath (self : FsBlobStore) (h : ValidKey key) :
    components (self.root.dropLast ++ ofText key) =
      components self.root ++ (ofText key).map .normal := by
  have hlegal := legal_of_valid h
  cases hpieces : ofText key with
  | nil => exact absurd hpieces (ofText_ne_nil key)
  | cons first rest =>
      rw [hpieces] at hlegal
      rw [self.spellsDir_root.components first rest (hlegal first List.mem_cons_self).not_skipped,
        filterMap_component?_of_legal hlegal]

theorem names_keyPath (self : FsBlobStore) (h : ValidKey key) :
    self.names (self.root.dropLast ++ ofText key) = ofText key :=
  names_of_components (self.components_keyPath h)

theorem endsWithSeparator_keyPath (self : FsBlobStore) (h : ValidKey key) :
    endsWithSeparator (self.root.dropLast ++ ofText key) = false := by
  have hlast := List.dropLast_append_getLast (ofText_ne_nil key)
  rw [← hlast, ← List.append_assoc]
  exact endsWithSeparator_concat _ (legal_of_valid h _ (List.getLast_mem _))

/-- What `stat` says of the path of a valid key. -/
theorem stat_keyPath (self : FsBlobStore) (s : FsState) (h : ValidKey key) :
    self.stat s (self.root.dropLast ++ ofText key) = s.tree.resolve (ofText key) := by
  unfold stat
  rw [self.names_keyPath h]
  cases s.tree.resolve (ofText key) with
  | error e => rfl
  | ok node =>
      cases node with
      | dir => rfl
      | file data =>
          change (if endsWithSeparator (self.root.dropLast ++ ofText key) then
            Except.error Errno.notDirectory else Except.ok (Node.file data)) = _
          rw [self.endsWithSeparator_keyPath h]
          rfl

section Answers

variable (self : FsBlobStore) (hroot : s.rootStat = .ok true) (hvalid : ValidKey key)

include hroot hvalid

theorem exec_existsBlob_of_valid :
    exec (self.existsBlob key) s = (.ok (s.tree.isFile (ofText key)), s) := by
  rw [exec_existsBlob, existsAnswer, rootAnswer_ok hroot, keyToPath_of_valid self hvalid]
  have hfile : self.isFile s (self.root.dropLast ++ ofText key) = s.tree.isFile (ofText key) := by
    rw [Bool.eq_iff_iff, isFile_eq_true_iff, Volume.isFile_iff, self.stat_keyPath s hvalid]
    simp only [Volume.resolve_eq_ok_iff]
  exact congrArg (fun there => (Except.ok there, s)) hfile

theorem exec_get_of_valid :
    exec (self.get key) s =
      (match s.tree.find (ofText key) with
        | some node => .ok (openNode node)
        | none => .error (.notFound key), s) := by
  rw [exec_get, getAnswer, rootAnswer_ok hroot, keyToPath_of_valid self hvalid]
  change (self.getAt s key (self.root.dropLast ++ ofText key), s) = _
  unfold getAt
  rw [self.stat_keyPath s hvalid]
  cases hfind : s.tree.find (ofText key) with
  | some node => rw [Volume.resolve_eq_ok_iff.mpr hfind]
  | none =>
      obtain ⟨⟨e, _, hresolve⟩, _⟩ | ⟨hresolve, _⟩ := Volume.resolve_of_none hfind
      · rw [hresolve]
      · rw [hresolve]

omit hroot

/-- `file_meta` finds a file or a directory, and otherwise fails in one of two ways. -/
theorem metaAnswer_of_valid :
    (∃ node, s.tree.find (ofText key) = some node ∧
        self.metaAnswer s key = .ok { key, storedSize := (self.nodeStat s
          (self.root.dropLast ++ ofText key) node).1, modifiedAt := (self.nodeStat s
          (self.root.dropLast ++ ofText key) node).2, etag := none }) ∨
      (s.tree.find (ofText key) = none ∧ ¬s.tree.Refused (ofText key) ∧
        self.metaAnswer s key = .error (.notFound key)) ∨
      (s.tree.Refused (ofText key) ∧
        ∃ message source, self.metaAnswer s key = .error (.storage message source)) := by
  have hanswer : self.metaAnswer s key =
      self.metaAt s key (self.root.dropLast ++ ofText key) := by
    rw [metaAnswer, keyToPath_of_valid self hvalid]
    rfl
  rw [hanswer]
  unfold metaAt
  rw [self.stat_keyPath s hvalid]
  cases hfind : s.tree.find (ofText key) with
  | some node =>
      rw [Volume.resolve_eq_ok_iff.mpr hfind]
      exact .inl ⟨node, rfl, rfl⟩
  | none =>
      obtain ⟨⟨e, hcode, hresolve⟩, hrefused⟩ | ⟨hresolve, hfree⟩ := Volume.resolve_of_none hfind
      · rw [hresolve]
        cases e with
        | noEntry => exact absurd rfl hcode
        | notDirectory | isDirectory | alreadyExists | nameTooLong | invalidInput =>
            exact .inr (.inr ⟨hrefused, _, _, rfl⟩)
      · rw [hresolve]
        exact .inr (.inl ⟨rfl, hfree, rfl⟩)

end Answers

/-- A key leads through a file when a stored key is a directory on the way to it. -/
theorem throughFile_iff {t : Volume FileData} :
    t.ThroughFile (ofText key) ↔ ∃ other data, Stored t other data ∧ other ++ ['/'] <+: key := by
  constructor
  · rintro ⟨front, rest, data, hrest, hpieces, hfind⟩
    have hne : front ≠ [] := by
      rintro rfl
      cases hfind
    have hfront : ofText (text front) = front :=
      ofText_text hne fun name hname => (Volume.legal_of_find hfind name hname).2.2.2
    refine ⟨text front, data, by unfold Stored; rw [hfront, hfind], ?_⟩
    refine Splitting.append_sep_prefix_iff.mpr ⟨rest, hrest, ?_⟩
    change ofText key = ofText (text front) ++ rest
    rw [hfront, hpieces]
  · rintro ⟨other, data, hstored, hfront⟩
    obtain ⟨rest, hrest, hpieces⟩ := Splitting.append_sep_prefix_iff.mp hfront
    exact ⟨ofText other, rest, data, hrest, hpieces, hstored⟩

/-- The filter that accepts everything. -/
def everything : ListFilter := suffixFilter []

/-- The records of all files, under their keys. -/
theorem mem_recordsBelow_root {t : Volume FileData} {info : BlobMeta} :
    info ∈ recordsBelow t [] [] (t.below t.isFile []) ↔
      ∃ data, Stored t info.key data ∧ info.storedSize = data.content.length ∧
        info.modifiedAt = data.modifiedAt ∧ info.etag = none := by
  unfold recordsBelow fileRecord Stored
  rw [List.mem_filterMap]
  constructor
  · rintro ⟨path, hpath, hrecord⟩
    obtain ⟨_, _, hne, _⟩ := Volume.mem_below.mp hpath
    split at hrecord
    · next data hfind =>
        cases hrecord
        refine ⟨data, ?_, rfl, rfl, rfl⟩
        have hlegal := Volume.legal_of_find hfind
        dsimp only [List.length_nil, List.drop_zero, List.nil_append]
        rw [List.drop_zero, ofText_text hne fun name hname => (hlegal name hname).2.2.2, hfind]
    · cases hrecord
  · rintro ⟨data, hfind, hsize, htime, hetag⟩
    refine ⟨ofText info.key, Volume.mem_below.mpr ⟨⟨_, hfind⟩, List.nil_prefix, ofText_ne_nil _,
      Volume.isFile_iff.mpr ⟨data, hfind⟩⟩, ?_⟩
    obtain ⟨key, storedSize, modifiedAt, etag⟩ := info
    cases hsize
    cases htime
    cases hetag
    rw [List.length_nil, List.drop_zero, List.nil_append, text_ofText]
    dsimp only at hfind
    rw [hfind]

theorem exec_list_everything (self : FsBlobStore) (hroot : s.rootStat = .ok true) :
    ∃ keys, exec (self.list everything) s = (.ok keys, s) ∧
      ∀ key, key ∈ keys ↔ ∃ data, Stored s.tree key data := by
  obtain ⟨hend, hperm⟩ := @walkedFor_none self s everything hroot rfl
  refine ⟨sortKeys ((selected everything (self.found s everything).1).map BlobMeta.key),
    ?_, ?_⟩
  · rw [exec_list]
    change ((walkEnd (self.walkedFor s everything).2).map _, s) = _
    rw [hend]
    rfl
  · intro key
    have hall : selected everything (self.found s everything).1 =
        (self.walkedFor s everything).1.map Prod.snd := by
      apply List.filter_eq_self.mpr
      intro info _
      simp [everything]
    rw [mem_sortKeys, hall, (hperm.map BlobMeta.key).mem_iff, List.mem_map]
    constructor
    · rintro ⟨info, hinfo, rfl⟩
      obtain ⟨data, hstored, _⟩ := mem_recordsBelow_root.mp hinfo
      exact ⟨data, hstored⟩
    · rintro ⟨data, hstored⟩
      have hinfo : BlobMeta.mk key data.content.length data.modifiedAt none ∈
          recordsBelow s.tree [] [] (s.tree.below s.tree.isFile []) :=
        mem_recordsBelow_root.mpr ⟨data, hstored, rfl, rfl, rfl⟩
      exact ⟨_, hinfo, rfl⟩

/-- All operations find the key, or none does. -/
structure PresenceAgrees (store : FsBlobStore) (s : FsState) (key : Key) : Prop where
  stored : ∀ data, Stored s.tree key data →
    exec (store.existsBlob key) s = (.ok true, s) ∧
    (∃ reader, exec (store.get key) s = (.ok reader, s) ∧
      reader.readToEnd = .ok data.content) ∧
    (∃ info reader, exec (store.getWithMetadata key) s = (.ok (info, reader), s) ∧
      info.key = key ∧ info.storedSize = data.content.length ∧
      reader.readToEnd = .ok data.content) ∧
    ∃ keys, exec (store.list everything) s = (.ok keys, s) ∧ key ∈ keys
  absent : (∀ data, ¬Stored s.tree key data) →
    exec (store.existsBlob key) s = (.ok false, s) ∧
    exec (store.get key) s = (.error (.notFound key), s) ∧
    exec (store.getWithMetadata key) s = (.error (.notFound key), s) ∧
    ∃ keys, exec (store.list everything) s = (.ok keys, s) ∧ key ∉ keys

end FsBlobStore

/-- The operations agree on a valid key exactly when it does not spell a directory, no stored key
is a directory on the way to it, and the system can look for it. -/
theorem FsBlobStore.presenceAgrees_iff (self : FsBlobStore) {s : FsState} {key : Key}
    (hroot : s.rootStat = .ok true) (hvalid : ValidKey key) :
    self.PresenceAgrees s key ↔
      s.tree.isDir (ofText key) = false ∧
        (∀ other data, Stored s.tree other data → ¬other ++ ['/'] <+: key) ∧
        ¬s.tree.Unnameable (ofText key) := by
  have hrefused : ((∀ other data, Stored s.tree other data → ¬other ++ ['/'] <+: key) ∧
      ¬s.tree.Unnameable (ofText key)) ↔ ¬s.tree.Refused (ofText key) := by
    unfold Volume.Refused
    rw [throughFile_iff, not_or]
    exact and_congr_left' ⟨fun h ⟨other, data, hstored, hfront⟩ => h other data hstored hfront,
      fun h other data hstored hfront => h ⟨other, data, hstored, hfront⟩⟩
  have hnotfile : (∀ data, ¬Stored s.tree key data) → s.tree.isFile (ofText key) = false := by
    intro habsent
    rw [Bool.eq_false_iff, Ne, Volume.isFile_iff]
    exact fun ⟨data, hfind⟩ => habsent data hfind
  have hexists := self.exec_existsBlob_of_valid hroot hvalid
  have hget := self.exec_get_of_valid hroot hvalid
  have hmeta := @metaAnswer_of_valid s key self hvalid
  have hboth : exec (self.getWithMetadata key) s =
      (self.metaAnswer s key >>= fun info => self.getAnswer s key >>= fun reader =>
        pure (info, reader), s) := by
    rw [self.exec_getWithMetadata s key, getWithMetadataAnswer, rootAnswer_ok hroot]
    rfl
  rw [self.exec_get s key] at hget
  have hgetAnswer := congrArg Prod.fst hget
  dsimp only at hgetAnswer
  obtain ⟨keys, hlist, hkeys⟩ := self.exec_list_everything hroot
  rw [hrefused]
  constructor
  · intro h
    constructor
    · rw [Bool.eq_false_iff, Ne, Volume.isDir_iff]
      intro hdir
      have habsent : ∀ data, ¬Stored s.tree key data := by
        intro data hstored
        unfold Stored at hstored
        rw [hdir] at hstored
        cases hstored
      have hfound := (h.absent habsent).2.1
      rw [self.exec_get s key, hgetAnswer, hdir] at hfound
      cases hfound
    · intro hbad
      have habsent : ∀ data, ¬Stored s.tree key data := fun data hstored =>
        Volume.not_refused_of_find hstored hbad
      have hfailed := (h.absent habsent).2.2.1
      rw [hboth] at hfailed
      obtain ⟨node, hfind, _⟩ | ⟨_, hnot, _⟩ | ⟨_, message, source, hstorage⟩ := hmeta
      · exact Volume.not_refused_of_find hfind hbad
      · exact hnot hbad
      · rw [hstorage] at hfailed
        cases hfailed
  · rintro ⟨hdir, hnot⟩
    constructor
    · intro data hstored
      unfold Stored at hstored
      rw [hstored] at hget hgetAnswer
      refine ⟨?_, ⟨Reader.ofBytes data.content, ?_, rfl⟩, ?_, keys, hlist,
        (hkeys key).mpr ⟨data, hstored⟩⟩
      · rw [hexists, Volume.isFile_iff.mpr ⟨data, hstored⟩]
      · rw [self.exec_get s key, hget]
        rfl
      · obtain ⟨node, hfind, hanswer⟩ | ⟨hfind, _, _⟩ | ⟨hbad, _⟩ := hmeta
        · rw [hstored] at hfind
          cases hfind
          rw [hanswer, hgetAnswer] at hboth
          exact ⟨_, Reader.ofBytes data.content, hboth, rfl, rfl, rfl⟩
        · rw [hstored] at hfind
          cases hfind
        · exact absurd hbad hnot
    · intro habsent
      have hfind : s.tree.find (ofText key) = none := by
        cases hfind : s.tree.find (ofText key) with
        | none => rfl
        | some node =>
            cases node with
            | file data => exact absurd hfind (habsent data)
            | dir =>
                rw [Volume.isDir_iff.mpr hfind] at hdir
                cases hdir
      rw [hfind] at hget hgetAnswer
      refine ⟨?_, ?_, ?_, keys, hlist, fun hmem => ?_⟩
      · rw [hexists, hnotfile habsent]
      · rw [self.exec_get s key, hget]
      · obtain ⟨node, hnode, _⟩ | ⟨_, _, hanswer⟩ | ⟨hbad, _⟩ := hmeta
        · rw [hfind] at hnode
          cases hnode
        · rw [hboth, hanswer]
          rfl
        · exact absurd hbad hnot
      · obtain ⟨data, hstored⟩ := (hkeys key).mp hmem
        exact habsent data hstored

/-- An empty directory, and the backend at `/data`. -/
def emptyRoot : FsState where
  rootStat := .ok true
  tree := .empty
  clock := 0
  dirStat _ := (4096, 0)
  flushed := List.length

def sampleFs : FsBlobStore := .new [[], ['d', 'a', 't', 'a']]

/-- The tree after `a/b` has been put. -/
def nestedState : FsState :=
  (exec (sampleFs.put [BlobInput.new ['a', '/', 'b'] (Reader.ofBytes [1])]) emptyRoot).2

theorem stored_nestedState {key : Key} {data : FileData} (h : Stored nestedState.tree key data) :
    key = ['a', '/', 'b'] := by
  have hkeys : nestedState.tree.nodes.keys = [[['a'], ['b']], [['a']]] := by decide
  have hmem : ofText key ∈ nestedState.tree.nodes.keys :=
    Volume.mem_of_find (ofText_ne_nil key) h
  rw [hkeys, List.mem_cons, List.mem_singleton] at hmem
  obtain hpath | hpath := hmem
  · rw [← text_ofText key, hpath]
    rfl
  · have hdir : nestedState.tree.find [['a']] = some .dir := by decide
    rw [Stored, hpath, hdir] at h
    cases h

theorem FsBlobStore.presenceAgrees_nested :
    (nestedState.rootStat = .ok true ∧ ValidKey ['a', '/', 'b']) ∧
      sampleFs.PresenceAgrees nestedState ['a', '/', 'b'] := by
  have hroot : nestedState.rootStat = .ok true := rfl
  have hvalid : ValidKey ['a', '/', 'b'] := by decide
  refine ⟨⟨hroot, hvalid⟩, (sampleFs.presenceAgrees_iff hroot hvalid).mpr
    ⟨by decide, fun other data hstored hfront => ?_, Volume.not_unnameable_of_fileName (by decide)⟩⟩
  rw [stored_nestedState hstored] at hfront
  exact absurd hfront (by decide)

/-- The directory that holds a stored key is opened by `get`, though it is no blob. -/
theorem FsBlobStore.directory_is_got :
    ValidKey ['a'] ∧ exec (sampleFs.existsBlob ['a']) nestedState = (.ok false, nestedState) ∧
      (∃ reader, exec (sampleFs.get ['a']) nestedState = (.ok reader, nestedState)) ∧
      ¬sampleFs.PresenceAgrees nestedState ['a'] := by
  have hroot : nestedState.rootStat = .ok true := rfl
  have hvalid : ValidKey ['a'] := by decide
  have hdir : nestedState.tree.find (ofText ['a']) = some .dir := by decide
  have hget : exec (sampleFs.get ['a']) nestedState = (.ok (openNode .dir), nestedState) := by
    rw [sampleFs.exec_get_of_valid hroot hvalid, hdir]
  refine ⟨hvalid, ?_, ⟨_, hget⟩, fun h => ?_⟩
  · rw [sampleFs.exec_existsBlob_of_valid hroot hvalid]
    rfl
  · have habsent : ∀ data, ¬Stored nestedState.tree ['a'] data := by
      intro data hstored
      unfold Stored at hstored
      rw [hdir] at hstored
      cases hstored
    have hfound := (h.absent habsent).2.1
    rw [hget] at hfound
    cases hfound

end BlobStorage
