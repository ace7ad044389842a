import BlobStorage.Backend.Fs.Presence

/-!
# Prefix hints in the filesystem backend

A walk begins at the directory that the hint of its filter spells. For a sound hint that
is the beginning of a key it comes by the files that the filter selects, and by no more
than a walk over the whole root does, unless the hint leads through a stored file or the system
does not take its path: then looking for the directory fails.
-/

namespace BlobStorage

open Fallible Posix FileTree

namespace FsBlobStore

variable {self : FsBlobStore} {s : FsState} {filter : ListFilter} {hint : Key}

/-- The records of the stored files, each under its key. -/
def records (t : Volume FileData) : List BlobMeta := recordsBelow t [] [] (t.below t.isFile [])

/-- A hint that is the beginning of a path has only names before its last separator. -/
theorem legal_hintDir_of_legal {rest : Key} (hpath : ∀ name ∈ ofText (hint ++ rest), LegalName name) :
    (hintDir hint = (ofText hint).dropLast) ∧ ∀ name ∈ hintDir hint, LegalName name := by
  obtain ⟨front, last, first, back, hpieces, _, hboth⟩ :=
    Splitting.splitOn_append keySeparator hint rest
  have hlegal : ∀ name ∈ front, LegalName name := by
    intro name hname
    refine hpath name ?_
    change name ∈ (hint ++ rest).splitOn keySeparator
    rw [hboth]
    exact List.mem_append_left _ hname
  have hfront : (ofText hint).dropLast = front := by
    change (hint.splitOn keySeparator).dropLast = front
    rw [hpieces, List.dropLast_concat]
  have hdir : hintDir hint = front := by
    unfold hintDir
    rw [hfront]
    split
    · rfl
    · rw [List.rdropWhile_eq_self_iff]
      intro hne
      rw [(hlegal _ (List.getLast_mem hne)).not_skipped]
      exact Bool.false_ne_true
  rw [hdir, hfront]
  exact ⟨rfl, hlegal⟩

theorem legal_hintDir (hstart : ∃ rest, ValidKey (hint ++ rest)) :
    (hintDir hint = (ofText hint).dropLast) ∧ ∀ name ∈ hintDir hint, LegalName name := by
  obtain ⟨rest, hvalid⟩ := hstart
  exact legal_hintDir_of_legal (legal_of_valid hvalid)

/-- What the filter selects below the directory of its hint is what it selects anywhere. -/
theorem selected_below {t : Volume FileData} {names : Path} {accepts : Key → Bool}
    (h : ∀ path data, t.find path = some (.file data) → accepts (text path) = true →
      names <+: path ∧ path ≠ names) :
    (recordsBelow t names names (t.below t.isFile names)).filter (fun info => accepts info.key) =
      (records t).filter fun info => accepts info.key := by
  unfold records recordsBelow Volume.below
  induction t.nodes.keys with
  | nil => rfl
  | cons path rest ih =>
      rw [List.filter_cons, List.filter_cons]
      by_cases hfile : t.isFile path = true
      · obtain ⟨data, hfind⟩ := Volume.isFile_iff.mp hfile
        have hne : path ≠ [] := by
          rintro rfl
          cases hfind
        have hroot : (decide ([] <+: path ∧ path ≠ []) && t.isFile path) = true := by
          simp [hne, hfile]
        have hrecord : fileRecord t (text ([] ++ path.drop ([] : Path).length)) path =
            some ⟨text path, data.content.length, data.modifiedAt, none⟩ := by
          rw [List.length_nil, List.drop_zero, List.nil_append, fileRecord, hfind]
        rw [if_pos hroot, List.filterMap_cons, hrecord]
        dsimp only
        rw [List.filter_cons]
        by_cases hbelow : names <+: path ∧ path ≠ names
        · have hkept : (decide (names <+: path ∧ path ≠ names) && t.isFile path) = true := by
            simp [hbelow, hfile]
          have hsame : names ++ path.drop names.length = path := by
            obtain ⟨back, rfl⟩ := hbelow.1
            rw [List.drop_left]
          have hrecord' : fileRecord t (text (names ++ path.drop names.length)) path =
              some ⟨text path, data.content.length, data.modifiedAt, none⟩ := by
            rw [hsame, fileRecord, hfind]
          rw [if_pos hkept, List.filterMap_cons, hrecord']
          dsimp only
          rw [List.filter_cons, ih]
        · have hdropped : ¬(decide (names <+: path ∧ path ≠ names) && t.isFile path) = true := by
            simp [hbelow]
          have hrejected : ¬accepts (text path) = true := fun haccepts =>
            hbelow (h path data hfind haccepts)
          rw [if_neg hdropped, if_neg hrejected]
          exact ih
      · rw [if_neg (by simp [hfile]), if_neg (by simp [hfile])]
        exact ih

/-- A key that begins with the hint lies below the directory of the hint. -/
theorem below_hintDir (hdir : hintDir hint = (ofText hint).dropLast) {path : Path}
    (hne : path ≠ []) (hlegal : ∀ name ∈ path, LegalName name) (hfront : hint <+: text path) :
    hintDir hint <+: path ∧ path ≠ hintDir hint := by
  obtain ⟨rest, hrest⟩ := hfront
  obtain ⟨front, last, first, back, hpieces, _, hboth⟩ :=
    Splitting.splitOn_append keySeparator hint rest
  have hpath : path = front ++ (last ++ first) :: back := by
    rw [← hboth, hrest]
    exact (ofText_text hne fun name hname => (hlegal name hname).2.2.2).symm
  have hfront : (ofText hint).dropLast = front := by
    change (hint.splitOn keySeparator).dropLast = front
    rw [hpieces, List.dropLast_concat]
  rw [hdir, hfront, hpath]
  exact ⟨List.prefix_append _ _, by simp⟩

/-- The system does not take the directory that the hint leads to, or the hint leads through a
stored key: it is the key and a separator, with nothing or another separator after it. -/
theorem blocked_iff (hstart : ∃ rest, ValidKey (hint ++ rest)) {t : Volume FileData} :
    Blocked t hint ↔ (∃ key data rest, Stored t key data ∧ hint = key ++ '/' :: rest ∧
      (rest = [] ∨ '/' ∈ rest)) ∨ t.Unnameable (ofText hint).dropLast := by
  obtain ⟨hdir, hlegal⟩ := legal_hintDir hstart
  obtain ⟨front, last, hpieces⟩ : ∃ front last, ofText hint = front ++ [last] :=
    ⟨_, _, (List.dropLast_append_getLast (ofText_ne_nil hint)).symm⟩
  rw [hpieces, List.dropLast_concat] at hdir
  have hsplit : ∀ key rest : Key, hint = key ++ '/' :: rest ↔
      ofText hint = ofText key ++ ofText rest := by
    intro key rest
    constructor
    · rintro rfl
      exact Splitting.splitOn_append_sep key rest
    · intro h
      apply @Splitting.splitOn_injective _ _ _ separator
      exact h.trans (Splitting.splitOn_append_sep key rest).symm
  have hstored : ∀ {path : Path} {data : FileData}, t.find path = some (.file data) →
      Stored t (text path) data ∧ ofText (text path) = path := by
    intro path data hfind
    have hne : path ≠ [] := by
      rintro rfl
      cases hfind
    have hback : ofText (text path) = path :=
      ofText_text hne fun name hname => (Volume.legal_of_find hfind name hname).2.2.2
    unfold Stored
    rw [hback]
    exact ⟨hfind, rfl⟩
  have hseparated : ∀ rest : Key, '/' ∈ rest ↔ (ofText rest).dropLast ≠ [] := by
    intro rest
    have htext := text_ofText rest
    cases hrest : ofText rest with
    | nil => exact absurd hrest (ofText_ne_nil rest)
    | cons first others =>
        rw [hrest] at htext
        cases others with
        | nil =>
            have hnot : '/' ∉ first := by
              apply @not_mem_of_mem_ofText rest
              rw [hrest]
              exact List.mem_singleton_self first
            rw [← htext, text, List.intercalate_singleton]
            exact iff_of_false hnot (by simp)
        | cons second others =>
            refine iff_of_true ?_ (by simp)
            rw [← htext, text, List.intercalate_cons_cons]
            simp [separator]
  unfold Blocked Volume.Refused
  rw [meant_of_legal hlegal, hpieces, List.getLast?_concat, List.dropLast_concat, hdir, or_right_comm]
  apply or_congr_left
  constructor
  · rintro (⟨path, back, data, hback, rfl, hfind⟩ | ⟨hlast, hfile⟩)
    · obtain ⟨hkey, hpath⟩ := hstored hfind
      have hpiece : ∀ piece ∈ back ++ [last], separator ∉ piece := by
        intro piece hmem
        apply @not_mem_of_mem_ofText hint
        rw [hpieces, List.append_assoc]
        exact List.mem_append_right _ hmem
      have hrest : ofText (text (back ++ [last])) = back ++ [last] := ofText_text (by simp) hpiece
      refine ⟨text path, data, text (back ++ [last]), hkey, ?_, .inr ?_⟩
      · rw [hsplit, hpath, hrest, hpieces, List.append_assoc]
      · rw [hseparated, hrest, List.dropLast_concat]
        exact hback
    · obtain ⟨data, hfind⟩ := Volume.isFile_iff.mp hfile
      obtain ⟨hkey, hpath⟩ := hstored hfind
      refine ⟨text front, data, [], hkey, ?_, .inl rfl⟩
      rw [hsplit, hpath, hpieces, Option.some.inj hlast]
      rfl
  · rintro ⟨key, data, rest, hkey, hhint, hrest⟩
    rw [hsplit, hpieces] at hhint
    obtain rfl | hsep := hrest
    · right
      obtain ⟨rfl, hlast⟩ := List.append_inj' hhint rfl
      exact ⟨congrArg some (List.singleton_inj.mp hlast), Volume.isFile_iff.mpr ⟨data, hkey⟩⟩
    · left
      rw [hseparated] at hsep
      have hback := List.dropLast_append_getLast (ofText_ne_nil rest)
      rw [← hback, ← List.append_assoc] at hhint
      obtain ⟨rfl, _⟩ := List.append_inj' hhint rfl
      exact ⟨ofText key, (ofText rest).dropLast, data, hsep, rfl, hkey⟩

theorem sortKeys_congr {keys others : List Key} (h : keys.Perm others) :
    sortKeys keys = sortKeys others :=
  ((sortKeys_perm keys).trans (h.trans (sortKeys_perm others).symm)).eq_of_pairwise'
    (sortKeys_sorted keys) (sortKeys_sorted others)

theorem mem_recordsBelow {t : Volume FileData} {spelled names : Path} {info : BlobMeta} :
    info ∈ recordsBelow t spelled names (t.below t.isFile names) ↔
      ∃ rest data, rest ≠ [] ∧ t.find (names ++ rest) = some (.file data) ∧
        info = ⟨text (spelled ++ rest), data.content.length, data.modifiedAt, none⟩ := by
  unfold recordsBelow fileRecord
  rw [List.mem_filterMap]
  constructor
  · rintro ⟨path, hpath, hrecord⟩
    obtain ⟨_, ⟨rest, rfl⟩, hne, _⟩ := Volume.mem_below.mp hpath
    split at hrecord
    · next data hfind =>
        refine ⟨rest, data, ?_, hfind, ?_⟩
        · rintro rfl
          exact hne (List.append_nil names)
        · rw [List.drop_left] at hrecord
          exact (Option.some.inj hrecord).symm
    · cases hrecord
  · rintro ⟨rest, data, hne, hfind, rfl⟩
    have hbelow : names ++ rest ≠ names := by simpa using hne
    refine ⟨names ++ rest, Volume.mem_below.mpr ⟨⟨_, hfind⟩, List.prefix_append _ _, hbelow,
      Volume.isFile_iff.mpr ⟨data, hfind⟩⟩, ?_⟩
    rw [hfind, List.drop_left]

/-- No two files below a directory have the same key, however the directory is spelled. -/
theorem nodup_recordsBelow (t : Volume FileData) {spelled names : Path}
    (hspelled : ∀ piece ∈ spelled, separator ∉ piece) :
    ((recordsBelow t spelled names (t.below t.isFile names)).map BlobMeta.key).Nodup := by
  have hfiles : ∀ path ∈ t.below t.isFile names, ∃ rest data, rest ≠ [] ∧ path = names ++ rest ∧
      t.find path = some (.file data) := by
    intro path hpath
    obtain ⟨_, ⟨rest, rfl⟩, hne, hfile⟩ := Volume.mem_below.mp hpath
    obtain ⟨data, hfind⟩ := Volume.isFile_iff.mp hfile
    refine ⟨rest, data, ?_, rfl, hfind⟩
    rintro rfl
    exact hne (List.append_nil names)
  have hkeys : (recordsBelow t spelled names (t.below t.isFile names)).map BlobMeta.key =
      (t.below t.isFile names).map fun path => text (spelled ++ path.drop names.length) := by
    unfold recordsBelow
    rw [List.map_filterMap, ← List.filterMap_eq_map]
    refine List.filterMap_congr fun path hpath => ?_
    obtain ⟨_, data, _, _, hfind⟩ := hfiles path hpath
    rw [fileRecord, hfind]
    rfl
  rw [hkeys]
  refine (t.nodup_below t.isFile names).map_on fun path hpath other hother heq => ?_
  obtain ⟨rest, _, hne, rfl, hfind⟩ := hfiles path hpath
  obtain ⟨back, _, hne', rfl, hfind'⟩ := hfiles other hother
  have hback : ∀ {rest : Path} {data : FileData}, rest ≠ [] →
      t.find (names ++ rest) = some (.file data) →
        ofText (text (spelled ++ rest)) = spelled ++ rest := by
    intro rest data hne hfind
    refine ofText_text (by simp [hne]) fun piece hpiece => ?_
    obtain hpiece | hpiece := List.mem_append.mp hpiece
    · exact hspelled piece hpiece
    · exact (Volume.legal_of_find hfind piece (List.mem_append_right _ hpiece)).2.2.2
  rw [List.drop_left, List.drop_left] at heq
  have hsame : spelled ++ rest = spelled ++ back := by
    rw [← hback hne hfind, heq, hback hne' hfind']
  rw [List.append_cancel_left hsame]

/-- No two files have the same key. -/
theorem nodup_records (t : Volume FileData) : ((records t).map BlobMeta.key).Nodup :=
  nodup_recordsBelow t (by simp)

/-- The listing is what the filter selects among all stored keys, as it would be without the
hint. -/
def ListsSelected (store : FsBlobStore) (s : FsState) (filter : ListFilter) : Prop :=
  ∃ keys, exec (store.list filter) s = (.ok keys, s) ∧
    exec (store.list { filter with prefixHint := none }) s = (.ok keys, s) ∧
    keys.Pairwise (· < ·) ∧
    ∀ key, key ∈ keys ↔ (∃ data, Stored s.tree key data) ∧ filter.matchesBlob key none = true

/-- A listing whose walk comes by what the filter selects of all files. -/
theorem exec_list_of_walked {found : List BlobMeta} (hend : (self.walkedFor s filter).2 = none)
    (hperm : ((self.walkedFor s filter).1.map Prod.snd).Perm found) :
    exec (self.list filter) s =
      (.ok (sortKeys ((found.filter fun info => filter.matchesBlob info.key none).map
        BlobMeta.key)), s) := by
  have hkeys : (selected filter (self.found s filter).1).Perm
      (found.filter fun info => filter.matchesBlob info.key none) := hperm.filter _
  rw [exec_list, ← sortKeys_congr (hkeys.map BlobMeta.key)]
  change ((walkEnd (self.walkedFor s filter).2).map _, s) = _
  rw [hend]
  rfl

end FsBlobStore

/-- A sound hint that is accepted and whose directory can be looked for changes nothing. -/
theorem FsBlobStore.listsSelected_of_clear (self : FsBlobStore) {s : FsState} {filter : ListFilter}
    {hint : Key} (hroot : s.rootStat = .ok true) (hhint : filter.prefixHint = some hint)
    (hsound : filter.SoundHint) (hstart : ∃ rest, ValidKey (hint ++ rest))
    (hvalid : validatePrefixHint hint = .ok ()) (hclear : ¬Blocked s.tree hint) :
    self.ListsSelected s filter := by
  obtain ⟨hdir, hlegal⟩ := legal_hintDir hstart
  obtain ⟨hend, hperm⟩ := @walkedFor_hint self s filter hint hroot hhint hvalid hclear
  obtain ⟨hend', hperm'⟩ :=
    @walkedFor_none self s { filter with prefixHint := none } hroot rfl
  have hlist := exec_list_of_walked hend hperm
  have hfull := exec_list_of_walked hend' hperm'
  rw [meant_of_legal hlegal, @selected_below s.tree _ fun key => filter.matchesBlob key none] at hlist
  · refine ⟨_, hlist, hfull, ?_, ?_⟩
    · have hnodup := (sortKeys_perm (((records s.tree).filter fun info =>
        filter.matchesBlob info.key none).map BlobMeta.key)).nodup_iff.mpr
        ((nodup_records s.tree).sublist (List.filter_sublist.map BlobMeta.key))
      exact (hnodup.and (sortKeys_sorted _)).imp fun h => lt_of_le_of_ne h.2 h.1
    · intro key
      rw [mem_sortKeys, List.mem_map]
      constructor
      · rintro ⟨info, hinfo, rfl⟩
        obtain ⟨hmem, hmatch⟩ := List.mem_filter.mp hinfo
        obtain ⟨data, hstored, _⟩ := mem_recordsBelow_root.mp hmem
        exact ⟨⟨data, hstored⟩, hmatch⟩
      · rintro ⟨⟨data, hstored⟩, hmatch⟩
        have hmem : BlobMeta.mk key data.content.length data.modifiedAt none ∈ records s.tree :=
          mem_recordsBelow_root.mpr ⟨data, hstored, rfl, rfl, rfl⟩
        exact ⟨_, List.mem_filter.mpr ⟨hmem, hmatch⟩, rfl⟩
  · intro path data hfind hmatch
    refine below_hintDir hdir ?_ (Volume.legal_of_find hfind) (hsound hint hhint _ none hmatch)
    rintro rfl
    cases hfind

/-- For a sound hint that is the beginning of a key and has no dots for components, a listing
is the same as without the hint exactly when the hint does not lead through a stored key and the
system takes the path of its directory. -/
theorem FsBlobStore.listsSelected_iff (self : FsBlobStore) {s : FsState} {filter : ListFilter}
    {hint : Key} (hroot : s.rootStat = .ok true) (hhint : filter.prefixHint = some hint)
    (hsound : filter.SoundHint) (hstart : ∃ rest, ValidKey (hint ++ rest))
    (hdots : ['.'] ∉ hint.splitOn keySeparator ∧ ['.', '.'] ∉ hint.splitOn keySeparator) :
    self.ListsSelected s filter ↔
      (∀ key data rest, Stored s.tree key data → hint = key ++ '/' :: rest →
        rest ≠ [] ∧ '/' ∉ rest) ∧ ¬s.tree.Unnameable (ofText hint).dropLast := by
  have hvalid : validatePrefixHint hint = .ok () := by
    obtain ⟨rest, hrest⟩ := hstart
    rw [validatePrefixHint_eq_ok_iff]
    refine ⟨fun hsep => hrest.not_sep_prefix (hsep.trans (List.prefix_append hint rest)),
      fun hback => hrest.1 (List.mem_append_left _ hback), fun piece hpiece => ⟨?_, ?_⟩⟩
    · rintro rfl
      exact hdots.2 hpiece
    · rintro rfl
      exact hdots.1 hpiece
  have hcondition : ((∀ key data rest, Stored s.tree key data → hint = key ++ '/' :: rest →
      rest ≠ [] ∧ '/' ∉ rest) ∧ ¬s.tree.Unnameable (ofText hint).dropLast) ↔
        ¬Blocked s.tree hint := by
    rw [blocked_iff hstart, not_or]
    apply and_congr_left'
    constructor
    · rintro h ⟨key, data, rest, hstored, hsplit, hrest⟩
      obtain ⟨hne, hsep⟩ := h key data rest hstored hsplit
      exact hrest.elim hne hsep
    · intro h key data rest hstored hsplit
      exact ⟨fun hnil => h ⟨key, data, rest, hstored, hsplit, .inl hnil⟩,
        fun hsep => h ⟨key, data, rest, hstored, hsplit, .inr hsep⟩⟩
  rw [hcondition]
  constructor
  · rintro ⟨keys, hlist, _⟩ hblocked
    obtain ⟨e, he⟩ := @walkedFor_blocked self s filter hint hroot hhint hvalid hblocked
    rw [exec_list] at hlist
    change ((walkEnd (self.walkedFor s filter).2).map _, s) = _ at hlist
    rw [he] at hlist
    cases hlist
  · exact self.listsSelected_of_clear hroot hhint hsound hstart hvalid

theorem FsBlobStore.listsSelected_nested :
    (nestedState.rootStat = .ok true ∧ (prefixFilter ['a', '/']).SoundHint ∧
      ValidKey (['a', '/'] ++ ['b'])) ∧
      sampleFs.ListsSelected nestedState (prefixFilter ['a', '/']) := by
  have hroot : nestedState.rootStat = .ok true := rfl
  have hvalid : ValidKey (['a', '/'] ++ ['b']) := by decide
  refine ⟨⟨hroot, prefixFilter_sound _, hvalid⟩, (sampleFs.listsSelected_iff hroot rfl
    (prefixFilter_sound _) ⟨['b'], hvalid⟩ (by decide)).mpr
    ⟨fun key data rest hstored hsplit => ?_, Volume.not_unnameable_of_fileName (by decide)⟩⟩
  rw [stored_nestedState hstored] at hsplit
  cases hsplit

/-- The tree after `a` has been put. -/
def flatState : FsState :=
  (exec (sampleFs.put [BlobInput.new ['a'] (Reader.ofBytes [1])]) emptyRoot).2

/-- Where `a` is stored, listing what begins with `a/` fails instead of finding nothing. -/
theorem FsBlobStore.list_fails_at_file :
    (prefixFilter ['a', '/']).SoundHint ∧ ValidKey (['a', '/'] ++ ['b']) ∧
      (∃ e, exec (sampleFs.list (prefixFilter ['a', '/'])) flatState = (.error e, flatState)) ∧
      ¬sampleFs.ListsSelected flatState (prefixFilter ['a', '/']) := by
  have hlist : ∃ e, exec (sampleFs.list (prefixFilter ['a', '/'])) flatState =
      (.error e, flatState) := ⟨.ofIo (ioError .notDirectory), by rw [exec_list]; rfl⟩
  refine ⟨prefixFilter_sound _, by decide, hlist, ?_⟩
  rintro ⟨keys, hkeys, _⟩
  obtain ⟨e, he⟩ := hlist
  rw [he] at hkeys
  cases hkeys

end BlobStorage
