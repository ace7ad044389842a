import BlobStorage.Backend.Fs.Walk

/-!
# The files of the tree

What a walk comes by, as files of the tree: all that lie below the directory where it
begins, each under the key that the spelling of that directory gives it.
-/

namespace BlobStorage

open Fallible Posix FileTree

/-- The record of a file, under a given key. -/
def fileRecord (t : Volume FileData) (key : Key) (path : Path) : Option BlobMeta :=
  match t.find path with
  | some (.file data) =>
      some { key, storedSize := data.content.length, modifiedAt := data.modifiedAt, etag := none }
  | _ => none

namespace FsBlobStore

variable {S : Type} {self : FsBlobStore} {s : FsState} {dir spelled names : Path}

section Stat

theorem stat_of_find {path : Path} {node : Node FileData}
    (h : s.tree.find (self.names path) = some node) (hends : endsWithSeparator path = false) :
    self.stat s path = .ok node := by
  unfold stat
  rw [Volume.resolve_eq_ok_iff.mpr h]
  cases node with
  | dir => rfl
  | file data =>
      change (if endsWithSeparator path then Except.error Errno.notDirectory
        else Except.ok (Node.file data)) = _
      rw [hends]
      rfl

theorem stat_of_dir {path : Path} (h : s.tree.find (self.names path) = some .dir) :
    self.stat s path = .ok .dir := by
  unfold stat
  rw [Volume.resolve_eq_ok_iff.mpr h]
  rfl

theorem stat_of_none {path : Path} (h : s.tree.find (self.names path) = none) :
    (∃ e, e ≠ .noEntry ∧ self.stat s path = .error e) ∧ s.tree.Refused (self.names path) ∨
      self.stat s path = .error .noEntry ∧ ¬s.tree.Refused (self.names path) := by
  unfold stat
  obtain ⟨⟨e, hcode, hresolve⟩, hrefused⟩ | ⟨hresolve, hfree⟩ := Volume.resolve_of_none h
  · rw [hresolve]
    exact .inl ⟨⟨e, hcode, rfl⟩, hrefused⟩
  · rw [hresolve]
    exact .inr ⟨rfl, hfree⟩

theorem endsWithSeparator_concat (front : Path) {name : Name} (h : LegalName name) :
    endsWithSeparator (front ++ [name]) = false := by
  simp [endsWithSeparator, h.1]

/-- What `dir_exists` makes of a directory, by what is there in the tree. -/
theorem dirExists_of_dir (h : s.tree.find (self.names dir) = some .dir) :
    self.dirExists s dir = .ok true := by
  unfold dirExists
  rw [stat_of_dir h]

theorem dirExists_of_error {e : Errno} (h : self.stat s dir = .error e) (hcode : e ≠ .noEntry) :
    self.dirExists s dir = .error (.ofIo (ioError e)) := by
  unfold dirExists
  rw [h]
  cases e with
  | noEntry => exact absurd rfl hcode
  | notDirectory | isDirectory | alreadyExists | nameTooLong | invalidInput => rfl

/-- Where there is no directory the check fails if the system does not take the path, and also
if it leads to a file but ends in a separator. -/
theorem dirExists_of_not_dir (h : s.tree.find (self.names dir) ≠ some .dir) :
    (self.dirExists s dir = .ok false ∧ ¬(s.tree.Refused (self.names dir) ∨
        endsWithSeparator dir = true ∧ s.tree.isFile (self.names dir) = true)) ∨
      ((∃ e, self.dirExists s dir = .error e) ∧ (s.tree.Refused (self.names dir) ∨
        endsWithSeparator dir = true ∧ s.tree.isFile (self.names dir) = true)) := by
  cases hfind : s.tree.find (self.names dir) with
  | none =>
      have hfile : ¬s.tree.isFile (self.names dir) = true := by
        rw [Volume.isFile_iff, hfind]
        simp
      obtain ⟨⟨e, hcode, hstat⟩, hrefused⟩ | ⟨hstat, hfree⟩ := stat_of_none hfind
      · exact .inr ⟨⟨_, dirExists_of_error hstat hcode⟩, .inl hrefused⟩
      · unfold dirExists
        rw [hstat]
        refine .inl ⟨rfl, ?_⟩
        rintro (hrefused | ⟨_, hthere⟩)
        · exact hfree hrefused
        · exact hfile hthere
  | some node =>
      cases node with
      | dir => exact absurd hfind h
      | file data =>
          have hfile : s.tree.isFile (self.names dir) = true := Volume.isFile_iff.mpr ⟨data, hfind⟩
          have hfree := Volume.not_refused_of_find hfind
          cases hends : endsWithSeparator dir with
          | false =>
              left
              unfold dirExists
              rw [stat_of_find hfind hends]
              exact ⟨rfl, by simp [hfree]⟩
          | true =>
              right
              refine ⟨?_, .inr ⟨rfl, hfile⟩⟩
              have hstat : self.stat s dir = .error .notDirectory := by
                unfold stat
                rw [Volume.resolve_eq_ok_iff.mpr hfind]
                change (if endsWithSeparator dir then Except.error Errno.notDirectory
                  else Except.ok (Node.file data)) = _
                rw [hends]
                rfl
              exact ⟨_, dirExists_of_error hstat nofun⟩

end Stat

section Walk

theorem isFile_join (hspells : self.Spells dir spelled names) {name : Name}
    (hname : LegalName name) :
    self.fileFound s (join dir [name]) =
      (fileRecord s.tree (text (spelled ++ [name])) (names ++ [name])).map fun info =>
        (join dir [name], info) := by
  have hnames : self.names (join dir [name]) = names ++ [name] := by
    rw [join_name]
    exact hspells.below name [] (by simpa using hname)
  have hstrip : stripPrefix self.root (join dir [name]) = some (spelled ++ [name]) := by
    rw [join_name]
    exact hspells.strip name [] (by simpa using hname)
  have hends : endsWithSeparator (join dir [name]) = false := by
    rw [join_name]
    exact endsWithSeparator_concat _ hname
  unfold fileFound fileRecord
  rw [hstrip]
  cases hfind : s.tree.find (names ++ [name]) with
  | none =>
      obtain ⟨⟨e, _, hstat⟩, _⟩ | ⟨hstat, _⟩ :=
        @stat_of_none self s (join dir [name]) (by rw [hnames, hfind])
      · rw [hstat]
        rfl
      · rw [hstat]
        rfl
  | some node =>
      rw [@stat_of_find self s _ node (by rw [hnames, hfind]) hends]
      cases node <;> rfl

theorem isDir_join (hspells : self.Spells dir spelled names) {name : Name}
    (hname : LegalName name) :
    self.isDir s (join dir [name]) = s.tree.isDir (names ++ [name]) := by
  have hnames : self.names (join dir [name]) = names ++ [name] := by
    rw [join_name]
    exact hspells.below name [] (by simpa using hname)
  rw [Bool.eq_iff_iff, isDir_eq_true_iff, Volume.isDir_iff]
  constructor
  · intro hstat
    unfold stat at hstat
    rw [hnames] at hstat
    cases hresolve : s.tree.resolve (names ++ [name]) with
    | error e =>
        rw [hresolve] at hstat
        cases hstat
    | ok node =>
        cases node with
        | dir => exact Volume.resolve_eq_ok_iff.mp hresolve
        | file data =>
            rw [hresolve] at hstat
            change (if endsWithSeparator (join dir [name]) then Except.error Errno.notDirectory
              else Except.ok (Node.file data)) = _ at hstat
            split_ifs at hstat
            cases hstat
  · intro hfind
    apply stat_of_dir
    rw [hnames, hfind]

/-- The path of what lies at `rest` below a directory. -/
def pathBelow (dir rest : Path) : Path := rest.foldl (fun path name => join path [name]) dir

theorem pathBelow_concat (dir rest : Path) (name : Name) :
    pathBelow dir (rest ++ [name]) = join (pathBelow dir rest) [name] := by
  rw [pathBelow, List.foldl_append]
  rfl

theorem Spells.pathBelow (h : self.Spells dir spelled names) {rest : Path}
    (hrest : ∀ name ∈ rest, LegalName name) :
    self.Spells (FsBlobStore.pathBelow dir rest) (spelled ++ rest) (names ++ rest) := by
  induction rest using List.reverseRecOn with
  | nil => simpa [FsBlobStore.pathBelow] using h
  | append_singleton rest name ih =>
      rw [List.forall_mem_append] at hrest
      rw [pathBelow_concat, ← List.append_assoc, ← List.append_assoc]
      exact (ih hrest.1).join (hrest.2 name (by simp))

/-- The records of files below the directory `names`, with keys that begin as `spelled`. -/
def recordsBelow (t : Volume FileData) (spelled names : Path) (files : List Path) : List BlobMeta :=
  files.filterMap fun path => fileRecord t (text (spelled ++ path.drop names.length)) path

theorem recordsBelow_append (t : Volume FileData) (spelled names : Path) (files others : List Path) :
    recordsBelow t spelled names (files ++ others) =
      recordsBelow t spelled names files ++ recordsBelow t spelled names others :=
  List.filterMap_append

theorem filesFound_of_spells {rest : Path} (hspells : self.Spells dir spelled names)
    (hdir : s.tree.find (names ++ rest) = some .dir) :
    (self.filesFound s (pathBelow dir rest) (s.tree.readDir (names ++ rest))).map Prod.snd =
      recordsBelow s.tree spelled names ((s.tree.entries (names ++ rest)).filter s.tree.isFile) := by
  have hlegal : ∀ name ∈ rest, LegalName name := fun name hname =>
    Volume.legal_of_find hdir name (List.mem_append_right _ hname)
  have hbelow := hspells.pathBelow hlegal
  have heach : ∀ found : List Name, (∀ name ∈ found, LegalName name) →
      (self.filesFound s (pathBelow dir rest) found).map Prod.snd =
        recordsBelow s.tree spelled names
          ((found.map fun name => names ++ rest ++ [name]).filter s.tree.isFile) := by
    intro found
    induction found with
    | nil => intro _; rfl
    | cons name others ih =>
        intro hfound
        rw [List.forall_mem_cons] at hfound
        have hrecord : fileRecord s.tree (text (spelled ++ rest ++ [name])) (names ++ rest ++ [name]) =
            fileRecord s.tree (text (spelled ++ (names ++ rest ++ [name]).drop names.length))
              (names ++ rest ++ [name]) := by
          rw [List.append_assoc names, List.drop_left, List.append_assoc spelled]
        rw [filesFound, List.filterMap_cons, isFile_join hbelow hfound.1, List.map_cons,
          List.filter_cons, hrecord]
        have hrest := ih hfound.2
        cases hfind : s.tree.find (names ++ rest ++ [name]) with
        | none =>
            have hnot : s.tree.isFile (names ++ rest ++ [name]) = false := by
              unfold Volume.isFile
              rw [hfind]
            unfold fileRecord
            rw [hfind, hnot]
            exact hrest
        | some node =>
            cases node with
            | dir =>
                have hnot : s.tree.isFile (names ++ rest ++ [name]) = false := by
                  unfold Volume.isFile
                  rw [hfind]
                unfold fileRecord
                rw [hfind, hnot]
                exact hrest
            | file data =>
                have hfile : s.tree.isFile (names ++ rest ++ [name]) = true :=
                  Volume.isFile_iff.mpr ⟨data, hfind⟩
                rw [hfile, if_pos rfl, recordsBelow, List.filterMap_cons]
                unfold fileRecord
                rw [hfind]
                exact congrArg (_ :: ·) hrest
  apply heach
  intro name hname
  obtain ⟨node, hfind⟩ := Volume.mem_readDir.mp hname
  exact Volume.legal_of_find hfind name (by simp)

theorem dirsFound_of_spells {rest : Path} (hspells : self.Spells dir spelled names)
    (hdir : s.tree.find (names ++ rest) = some .dir) :
    ∃ rests : List Path,
      self.dirsFound s (pathBelow dir rest) (s.tree.readDir (names ++ rest)) =
        rests.map (pathBelow dir) ∧
      (s.tree.entries (names ++ rest)).filter s.tree.isDir = rests.map (names ++ ·) := by
  have hlegal : ∀ name ∈ rest, LegalName name := fun name hname =>
    Volume.legal_of_find hdir name (List.mem_append_right _ hname)
  have hbelow := hspells.pathBelow hlegal
  refine ⟨((s.tree.readDir (names ++ rest)).filter fun name =>
    s.tree.isDir (names ++ rest ++ [name])).map fun name => rest ++ [name], ?_, ?_⟩
  · unfold dirsFound
    rw [List.filter_map, List.map_map, List.map_congr_left fun name _ =>
      show join (pathBelow dir rest) [name] = (pathBelow dir ∘ fun name => rest ++ [name]) name from
        (pathBelow_concat dir rest name).symm]
    congr 1
    apply List.filter_congr
    intro name hname
    obtain ⟨node, hfind⟩ := Volume.mem_readDir.mp hname
    exact isDir_join hbelow (Volume.legal_of_find hfind name (by simp))
  · unfold Volume.entries
    rw [List.filter_map, List.map_map]
    simp [Function.comp_def]

/-- From directories that are there the loop comes by all the files below them. -/
theorem walked_of_spells (hspells : self.Spells dir spelled names) {fuel : Nat}
    {rests : List Path} (hrests : ∀ rest ∈ rests, s.tree.find (names ++ rest) = some .dir)
    (hfuel : ((rests.map (names ++ ·)).map s.tree.weight).sum ≤ fuel) :
    (self.walked s fuel (rests.map (pathBelow dir))).2 = none ∧
      (self.walked s fuel (rests.map (pathBelow dir))).1.map Prod.snd =
        recordsBelow s.tree spelled names
          (s.tree.breadthFirst fuel (rests.map (names ++ ·))) := by
  induction fuel generalizing rests with
  | zero =>
      cases rests with
      | nil => exact ⟨rfl, rfl⟩
      | cons rest queue =>
          rw [List.map_cons, List.map_cons, List.sum_cons, Volume.weight] at hfuel
          omega
  | succ fuel ih =>
      cases rests with
      | nil => exact ⟨rfl, rfl⟩
      | cons rest queue =>
          rw [List.forall_mem_cons] at hrests
          have hlegal : ∀ name ∈ rest, LegalName name := fun name hname =>
            Volume.legal_of_find hrests.1 name (List.mem_append_right _ hname)
          have hhere : self.names (pathBelow dir rest) = names ++ rest :=
            (hspells.pathBelow hlegal).here
          have hthere : self.dirExists s (pathBelow dir rest) = .ok true :=
            dirExists_of_dir (by rw [hhere]; exact hrests.1)
          obtain ⟨subdirs, hsubdirs, hentries⟩ := dirsFound_of_spells hspells hrests.1
          have hfound := filesFound_of_spells hspells hrests.1
          have hnext : ((queue ++ subdirs).map (names ++ ·)).map s.tree.weight =
              (queue.map (names ++ ·)).map s.tree.weight ++
                ((s.tree.entries (names ++ rest)).filter s.tree.isDir).map s.tree.weight := by
            rw [List.map_append, List.map_append, hentries]
          have hless : (((queue ++ subdirs).map (names ++ ·)).map s.tree.weight).sum ≤ fuel := by
            rw [List.map_cons, List.map_cons, List.sum_cons, Volume.weight_eq] at hfuel
            rw [hnext, List.sum_append]
            omega
          have hdirs : ∀ rest ∈ queue ++ subdirs, s.tree.find (names ++ rest) = some .dir := by
            rw [List.forall_mem_append]
            refine ⟨hrests.2, fun sub hsub => ?_⟩
            have hmem : names ++ sub ∈ (s.tree.entries (names ++ rest)).filter s.tree.isDir := by
              rw [hentries]
              exact List.mem_map_of_mem hsub
            exact Volume.isDir_iff.mp (List.mem_filter.mp hmem).2
          obtain ⟨hend, hfiles⟩ := ih hdirs hless
          rw [List.map_cons, List.map_cons, walked, hthere, hhere, Volume.breadthFirst]
          dsimp only
          rw [hsubdirs, ← List.map_append, hentries, ← List.map_append, recordsBelow_append]
          refine ⟨hend, ?_⟩
          rw [List.map_append, hfound, hfiles]

/-- Below something that is not a directory there is nothing. -/
theorem below_eq_nil {t : Volume FileData} {kind : Path → Bool}
    (h : t.find names ≠ some .dir) : t.below kind names = [] := by
  rw [List.eq_nil_iff_forall_not_mem]
  intro path hpath
  obtain ⟨⟨node, hfind⟩, ⟨rest, rfl⟩, hne, _⟩ := Volume.mem_below.mp hpath
  have hrest : rest ≠ [] := by
    rintro rfl
    exact hne (List.append_nil names)
  exact h (Volume.find_above hrest hfind)

/-- The files below the directory where a walk begins. -/
theorem walked_start (hspells : self.Spells dir spelled names)
    (hthere : s.tree.find names = some .dir ∨ self.dirExists s dir = .ok false ∧
      s.tree.find names ≠ some .dir) :
    (self.walked s (s.tree.nodes.keys.length + 1) [dir]).2 = none ∧
      ((self.walked s (s.tree.nodes.keys.length + 1) [dir]).1.map Prod.snd).Perm
        (recordsBelow s.tree spelled names (s.tree.below s.tree.isFile names)) := by
  obtain hdir | ⟨hdir, hnot⟩ := hthere
  · have hfuel : ((([[]] : List Path).map (names ++ ·)).map s.tree.weight).sum ≤
        s.tree.nodes.keys.length + 1 := by
      simpa using s.tree.weight_le names
    have hwalked := @walked_of_spells self s dir spelled names hspells _ [[]]
      (by simpa using hdir) hfuel
    refine ⟨hwalked.1, ?_⟩
    have hperm := s.tree.breadthFirst_perm hfuel
    have hrecords := hwalked.2
    change List.map Prod.snd (self.walked s _ [dir]).1 = _ at hrecords
    rw [hrecords]
    refine (hperm.filterMap _).trans ?_
    simp [recordsBelow]
  · have hnothing : self.walked s (s.tree.nodes.keys.length + 1) [dir] = ([], none) := by
      rw [walked, hdir]
      cases s.tree.nodes.keys.length <;> rfl
    rw [hnothing, below_eq_nil hnot]
    exact ⟨rfl, List.Perm.refl []⟩

/-- The system does not take the directory that a hint leads to, or it is a file. -/
def Blocked (t : Volume FileData) (hint : Key) : Prop :=
  t.Refused (meant (hintDir hint)) ∨
    (ofText hint).getLast? = some [] ∧ t.isFile (meant (hintDir hint)) = true

theorem rootAnswer_ok (hroot : s.rootStat = .ok true) : self.rootAnswer s = .ok () := by
  unfold rootAnswer ensureRoot
  rw [exec_bind, exec_getState]
  dsimp only
  rw [hroot]
  rfl

variable {filter : ListFilter} {hint : Key}

theorem walkedFor_none (hroot : s.rootStat = .ok true) (hhint : filter.prefixHint = none) :
    (self.walkedFor s filter).2 = none ∧
      ((self.walkedFor s filter).1.map Prod.snd).Perm
        (recordsBelow s.tree [] [] (s.tree.below s.tree.isFile [])) := by
  have hstart : self.prefixSubdir filter = .ok self.root := by
    unfold prefixSubdir
    rw [hhint]
    rfl
  unfold walkedFor
  rw [rootAnswer_ok hroot, hstart]
  exact walked_start self.spells_root (.inl s.tree.find_nil)

theorem walkedFor_hint (hroot : s.rootStat = .ok true) (hhint : filter.prefixHint = some hint)
    (hvalid : validatePrefixHint hint = .ok ()) (hblocked : ¬Blocked s.tree hint) :
    (self.walkedFor s filter).2 = none ∧
      ((self.walkedFor s filter).1.map Prod.snd).Perm
        (recordsBelow s.tree (hintDir hint) (meant (hintDir hint))
          (s.tree.below s.tree.isFile (meant (hintDir hint)))) := by
  obtain ⟨start, hstart, hspells, hends⟩ := self.prefixSubdir_hint hhint hvalid
  unfold walkedFor
  rw [rootAnswer_ok hroot, hstart]
  apply walked_start hspells
  by_cases hdir : s.tree.find (meant (hintDir hint)) = some .dir
  · exact .inl hdir
  · right
    have hnames : s.tree.find (self.names start) ≠ some .dir := by rwa [hspells.here]
    obtain ⟨hfalse, _⟩ | ⟨_, hthere⟩ := dirExists_of_not_dir hnames
    · exact ⟨hfalse, hdir⟩
    · rw [hspells.here] at hthere
      obtain hrefused | ⟨hsep, hfile⟩ := hthere
      · exact absurd (.inl hrefused) hblocked
      · have hne : hintDir hint ≠ [] := by
          intro hnil
          rw [hnil] at hdir
          exact hdir s.tree.find_nil
        exact absurd (.inr ⟨(hends hne).mp hsep, hfile⟩) hblocked

theorem walkedFor_blocked (hroot : s.rootStat = .ok true) (hhint : filter.prefixHint = some hint)
    (hvalid : validatePrefixHint hint = .ok ()) (hblocked : Blocked s.tree hint) :
    ∃ e, self.walkedFor s filter = ([], some e) := by
  obtain ⟨start, hstart, hspells, hends⟩ := self.prefixSubdir_hint hhint hvalid
  have hdir : s.tree.find (self.names start) ≠ some .dir := by
    rw [hspells.here]
    intro hdir
    obtain hrefused | ⟨_, hfile⟩ := hblocked
    · exact Volume.not_refused_of_find hdir hrefused
    · obtain ⟨data, hfind⟩ := Volume.isFile_iff.mp hfile
      rw [hdir] at hfind
      cases hfind
  have hthere : s.tree.Refused (self.names start) ∨
      endsWithSeparator start = true ∧ s.tree.isFile (self.names start) = true := by
    rw [hspells.here]
    obtain hrefused | ⟨hlast, hfile⟩ := hblocked
    · exact .inl hrefused
    · refine .inr ⟨(hends ?_).mpr hlast, hfile⟩
      intro hnil
      rw [hspells.here, hnil] at hdir
      exact hdir s.tree.find_nil
  obtain ⟨_, hnot⟩ | ⟨⟨e, he⟩, _⟩ := dirExists_of_not_dir hdir
  · exact absurd hthere hnot
  · refine ⟨e, ?_⟩
    unfold walkedFor
    rw [rootAnswer_ok hroot, hstart]
    dsimp only
    rw [walked, he]

theorem walkedFor_rejected (hroot : s.rootStat = .ok true) (hhint : filter.prefixHint = some hint)
    {e : BlobStorageError} (h : validatePrefixHint hint = .error e) :
    self.walkedFor s filter = ([], some e) := by
  have hstart : self.prefixSubdir filter = .error e := by
    unfold prefixSubdir
    rw [hhint]
    dsimp only
    rw [h]
    rfl
  unfold walkedFor
  rw [rootAnswer_ok hroot, hstart]

end Walk

end FsBlobStore

end BlobStorage
