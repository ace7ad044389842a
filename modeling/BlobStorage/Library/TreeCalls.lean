import BlobStorage.Library.FileTree

/-!
# What the calls on a directory tree do

One lemma for each call, by cases on what is in the tree: when it succeeds, with the tree
afterwards path by path, and when it fails.
-/

namespace FileTree

open Posix

namespace Volume

variable {α : Type}

/-- A path leads through a file or to one. -/
theorem file_on_path_iff {t : Volume α} {path : Path} :
    (∃ front data, front <+: path ∧ t.find front = some (.file data)) ↔
      t.ThroughFile path ∨ ∃ data, t.find path = some (.file data) := by
  constructor
  · rintro ⟨front, data, ⟨rest, rfl⟩, hfile⟩
    by_cases hrest : rest = []
    · rw [hrest, List.append_nil]
      exact .inr ⟨data, hfile⟩
    · exact .inl ⟨front, rest, data, hrest, rfl, hfile⟩
  · rintro (⟨front, rest, data, _, rfl, hfile⟩ | ⟨data, hfile⟩)
    · exact ⟨front, data, List.prefix_append front rest, hfile⟩
    · exact ⟨path, data, List.prefix_refl path, hfile⟩

/-- Where something is, there is no file on the way. -/
theorem find_of_isPrefix {t : Volume α} {front path : Path} {node : Node α} (hfront : front <+: path)
    (hne : front ≠ path) (h : t.find path = some node) : t.find front = some .dir := by
  obtain ⟨rest, rfl⟩ := hfront
  apply find_above _ h
  rintro rfl
  exact hne (List.append_nil front).symm

/-- On the way to a directory, itself included, there are directories. -/
theorem find_of_isPrefix_dir {t : Volume α} {front path : Path} (hfront : front <+: path)
    (h : t.find path = some .dir) : t.find front = some .dir := by
  by_cases hsame : front = path
  · rw [hsame, h]
  · exact find_of_isPrefix hfront hsame h

section Unlink

/-- What `unlink` does. -/
inductive Unlinking (t : Volume α) (path : Path) : Except Errno (Volume α) → Prop where
  | removed {t' : Volume α} (file : ∃ data, t.find path = some (.file data))
      (rest : ∀ other, t'.find other = if other = path then none else t.find other) :
      Unlinking t path (.ok t')
  | directory (dir : t.find path = some .dir) : Unlinking t path (.error .isDirectory)
  | refused {e : Errno} (code : e ≠ .noEntry) (refused : t.Refused path) :
      Unlinking t path (.error e)
  | missing (absent : t.find path = none) (free : ¬t.Refused path) :
      Unlinking t path (.error .noEntry)

theorem unlink_cases (t : Volume α) (path : Path) : Unlinking t path (t.unlink path) := by
  unfold unlink
  by_cases hfile : t.isFile path = true
  · rw [dif_pos hfile]
    exact .removed (isFile_iff.mp hfile) (t.find_erase path (isFile_iff.mp hfile))
  · rw [dif_neg hfile]
    cases hfind : t.find path with
    | none =>
        obtain ⟨⟨e, hcode, hresolve⟩, hrefused⟩ | ⟨hresolve, hfree⟩ := resolve_of_none hfind
        · rw [hresolve]
          exact .refused hcode hrefused
        · rw [hresolve]
          exact .missing hfind hfree
    | some node =>
        rw [resolve_eq_ok_iff.mpr hfind]
        cases node with
        | dir => exact .directory hfind
        | file data => exact absurd (isFile_iff.mpr ⟨data, hfind⟩) hfile

end Unlink

section CreateDirAll

/-- A directory and the name of an entry, as names of files. -/
theorem fileNames_concat {t : Volume α} {parent : Path} {name : Name}
    (hdir : t.find parent = some .dir) (hname : FileName name) :
    ∀ other ∈ parent ++ [name], FileName other := by
  rw [List.forall_mem_append, List.forall_mem_singleton]
  exact ⟨fileName_of_find hdir, hname⟩

theorem mkdir_of_nul (t : Volume α) {parent : Path} {name : Name} (hnul : HasNul (parent ++ [name])) :
    t.mkdir parent name = .error .invalidInput := by
  unfold mkdir
  rw [if_pos hnul]

theorem mkdir_of_tooLong {t : Volume α} {parent : Path} {name : Name}
    (hnul : ¬HasNul (parent ++ [name])) (hdir : t.find parent = some .dir) (hlong : TooLong name) :
    t.mkdir parent name = .error .nameTooLong := by
  unfold mkdir
  rw [if_neg hnul, dif_pos (isDir_iff.mpr hdir), if_pos hlong]

theorem mkdir_of_fresh {t : Volume α} {parent : Path} {name : Name} (hdir : t.find parent = some .dir)
    (hname : FileName name) (hfresh : t.find (parent ++ [name]) = none) :
    ∃ t', t.mkdir parent name = .ok t' ∧
      ∀ other, t'.find other = if other = parent ++ [name] then some .dir else t.find other := by
  unfold mkdir
  rw [if_neg (not_hasNul_of_fileName (fileNames_concat hdir hname)), dif_pos (isDir_iff.mpr hdir),
    if_neg hname.short, dif_pos hname, dif_pos hfresh]
  exact ⟨_, rfl, fun other => t.find_insert parent name .dir hname hdir (by simp [hfresh]) other⟩

theorem mkdir_of_there {t : Volume α} {parent : Path} {name : Name} {node : Node α}
    (hthere : t.find (parent ++ [name]) = some node) :
    t.mkdir parent name = .error .alreadyExists := by
  have hnames := fileName_of_find hthere
  have hname := hnames name (List.mem_append_right _ List.mem_cons_self)
  unfold mkdir
  rw [if_neg (not_hasNul_of_fileName hnames), dif_pos (isDir_iff.mpr (find_parent hthere)),
    if_neg hname.short, dif_pos hname, dif_neg (by simp [hthere])]

theorem mkdir_of_not_dir {t : Volume α} {parent : Path} {name : Name}
    (hnul : ¬HasNul (parent ++ [name])) (hdir : t.find parent ≠ some .dir) :
    (∃ e, e ≠ .noEntry ∧ t.mkdir parent name = .error e) ∧
        ((∃ front data, front <+: parent ∧ t.find front = some (.file data)) ∨
          t.AsksTooLong parent) ∨
      t.mkdir parent name = .error .noEntry ∧ t.find parent = none ∧ ¬t.Refused parent := by
  have hnot : ¬t.isDir parent = true := fun h => hdir (isDir_iff.mp h)
  unfold mkdir directoryError
  rw [if_neg hnul, dif_neg hnot]
  cases hfind : t.find parent with
  | none =>
      obtain ⟨⟨e, hcode, hresolve⟩, hrefused⟩ | ⟨hresolve, hfree⟩ := resolve_of_none hfind
      · rw [hresolve]
        refine .inl ⟨⟨e, hcode, rfl⟩, ?_⟩
        obtain hthrough | hbad | hlong := hrefused
        · exact .inl (file_on_path_iff.mpr (.inl hthrough))
        · exact absurd (hbad.mono (List.subset_append_left parent [name])) hnul
        · exact .inr hlong
      · rw [hresolve]
        exact .inr ⟨rfl, rfl, hfree⟩
  | some node =>
      rw [resolve_eq_ok_iff.mpr hfind]
      cases node with
      | dir => exact absurd hfind hdir
      | file data =>
          exact .inl ⟨⟨.notDirectory, nofun, rfl⟩,
            .inl ⟨parent, data, List.prefix_refl parent, hfind⟩⟩

section OnPath

variable {t t' : Volume α} {front path : Path} {name : Name}

/-- What leads to a directory is made already. -/
theorem dirs_on_path (hdir : t.find path = some .dir) (other : Path) :
    t.find other = if other <+: path then some .dir else t.find other := by
  split
  · next hother => exact find_of_isPrefix_dir hother hdir
  · rfl

theorem no_file_on_path (hdir : t.find path = some .dir) (other : Path) (data : α)
    (hother : other <+: path) : t.find other ≠ some (.file data) := by
  rw [find_of_isPrefix_dir hother hdir]
  exact nofun

theorem no_file_concat
    (hclear : ∀ other data, other <+: front → t.find other ≠ some (.file data))
    (hthere : t.find (front ++ [name]) = none) (other : Path) (data : α)
    (hother : other <+: front ++ [name]) : t.find other ≠ some (.file data) := by
  obtain rfl | hother := List.prefix_concat_iff.mp hother
  · rw [hthere]
    exact nofun
  · exact hclear other data hother

/-- One directory more, behind those that have been made. -/
theorem mkdir_on_path (hname : FileName name)
    (hmade : ∀ other, t'.find other = if other <+: front then some .dir else t.find other)
    (hthere : t.find (front ++ [name]) = none) :
    ∃ u, t'.mkdir front name = .ok u ∧ ∀ other, u.find other =
      if other <+: front ++ [name] then some .dir else t.find other := by
  have hlonger : ¬front ++ [name] <+: front := by
    intro h
    have hlength := h.length_le
    rw [List.length_append, List.length_singleton] at hlength
    omega
  have hdir : t'.find front = some .dir := by
    rw [hmade, if_pos (List.prefix_refl front)]
  have hfresh : t'.find (front ++ [name]) = none := by
    rw [hmade, if_neg hlonger, hthere]
  obtain ⟨u, hmkdir, hfind⟩ := mkdir_of_fresh hdir hname hfresh
  refine ⟨u, hmkdir, fun other => ?_⟩
  rw [hfind, hmade]
  by_cases hlast : other = front ++ [name]
  · rw [if_pos hlast, if_pos (List.prefix_concat_iff.mpr (.inl hlast))]
  · have hiff : other <+: front ++ [name] ↔ other <+: front := by
      rw [List.prefix_concat_iff, or_iff_right hlast]
    rw [if_neg hlast]
    simp only [hiff]

theorem not_isDir_of_none (hnone : t.find path = none) : ¬t.isDir path = true := by
  rw [isDir_iff, hnone]
  exact nofun

theorem AsksTooLong.append (h : t.AsksTooLong path) (others : Path) :
    t.AsksTooLong (path ++ others) := by
  obtain ⟨dir, name, rest, rfl, hdir, hlong⟩ := h
  exact ⟨dir, name, rest ++ others, by simp, hdir, hlong⟩

/-- A path that asks for too long a name does so behind directories only. -/
theorem AsksTooLong.nameableFront (hnul : ¬HasNul path) (h : t.AsksTooLong path) :
    (∀ front data, front <+: path → t.find front ≠ some (.file data)) ∧
      t.find (nameableFront path) = some .dir ∧ ∃ name ∈ path, TooLong name := by
  obtain ⟨dir, name, rest, rfl, hdir, hlong⟩ := h
  have hmem : name ∈ dir ++ name :: rest := List.mem_append_right _ List.mem_cons_self
  refine ⟨fun front data hfront hfile => ?_, ?_, name, hmem, hlong⟩
  · obtain hbefore | ⟨beyond, rfl⟩ :=
      List.prefix_or_prefix_of_prefix hfront (List.prefix_append dir (name :: rest))
    · exact no_file_on_path hdir front data hbefore hfile
    · rw [List.prefix_append_right_inj] at hfront
      cases beyond with
      | nil =>
          rw [List.append_nil, hdir] at hfile
          cases hfile
      | cons first beyond =>
          obtain ⟨rfl, _⟩ := List.cons_prefix_cons.mp hfront
          have hname := fileName_of_find hfile first (List.mem_append_right _ List.mem_cons_self)
          exact hname.short hlong
  · rw [nameableFront_of_tooLong hnul (fun other hother =>
      (fileName_of_find hdir other hother).short) hlong]
    exact hdir

end OnPath

/-- What `create_dir_all` comes to: it fails on a file on the way and then leaves the tree alone,
or it makes every directory that is missing up to the first name that no directory can have. -/
def MakesDirs (t : Volume α) (path : Path) (made : Except Errno Unit × Volume α) : Prop :=
  (∃ front data, front <+: path ∧ t.find front = some (.file data)) ∧ (∃ e, made = (.error e, t)) ∨
    (∀ front data, front <+: path → t.find front ≠ some (.file data)) ∧
      (made.1 = .ok () ↔ ∀ name ∈ path, FileName name) ∧
      ∀ other, made.2.find other =
        if other <+: nameableFront path then some .dir else t.find other

/-- Only a missing parent is no failure. -/
theorem createDirAll_of_error {t : Volume α} {front : Path} {name : Name} {e : Errno}
    (hmkdir : t.mkdir front name = .error e) (hcode : e ≠ .noEntry)
    (hnot : ¬t.isDir (front ++ [name]) = true) :
    t.createDirAll (name :: front.reverse) = (.error e, t) := by
  rw [createDirAll, List.reverse_reverse, hmkdir]
  cases e with
  | noEntry => exact absurd rfl hcode
  | notDirectory | isDirectory | alreadyExists | nameTooLong | invalidInput =>
      dsimp only
      rw [if_neg hnot]

theorem makesDirs_of_nul {t : Volume α} {path : Path} {e : Errno} (hnul : HasNul path) :
    t.MakesDirs path (.error e, t) := by
  by_cases hfile : ∃ front data, front <+: path ∧ t.find front = some (.file data)
  · exact .inl ⟨hfile, e, rfl⟩
  · refine .inr ⟨fun front data hfront hthere => hfile ⟨front, data, hfront, hthere⟩,
      iff_of_false nofun fun hall => not_hasNul_of_fileName hall hnul, ?_⟩
    unfold nameableFront
    rw [if_pos hnul]
    exact dirs_on_path rfl

theorem makesDirs_of_dir {t : Volume α} {path : Path} (hdir : t.find path = some .dir) :
    t.MakesDirs path (.ok (), t) := by
  refine .inr ⟨no_file_on_path hdir, iff_of_true rfl (fileName_of_find hdir), ?_⟩
  rw [nameableFront_of_fileName (fileName_of_find hdir)]
  exact dirs_on_path hdir

theorem makesDirs_of_asksTooLong {t : Volume α} {path : Path} {e : Errno} (hnul : ¬HasNul path)
    (h : t.AsksTooLong path) : t.MakesDirs path (.error e, t) := by
  obtain ⟨hclear, hdir, name, hname, hlong⟩ := h.nameableFront hnul
  exact .inr ⟨hclear, iff_of_false nofun fun hall => (hall name hname).short hlong,
    dirs_on_path hdir⟩

/-- `create_dir_all` when the last name is all that is left to make. -/
theorem makesDirs_last {t t' : Volume α} {front : Path} {name : Name} (hname : LegalName name)
    (hnul : ¬HasNul (front ++ [name]))
    (hclear : ∀ other data, other <+: front → t.find other ≠ some (.file data))
    (hmade : ∀ other, t'.find other = if other <+: front then some .dir else t.find other)
    (hthere : t.find (front ++ [name]) = none) :
    (∃ u, t'.mkdir front name = .ok u ∧ t.MakesDirs (front ++ [name]) (.ok (), u)) ∨
      t'.mkdir front name = .error .nameTooLong ∧ ¬t'.isDir (front ++ [name]) = true ∧
        t.MakesDirs (front ++ [name]) (.error .nameTooLong, t') := by
  have hdir : t'.find front = some .dir := by
    rw [hmade, if_pos (List.prefix_refl front)]
  have hfront := fileName_of_find hdir
  have hclear' := no_file_concat hclear hthere
  by_cases hlong : TooLong name
  · right
    have hnone : t'.find (front ++ [name]) = none := by
      cases hfind : t'.find (front ++ [name]) with
      | none => rfl
      | some node =>
          have hall := fileName_of_find hfind name (List.mem_append_right _ List.mem_cons_self)
          exact absurd hlong hall.short
    refine ⟨mkdir_of_tooLong hnul hdir hlong, not_isDir_of_none hnone, .inr ⟨hclear', ?_, ?_⟩⟩
    · exact iff_of_false nofun fun h =>
        (h name (List.mem_append_right _ List.mem_cons_self)).short hlong
    · rw [nameableFront_of_tooLong hnul (fun other hother => (hfront other hother).short) hlong]
      exact hmade
  · left
    have hfile : FileName name :=
      ⟨hname, fun hmem => hnul ⟨name, List.mem_append_right _ List.mem_cons_self, hmem⟩, hlong⟩
    obtain ⟨u, hmkdir, hfind⟩ := mkdir_on_path hfile hmade hthere
    refine ⟨u, hmkdir, .inr ⟨hclear', iff_of_true rfl (fileNames_concat hdir hfile), ?_⟩⟩
    rw [nameableFront_of_fileName (fileNames_concat hdir hfile)]
    exact hfind

theorem createDirAll_cases (t : Volume α) {path : Path} (hlegal : ∀ name ∈ path, LegalName name) :
    t.MakesDirs path (t.createDirAll path.reverse) := by
  induction path using List.reverseRecOn with
  | nil =>
      refine .inr ⟨no_file_on_path rfl, iff_of_true rfl (List.forall_mem_nil _), ?_⟩
      rw [nameableFront_of_fileName (List.forall_mem_nil _)]
      exact dirs_on_path rfl
  | append_singleton front name ih =>
      rw [List.forall_mem_append, List.forall_mem_singleton] at hlegal
      obtain ⟨hfront, hname⟩ := hlegal
      rw [List.reverse_append, List.reverse_singleton, List.singleton_append]
      cases hthere : t.find (front ++ [name]) with
      | some node =>
          have hmkdir := mkdir_of_there hthere
          cases node with
          | file data =>
              have hnot : ¬t.isDir (front ++ [name]) = true := by
                rw [isDir_iff, hthere]
                exact nofun
              rw [createDirAll_of_error hmkdir nofun hnot]
              exact .inl ⟨⟨_, data, List.prefix_refl _, hthere⟩, _, rfl⟩
          | dir =>
              rw [createDirAll, List.reverse_reverse, hmkdir]
              dsimp only
              rw [if_pos (isDir_iff.mpr hthere)]
              exact makesDirs_of_dir hthere
      | none =>
          have hnot := not_isDir_of_none hthere
          by_cases hnul : HasNul (front ++ [name])
          · rw [createDirAll_of_error (t.mkdir_of_nul hnul) nofun hnot]
            exact makesDirs_of_nul hnul
          by_cases hdir : t.find front = some .dir
          · obtain ⟨u, hmkdir, hmakes⟩ | ⟨hmkdir, _, hmakes⟩ :=
              makesDirs_last hname hnul (no_file_on_path hdir) (dirs_on_path hdir) hthere
            · rw [createDirAll, List.reverse_reverse, hmkdir]
              exact hmakes
            · rw [createDirAll_of_error hmkdir nofun hnot]
              exact hmakes
          · obtain ⟨⟨e, hcode, hmkdir⟩, hbad⟩ | ⟨hmkdir, hmissing, hfree⟩ :=
              mkdir_of_not_dir hnul hdir
            · rw [createDirAll_of_error hmkdir hcode hnot]
              obtain ⟨other, data, hother, hfile⟩ | hlong := hbad
              · exact .inl ⟨⟨other, data, List.prefix_concat_iff.mpr (.inr hother), hfile⟩, e, rfl⟩
              · exact makesDirs_of_asksTooLong hnul (hlong.append [name])
            · -- The parent is missing, and is made first.
              rw [createDirAll, List.reverse_reverse, hmkdir]
              dsimp only
              obtain ⟨hfile, _⟩ | ⟨hclear, hok, hfind⟩ := ih hfront
              · obtain hthrough | ⟨data, hdata⟩ := file_on_path_iff.mp hfile
                · exact absurd (.inl hthrough) hfree
                · rw [hmissing] at hdata
                  cases hdata
              · generalize hmade : t.createDirAll front.reverse = made at hok hfind
                obtain ⟨r, t'⟩ := made
                dsimp only at hok hfind
                cases r with
                | ok done =>
                    have hall := hok.mp rfl
                    rw [nameableFront_of_fileName hall] at hfind
                    obtain ⟨u, hmkdir', hmakes⟩ | ⟨hmkdir', hnot', hmakes⟩ :=
                      makesDirs_last hname hnul hclear hfind hthere
                    · dsimp only
                      rw [hmkdir']
                      exact hmakes
                    · dsimp only
                      rw [hmkdir']
                      dsimp only
                      rw [if_neg hnot']
                      exact hmakes
                | error e =>
                    have hsome : ∃ other ∈ front, TooLong other := by
                      by_contra hnone
                      have hshort : ∀ other ∈ front, ¬TooLong other :=
                        fun other hother hlong => hnone ⟨other, hother, hlong⟩
                      have hnul' := mt (HasNul.mono (List.subset_append_left front [name])) hnul
                      have hall := fileNames_of_legal hfront hnul' hshort
                      cases hok.mpr hall
                    obtain ⟨other, hother, hlong⟩ := hsome
                    refine .inr ⟨no_file_concat hclear hthere, iff_of_false nofun fun hall => ?_, ?_⟩
                    · exact (hall other (List.mem_append_left _ hother)).short hlong
                    · rw [nameableFront_append hnul ⟨other, hother, hlong⟩]
                      exact hfind

end CreateDirAll

section Write

theorem write_of_dir {t : Volume α} {parent : Path} {name : Name} (data : α)
    (hdir : t.find parent = some .dir) (hname : FileName name)
    (hfree : t.find (parent ++ [name]) ≠ some .dir) :
    ∃ t', t.write parent name data = .ok t' ∧ ∀ other, t'.find other =
      if other = parent ++ [name] then some (.file data) else t.find other := by
  have hnot : t.isDir (parent ++ [name]) = false :=
    Bool.eq_false_iff.mpr fun h => hfree (isDir_iff.mp h)
  unfold write
  rw [if_neg (not_hasNul_of_fileName (fileNames_concat hdir hname)), dif_pos (isDir_iff.mpr hdir),
    if_neg hname.short, dif_pos hname, dif_pos hnot]
  exact ⟨_, rfl, fun other => t.find_insert parent name (.file data) hname hdir hfree other⟩

theorem write_at_dir {t : Volume α} {parent : Path} {name : Name} (data : α)
    (h : t.find (parent ++ [name]) = some .dir) :
    t.write parent name data = .error .isDirectory := by
  have hnot : ¬t.isDir (parent ++ [name]) = false := by
    rw [isDir_iff.mpr h]
    exact Bool.noConfusion
  have hnames := fileName_of_find h
  have hname := hnames name (List.mem_append_right _ List.mem_cons_self)
  unfold write
  rw [if_neg (not_hasNul_of_fileName hnames), dif_pos (isDir_iff.mpr (find_parent h)),
    if_neg hname.short, dif_pos hname, dif_neg hnot]

theorem write_of_not_fileName {t : Volume α} {parent : Path} {name : Name} (data : α)
    (hdir : t.find parent = some .dir) (hname : ¬FileName name) :
    ∃ e, t.write parent name data = .error e := by
  unfold write
  split_ifs with hnul hparent hlong
  · exact ⟨_, rfl⟩
  · exact ⟨_, rfl⟩
  · exact ⟨_, rfl⟩
  · exact absurd (isDir_iff.mpr hdir) hparent

end Write

end Volume

end FileTree
