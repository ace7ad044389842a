import BlobStorage.Library.Path
import Mathlib.Algebra.GroupWithZero.Nat
import Mathlib.Data.List.AList

/-!
# Directory trees

A tree of directories and files with the system calls that look at it and change it, and
the way in which they fail. There are no links and no permissions, and no limit on the length
of a whole path. A tree carries the proof that everything in it lies in a directory and has a
name that a file can have, so that no call can make one in which something does not.
-/

namespace FileTree

open Posix

inductive Errno where
  | noEntry
  | notDirectory
  | isDirectory
  | alreadyExists
  | nameTooLong
  /-- The path has a NUL, and no call is made. -/
  | invalidInput
  deriving DecidableEq, Repr

inductive Node (α : Type) where
  | file (data : α)
  | dir
  deriving DecidableEq, Repr

/-- What lies below the root, by path. The root itself is a directory and has no node. -/
structure Volume (α : Type) where
  nodes : AList (fun _ : Path => Node α)
  closed : ∀ path name, path ++ [name] ∈ nodes → path = [] ∨ nodes.lookup path = some .dir
  named : ∀ path ∈ nodes, path ≠ [] ∧ ∀ name ∈ path, FileName name

namespace Volume

variable {α : Type}

def empty : Volume α where
  nodes := ∅
  closed := fun _ _ h => by simp at h
  named := fun _ h => by simp at h

def find (t : Volume α) (path : Path) : Option (Node α) :=
  if path = [] then some .dir else t.nodes.lookup path

@[simp] theorem find_nil (t : Volume α) : t.find [] = some .dir := rfl

theorem find_of_ne_nil (t : Volume α) {path : Path} (h : path ≠ []) :
    t.find path = t.nodes.lookup path := if_neg h

theorem mem_of_find {t : Volume α} {path : Path} {node : Node α} (hne : path ≠ [])
    (h : t.find path = some node) : path ∈ t.nodes := by
  rw [find_of_ne_nil t hne] at h
  rw [← AList.lookup_isSome, h]
  rfl

/-- What is in the tree lies in a directory. -/
theorem find_parent {t : Volume α} {path : Path} {name : Name} {node : Node α}
    (h : t.find (path ++ [name]) = some node) : t.find path = some .dir := by
  have hmem := mem_of_find (by simp) h
  obtain rfl | hdir := t.closed path name hmem
  · rfl
  · by_cases hne : path = []
    · rw [hne]
      rfl
    · rwa [find_of_ne_nil t hne]

/-- Everything on the way to something in the tree is a directory. -/
theorem find_above {t : Volume α} {front rest : Path} {node : Node α} (hrest : rest ≠ [])
    (h : t.find (front ++ rest) = some node) : t.find front = some .dir := by
  induction rest using List.reverseRecOn generalizing node with
  | nil => exact absurd rfl hrest
  | append_singleton rest name ih =>
      rw [← List.append_assoc] at h
      have hparent := find_parent h
      by_cases hne : rest = []
      · rwa [hne, List.append_nil] at hparent
      · exact ih hne hparent

theorem fileName_of_find {t : Volume α} {path : Path} {node : Node α}
    (h : t.find path = some node) : ∀ name ∈ path, FileName name := by
  by_cases hne : path = []
  · rw [hne]
    simp
  · exact (t.named path (mem_of_find hne h)).2

theorem legal_of_find {t : Volume α} {path : Path} {node : Node α} (h : t.find path = some node) :
    ∀ name ∈ path, LegalName name := fun name hname => (fileName_of_find h name hname).legal

/-- Path resolution: the names after `front`, one after another. -/
def resolveFrom (t : Volume α) (front : Path) : Path → Except Errno (Node α)
  | [] =>
      match t.find front with
      | some node => .ok node
      | none => .error .noEntry
  | name :: rest =>
      match t.find front with
      | some .dir =>
          if TooLong name then .error .nameTooLong else resolveFrom t (front ++ [name]) rest
      | some (.file _) => .error .notDirectory
      | none => .error .noEntry

def resolve (t : Volume α) (path : Path) : Except Errno (Node α) :=
  if HasNul path then .error .invalidInput else t.resolveFrom [] path

theorem resolveFrom_eq_ok_iff {t : Volume α} {front rest : Path} {node : Node α} :
    t.resolveFrom front rest = .ok node ↔ t.find (front ++ rest) = some node := by
  induction rest generalizing front with
  | nil =>
      rw [resolveFrom, List.append_nil]
      cases t.find front with
      | none => simp
      | some node' => simp
  | cons name rest ih =>
      have hnext : t.find (front ++ name :: rest) = some node ↔
          t.resolveFrom (front ++ [name]) rest = .ok node := by
        rw [ih, ← List.append_cons]
      rw [resolveFrom, hnext]
      constructor
      · intro h
        split at h
        · split_ifs at h
          exact h
        · cases h
        · cases h
      · intro h
        have hthere := hnext.mpr h
        have hfind : t.find front = some .dir := find_above (List.cons_ne_nil name rest) hthere
        have hshort : ¬TooLong name :=
          (fileName_of_find hthere name (List.mem_append_right _ List.mem_cons_self)).short
        rw [hfind]
        dsimp only
        rw [if_neg hshort, h]

/-- A path resolves to what the tree has there. -/
theorem resolve_eq_ok_iff {t : Volume α} {path : Path} {node : Node α} :
    t.resolve path = .ok node ↔ t.find path = some node := by
  unfold resolve
  by_cases hnul : HasNul path
  · rw [if_pos hnul]
    exact iff_of_false nofun fun h => not_hasNul_of_fileName (fileName_of_find h) hnul
  · rw [if_neg hnul]
    exact resolveFrom_eq_ok_iff

/-- The path passes through a file. -/
def ThroughFile (t : Volume α) (path : Path) : Prop :=
  ∃ front rest data, rest ≠ [] ∧ path = front ++ rest ∧ t.find front = some (.file data)

/-- The path asks a directory for a name that is too long. -/
def AsksTooLong (t : Volume α) (path : Path) : Prop :=
  ∃ front name rest, path = front ++ name :: rest ∧ t.find front = some .dir ∧ TooLong name

/-- The system cannot look at the path. -/
def Unnameable (t : Volume α) (path : Path) : Prop := HasNul path ∨ t.AsksTooLong path

/-- The system looks at the path in vain, and not for want of an entry. -/
def Refused (t : Volume α) (path : Path) : Prop := t.ThroughFile path ∨ t.Unnameable path

theorem not_throughFile_of_find {t : Volume α} {path : Path} {node : Node α}
    (h : t.find path = some node) : ¬t.ThroughFile path := by
  rintro ⟨front, rest, data, hrest, rfl, hfile⟩
  rw [find_above hrest h] at hfile
  cases hfile

theorem not_unnameable_of_fileName {t : Volume α} {path : Path}
    (h : ∀ name ∈ path, FileName name) : ¬t.Unnameable path := by
  rintro (hnul | ⟨front, name, rest, rfl, _, hlong⟩)
  · exact not_hasNul_of_fileName h hnul
  · exact (h name (List.mem_append_right _ List.mem_cons_self)).short hlong

theorem not_refused_of_find {t : Volume α} {path : Path} {node : Node α}
    (h : t.find path = some node) : ¬t.Refused path := by
  rintro (hthrough | hunnameable)
  · exact not_throughFile_of_find h hthrough
  · exact not_unnameable_of_fileName (fileName_of_find h) hunnameable

section Missing

variable {t : Volume α} {front rest : Path}

/-- Where a first entry is missing nothing beyond it is in the way. -/
theorem not_throughFile_of_missing
    (hway : ∀ other, other <+: front → other ≠ front → t.find other = some .dir)
    (hmissing : t.find front = none) : ¬t.ThroughFile (front ++ rest) := by
  rintro ⟨other, back, data, _, hsplit, hfile⟩
  have hother : other <+: front ++ rest := by
    rw [hsplit]
    exact List.prefix_append other back
  obtain hbefore | ⟨beyond, rfl⟩ :=
    List.prefix_or_prefix_of_prefix hother (List.prefix_append front rest)
  · by_cases hsame : other = front
    · rw [hsame, hmissing] at hfile
      cases hfile
    · rw [hway other hbefore hsame] at hfile
      cases hfile
  · by_cases hnil : beyond = []
    · rw [hnil, List.append_nil, hmissing] at hfile
      cases hfile
    · rw [find_above hnil hfile] at hmissing
      cases hmissing

theorem not_asksTooLong_of_missing (hshort : ∀ name ∈ front, ¬TooLong name)
    (hmissing : t.find front = none) : ¬t.AsksTooLong (front ++ rest) := by
  rintro ⟨other, name, back, hsplit, hdir, hlong⟩
  have hother : other ++ [name] <+: front ++ rest := by
    exact ⟨back, by rw [hsplit, List.append_assoc, List.singleton_append]⟩
  obtain hbefore | ⟨beyond, hbeyond⟩ :=
    List.prefix_or_prefix_of_prefix hother (List.prefix_append front rest)
  · exact hshort name (hbefore.subset (by simp)) hlong
  · cases hlast : beyond.getLast? with
    | none =>
        rw [List.getLast?_eq_none_iff.mp hlast, List.append_nil] at hbeyond
        exact hshort name (by simp [hbeyond]) hlong
    | some last =>
        rw [← List.dropLast_append_getLast? last hlast, ← List.append_assoc] at hbeyond
        have hfront := (List.append_inj' hbeyond rfl).1
        by_cases hnil : beyond.dropLast = []
        · rw [hnil, List.append_nil] at hfront
          rw [hfront, hdir] at hmissing
          cases hmissing
        · rw [← hfront] at hdir
          rw [find_above hnil hdir] at hmissing
          cases hmissing

theorem resolveFrom_of_none
    (hway : ∀ other, other <+: front → other ≠ front → t.find other = some .dir)
    (hshort : ∀ name ∈ front, ¬TooLong name) (hnone : t.find (front ++ rest) = none) :
    (∃ e, e ≠ .noEntry ∧ t.resolveFrom front rest = .error e) ∧
        (t.ThroughFile (front ++ rest) ∨ t.AsksTooLong (front ++ rest)) ∨
      t.resolveFrom front rest = .error .noEntry ∧
        ¬t.ThroughFile (front ++ rest) ∧ ¬t.AsksTooLong (front ++ rest) := by
  induction rest generalizing front with
  | nil =>
      have hmissing : t.find front = none := by rwa [List.append_nil] at hnone
      rw [resolveFrom, hmissing]
      exact .inr ⟨rfl, not_throughFile_of_missing hway hmissing,
        not_asksTooLong_of_missing hshort hmissing⟩
  | cons name rest ih =>
      rw [resolveFrom]
      cases hfront : t.find front with
      | none =>
          exact .inr ⟨rfl, not_throughFile_of_missing hway hfront,
            not_asksTooLong_of_missing hshort hfront⟩
      | some node =>
          cases node with
          | file data =>
              exact .inl ⟨⟨.notDirectory, nofun, rfl⟩,
                .inl ⟨front, name :: rest, data, List.cons_ne_nil _ _, rfl, hfront⟩⟩
          | dir =>
              dsimp only
              by_cases hlong : TooLong name
              · rw [if_pos hlong]
                exact .inl ⟨⟨.nameTooLong, nofun, rfl⟩, .inr ⟨front, name, rest, rfl, hfront, hlong⟩⟩
              · rw [if_neg hlong]
                have hcons : front ++ name :: rest = front ++ [name] ++ rest := by simp
                rw [hcons] at hnone ⊢
                refine ih (fun other hother hne => ?_) ?_ hnone
                · obtain hsame | hbefore := List.prefix_concat_iff.mp hother
                  · exact absurd hsame hne
                  · by_cases hsame : other = front
                    · rw [hsame, hfront]
                    · exact hway other hbefore hsame
                · rw [List.forall_mem_append, List.forall_mem_singleton]
                  exact ⟨hshort, hlong⟩

end Missing

/-- What is not there is reported as a missing entry, or the system could not look for it. -/
theorem resolve_of_none {t : Volume α} {path : Path} (h : t.find path = none) :
    (∃ e, e ≠ .noEntry ∧ t.resolve path = .error e) ∧ t.Refused path ∨
      t.resolve path = .error .noEntry ∧ ¬t.Refused path := by
  unfold resolve Refused Unnameable
  by_cases hnul : HasNul path
  · rw [if_pos hnul]
    exact .inl ⟨⟨.invalidInput, nofun, rfl⟩, .inr (.inl hnul)⟩
  · rw [if_neg hnul]
    have hway : ∀ other, other <+: [] → other ≠ [] → t.find other = some .dir :=
      fun other hother hne => absurd (List.prefix_nil.mp hother) hne
    obtain ⟨hresolve, hrefused⟩ | ⟨hresolve, hthrough, hlong⟩ :=
      resolveFrom_of_none hway (List.forall_mem_nil _) h
    · exact .inl ⟨hresolve, hrefused.imp_right .inr⟩
    · refine .inr ⟨hresolve, ?_⟩
      rintro (hbad | hbad | hbad)
      · exact hthrough hbad
      · exact hnul hbad
      · exact hlong hbad

/-- Put a node into a directory, where there is no directory already. -/
def insert (t : Volume α) (path : Path) (name : Name) (node : Node α)
    (hname : FileName name) (hdir : t.find path = some .dir)
    (hfresh : t.find (path ++ [name]) ≠ some .dir) : Volume α where
  nodes := t.nodes.insert (path ++ [name]) node
  closed := by
    intro front last hmem
    by_cases hfront : front = []
    · exact .inl hfront
    right
    have hold : t.find front = some .dir := by
      rw [AList.mem_insert] at hmem
      obtain hnew | hmem := hmem
      · obtain rfl := (List.append_inj' hnew rfl).1
        exact hdir
      · rw [find_of_ne_nil t hfront]
        exact (t.closed front last hmem).resolve_left hfront
    have hne : front ≠ path ++ [name] := by
      rintro rfl
      exact hfresh hold
    rw [AList.lookup_insert_ne hne, ← find_of_ne_nil t hfront]
    exact hold
  named := by
    intro other hmem
    rw [AList.mem_insert] at hmem
    obtain rfl | hmem := hmem
    · refine ⟨by simp, ?_⟩
      rw [List.forall_mem_append]
      exact ⟨fileName_of_find hdir, by simpa using hname⟩
    · exact t.named other hmem

theorem find_insert (t : Volume α) (path : Path) (name : Name) (node : Node α)
    (hname : FileName name) (hdir : t.find path = some .dir)
    (hfresh : t.find (path ++ [name]) ≠ some .dir) (other : Path) :
    (t.insert path name node hname hdir hfresh).find other =
      if other = path ++ [name] then some node else t.find other := by
  by_cases hother : other = []
  · rw [hother, if_neg (by simp)]
    rfl
  · rw [find_of_ne_nil _ hother, find_of_ne_nil t hother]
    by_cases hsame : other = path ++ [name]
    · rw [if_pos hsame, hsame]
      exact AList.lookup_insert t.nodes
    · rw [if_neg hsame]
      exact AList.lookup_insert_ne hsame

/-- Take a file out. -/
def erase (t : Volume α) (path : Path) (hfile : ∃ data, t.find path = some (.file data)) :
    Volume α where
  nodes := t.nodes.erase path
  closed := by
    intro front last hmem
    rw [AList.mem_erase] at hmem
    by_cases hfront : front = []
    · exact .inl hfront
    right
    have hold := (t.closed front last hmem.2).resolve_left hfront
    have hne : front ≠ path := by
      rintro rfl
      obtain ⟨data, hdata⟩ := hfile
      rw [find_of_ne_nil t hfront, hold] at hdata
      cases hdata
    rw [AList.lookup_erase_ne hne]
    exact hold
  named := fun other hmem => t.named other (AList.mem_erase.mp hmem).2

theorem find_erase (t : Volume α) (path : Path) (hfile : ∃ data, t.find path = some (.file data))
    (other : Path) :
    (t.erase path hfile).find other = if other = path then none else t.find other := by
  have hpath : path ≠ [] := by
    rintro rfl
    obtain ⟨data, hdata⟩ := hfile
    cases hdata
  by_cases hother : other = []
  · rw [hother, if_neg (Ne.symm hpath)]
    rfl
  · rw [find_of_ne_nil _ hother, find_of_ne_nil t hother]
    by_cases hsame : other = path
    · rw [if_pos hsame, hsame]
      exact AList.lookup_erase path t.nodes
    · rw [if_neg hsame]
      exact AList.lookup_erase_ne hsame

def isDir (t : Volume α) (path : Path) : Bool :=
  match t.find path with
  | some .dir => true
  | _ => false

def isFile (t : Volume α) (path : Path) : Bool :=
  match t.find path with
  | some (.file _) => true
  | _ => false

theorem isDir_iff {t : Volume α} {path : Path} : t.isDir path = true ↔ t.find path = some .dir := by
  unfold isDir
  split <;> simp_all

theorem isFile_iff {t : Volume α} {path : Path} :
    t.isFile path = true ↔ ∃ data, t.find path = some (.file data) := by
  unfold isFile
  split <;> simp_all

section Calls

/-- Why a path cannot be used as a directory. -/
def directoryError (t : Volume α) (path : Path) : Errno :=
  match t.resolve path with
  | .error e => e
  | .ok _ => .notDirectory

/-- `mkdir`. -/
def mkdir (t : Volume α) (parent : Path) (name : Name) : Except Errno (Volume α) :=
  if HasNul (parent ++ [name]) then .error .invalidInput
  else if hdir : t.isDir parent = true then
    if TooLong name then .error .nameTooLong
    else if hname : FileName name then
      if hfresh : t.find (parent ++ [name]) = none then
        .ok (t.insert parent name .dir hname (isDir_iff.mp hdir) (by simp [hfresh]))
      else .error .alreadyExists
    else .error .noEntry
  else .error (t.directoryError parent)

/-- `std::fs::create_dir_all`, for the names of a path from the last to the first. -/
def createDirAll (t : Volume α) : List Name → Except Errno Unit × Volume α
  | [] => (.ok (), t)
  | name :: parent =>
      match t.mkdir parent.reverse name with
      | .ok t' => (.ok (), t')
      | .error .noEntry =>
          match t.createDirAll parent with
          | (.error e, t') => (.error e, t')
          | (.ok _, t') =>
              match t'.mkdir parent.reverse name with
              | .ok t'' => (.ok (), t'')
              | .error e =>
                  if t'.isDir (parent.reverse ++ [name]) then (.ok (), t') else (.error e, t')
      | .error e => if t.isDir (parent.reverse ++ [name]) then (.ok (), t) else (.error e, t)

/-- `open` for writing with `O_CREAT` and `O_TRUNC`, and then a write. -/
def write (t : Volume α) (parent : Path) (name : Name) (data : α) : Except Errno (Volume α) :=
  if HasNul (parent ++ [name]) then .error .invalidInput
  else if hdir : t.isDir parent = true then
    if TooLong name then .error .nameTooLong
    else if hname : FileName name then
      if hfresh : t.isDir (parent ++ [name]) = false then
        .ok (t.insert parent name (.file data) hname (isDir_iff.mp hdir) (by
          rw [Ne, ← isDir_iff, hfresh]
          exact Bool.false_ne_true))
      else .error .isDirectory
    else .error .noEntry
  else .error (t.directoryError parent)

/-- `unlink`. -/
def unlink (t : Volume α) (path : Path) : Except Errno (Volume α) :=
  if hfile : t.isFile path = true then .ok (t.erase path (isFile_iff.mp hfile))
  else
    match t.resolve path with
    | .error e => .error e
    | .ok _ => .error .isDirectory

/-- `readdir`, in an order that nothing is known about. -/
def readDir (t : Volume α) (dir : Path) : List Name :=
  t.nodes.keys.filterMap fun path => if path.dropLast = dir then path.getLast? else none

end Calls

section Below

theorem mem_readDir {t : Volume α} {dir : Path} {name : Name} :
    name ∈ t.readDir dir ↔ ∃ node, t.find (dir ++ [name]) = some node := by
  have hfind : (∃ node, t.find (dir ++ [name]) = some node) ↔ dir ++ [name] ∈ t.nodes.keys := by
    rw [find_of_ne_nil t (by simp), ← Option.isSome_iff_exists, AList.lookup_isSome]
    rfl
  rw [hfind, readDir, List.mem_filterMap]
  constructor
  · rintro ⟨path, hmem, hname⟩
    split at hname
    · next hdir =>
        rwa [← hdir, List.dropLast_append_getLast? name hname]
    · cases hname
  · intro hmem
    exact ⟨dir ++ [name], hmem, by simp⟩

theorem nodup_readDir (t : Volume α) (dir : Path) : (t.readDir dir).Nodup := by
  refine List.Nodup.filterMap ?_ t.nodes.nodupKeys
  intro path other name hname hother
  rw [Option.mem_def] at hname hother
  split at hname
  · next hdir =>
      split at hother
      · next hdir' =>
          rw [← List.dropLast_append_getLast? name hname,
            ← List.dropLast_append_getLast? name hother, hdir, hdir']
      · cases hother
  · cases hname

/-- The paths below a directory, however deep, that `kind` holds of. -/
def below (t : Volume α) (kind : Path → Bool) (dir : Path) : List Path :=
  t.nodes.keys.filter fun path => decide (dir <+: path ∧ path ≠ dir) && kind path

/-- The paths of the entries of a directory. -/
def entries (t : Volume α) (dir : Path) : List Path := (t.readDir dir).map fun name => dir ++ [name]

theorem nodup_below (t : Volume α) (kind : Path → Bool) (dir : Path) :
    (t.below kind dir).Nodup := List.Nodup.filter _ t.nodes.nodupKeys

theorem nodup_entries (t : Volume α) (dir : Path) : (t.entries dir).Nodup := by
  refine (t.nodup_readDir dir).map ?_
  intro name other h
  simpa using h

theorem mem_below {t : Volume α} {kind : Path → Bool} {dir path : Path} :
    path ∈ t.below kind dir ↔
      (∃ node, t.find path = some node) ∧ dir <+: path ∧ path ≠ dir ∧ kind path = true := by
  rw [below, List.mem_filter, Bool.and_eq_true, decide_eq_true_iff]
  constructor
  · rintro ⟨hmem, ⟨hdir, hne⟩, hkind⟩
    refine ⟨?_, hdir, hne, hkind⟩
    rw [find_of_ne_nil t (t.named path hmem).1, ← Option.isSome_iff_exists, AList.lookup_isSome]
    exact hmem
  · rintro ⟨⟨node, hfind⟩, hdir, hne, hkind⟩
    refine ⟨mem_of_find ?_ hfind, ⟨hdir, hne⟩, hkind⟩
    rintro rfl
    exact hne (List.prefix_nil.mp hdir).symm

theorem mem_entries {t : Volume α} {dir path : Path} :
    path ∈ t.entries dir ↔
      ∃ name, path = dir ++ [name] ∧ ∃ node, t.find path = some node := by
  rw [entries, List.mem_map]
  constructor
  · rintro ⟨name, hname, rfl⟩
    exact ⟨name, rfl, mem_readDir.mp hname⟩
  · rintro ⟨name, rfl, hfind⟩
    exact ⟨name, mem_readDir.mpr hfind, rfl⟩

/-- What lies below a directory are its entries and what lies below those. -/
theorem below_perm (t : Volume α) (kind : Path → Bool) (dir : Path) :
    (t.below kind dir).Perm ((t.entries dir).filter kind ++
      ((t.entries dir).filter t.isDir).flatMap (t.below kind)) := by
  have hdisjoint : ((t.entries dir).filter t.isDir).Pairwise
      (Function.onFun List.Disjoint (t.below kind)) := by
    refine ((t.nodup_entries dir).filter _).imp_of_mem ?_
    intro path other hpath hother hne common hcommon hcommon'
    obtain ⟨name, rfl, _⟩ := mem_entries.mp (List.mem_of_mem_filter hpath)
    obtain ⟨name', rfl, _⟩ := mem_entries.mp (List.mem_of_mem_filter hother)
    have hfront := (mem_below.mp hcommon).2.1
    have hfront' := (mem_below.mp hcommon').2.1
    refine hne ((List.prefix_of_prefix_length_le hfront hfront' (by simp)).eq_of_length ?_)
    simp
  apply (List.perm_ext_iff_of_nodup (t.nodup_below kind dir) _).mpr
  · intro path
    rw [List.mem_append, List.mem_filter, List.mem_flatMap, mem_below]
    constructor
    · rintro ⟨⟨node, hfind⟩, ⟨rest, rfl⟩, hne, hkind⟩
      cases rest with
      | nil => exact absurd (List.append_nil dir) hne
      | cons name rest =>
          by_cases hrest : rest = []
          · left
            rw [hrest] at hfind hkind ⊢
            exact ⟨mem_entries.mpr ⟨name, rfl, node, hfind⟩, hkind⟩
          · right
            have hsplit : dir ++ name :: rest = dir ++ [name] ++ rest := by simp
            rw [hsplit] at hfind hkind ⊢
            have hdir := find_above hrest hfind
            refine ⟨dir ++ [name], List.mem_filter.mpr
              ⟨mem_entries.mpr ⟨name, rfl, _, hdir⟩, isDir_iff.mpr hdir⟩,
              mem_below.mpr ⟨⟨node, hfind⟩, List.prefix_append _ _, ?_, hkind⟩⟩
            simpa using hrest
    · rintro (⟨hentry, hkind⟩ | ⟨child, hchild, hbelow⟩)
      · obtain ⟨name, rfl, hfind⟩ := mem_entries.mp hentry
        exact ⟨hfind, List.prefix_append _ _, by simp, hkind⟩
      · obtain ⟨name, rfl, _⟩ := mem_entries.mp (List.mem_of_mem_filter hchild)
        obtain ⟨hfind, hfront, _, hkind⟩ := mem_below.mp hbelow
        refine ⟨hfind, (List.prefix_append _ _).trans hfront, ?_, hkind⟩
        rintro rfl
        have hlength := hfront.length_le
        rw [List.length_append, List.length_singleton] at hlength
        omega
  · rw [List.nodup_append]
    refine ⟨(t.nodup_entries dir).filter _, List.nodup_flatMap.mpr
      ⟨fun child _ => t.nodup_below kind child, hdisjoint⟩, ?_⟩
    intro path hpath other hother
    rintro rfl
    obtain ⟨name, rfl, _⟩ := mem_entries.mp (List.mem_of_mem_filter hpath)
    obtain ⟨child, hchild, hbelow⟩ := List.mem_flatMap.mp hother
    obtain ⟨name', rfl, _⟩ := mem_entries.mp (List.mem_of_mem_filter hchild)
    obtain ⟨_, hfront, hne, _⟩ := mem_below.mp hbelow
    exact hne (hfront.eq_of_length (by simp)).symm

/-- The files that a breadth-first walk over at most `fuel` directories comes by. -/
def breadthFirst (t : Volume α) : Nat → List Path → List Path
  | _, [] => []
  | 0, _ :: _ => []
  | fuel + 1, dir :: queue =>
      (t.entries dir).filter t.isFile ++
        breadthFirst t fuel (queue ++ (t.entries dir).filter t.isDir)

/-- How many directories a walk from `dir` comes by. -/
def weight (t : Volume α) (dir : Path) : Nat := (t.below t.isDir dir).length + 1

theorem weight_eq (t : Volume α) (dir : Path) :
    t.weight dir = (((t.entries dir).filter t.isDir).map t.weight).sum + 1 := by
  have hlength := (t.below_perm t.isDir dir).length_eq
  rw [List.length_append, List.length_flatMap] at hlength
  have hsum : ∀ dirs : List Path, (dirs.map t.weight).sum =
      dirs.length + (dirs.map fun child => (t.below t.isDir child).length).sum := by
    intro dirs
    induction dirs with
    | nil => rfl
    | cons child rest ih =>
        rw [List.map_cons, List.sum_cons, ih, List.map_cons, List.sum_cons, List.length_cons, weight]
        omega
  rw [weight, hlength, hsum]

theorem weight_le (t : Volume α) (dir : Path) : t.weight dir ≤ t.nodes.keys.length + 1 :=
  Nat.succ_le_succ (List.length_filter_le _ _)

/-- With enough fuel the walk comes by all the files below the directories it starts from. -/
theorem breadthFirst_perm (t : Volume α) {fuel : Nat} {queue : List Path}
    (hfuel : (queue.map t.weight).sum ≤ fuel) :
    (t.breadthFirst fuel queue).Perm (queue.flatMap (t.below t.isFile)) := by
  induction fuel generalizing queue with
  | zero =>
      cases queue with
      | nil => rfl
      | cons dir queue =>
          rw [List.map_cons, List.sum_cons, weight] at hfuel
          omega
  | succ fuel ih =>
      cases queue with
      | nil => rfl
      | cons dir queue =>
          have hrest : ((queue ++ (t.entries dir).filter t.isDir).map t.weight).sum ≤ fuel := by
            rw [List.map_cons, List.sum_cons, weight_eq] at hfuel
            rw [List.map_append, List.sum_append]
            omega
          rw [breadthFirst, List.flatMap_cons]
          refine ((ih hrest).append_left _).trans ?_
          rw [List.flatMap_append]
          refine (List.Perm.append_left _ List.perm_append_comm).trans ?_
          rw [← List.append_assoc]
          exact (t.below_perm t.isFile dir).symm.append_right _

end Below

end Volume

end FileTree
