import BlobStorage.Library.Split
import Mathlib.Data.List.DropRight

/-!
# Paths

POSIX paths with the operations of `std::path`. A path is the list of its pieces between
separators, so the path `/data/` is `["", "data", ""]` and the empty path is `[""]`; the
components are the pieces that mean something.
-/

namespace Posix

abbrev Name := List Char

abbrev Path := List Name

def separator : Char := '/'

def ofText (text : List Char) : Path := text.splitOn separator

def text (path : Path) : List Char := [separator].intercalate path

inductive Component where
  | rootDir
  | curDir
  | parentDir
  | normal (name : Name)
  deriving DecidableEq, Repr

/-- A piece that means nothing: an empty one, or a `.` that does not begin the path. -/
def skipped (piece : Name) : Bool := piece = [] ∨ piece = ['.']

def component? (piece : Name) : Option Component :=
  if skipped piece then none
  else if piece = ['.', '.'] then some .parentDir
  else some (.normal piece)

def isAbsolute : Path → Bool
  | [] :: _ :: _ => true
  | _ => false

/-- What the first piece of a path stands for. -/
def leading (first : Name) (rest : Path) : List Component :=
  if first = [] then if rest = [] then [] else [.rootDir]
  else if first = ['.'] then [.curDir]
  else (component? first).toList

def components : Path → List Component
  | [] => []
  | first :: rest => leading first rest ++ rest.filterMap component?

/-- The text of the path ends with a separator. -/
def endsWithSeparator (path : Path) : Bool := 1 < path.length ∧ path.getLast? = some []

/-- `Path::join`, and `PathBuf::push`. -/
def join (path other : Path) : Path :=
  if isAbsolute other then other
  else if path.getLast? = some [] then path.dropLast ++ other
  else path ++ other

/-- `Path::parent`. -/
def parent : Path → Option Path
  | [] => none
  | first :: rest =>
      if rest.rdropWhile skipped = [] then
        if first = [] then none else some [[]]
      else
        match first :: (rest.rdropWhile skipped).dropLast.rdropWhile skipped with
        | [[]] => some [[], []]
        | front => some front

/-- What is left of the pieces after the first `n` components. -/
def dropComponents : Nat → Path → Path
  | 0, pieces => pieces.dropWhile skipped
  | _ + 1, [] => []
  | n + 1, piece :: rest =>
      if skipped piece then dropComponents (n + 1) rest else dropComponents n rest

/-- `Path::strip_prefix`. -/
def stripPrefix (base path : Path) : Option Path :=
  if components base <+: components path then
    match (components base).length with
    | 0 => some path
    | n + 1 => some ((dropComponents n path.tail).rdropWhile skipped)
  else none

/-- The first path is a directory on the way to the second one. -/
def ProperAncestor (path other : Path) : Prop :=
  ∃ rest, rest ≠ [] ∧ components other = components path ++ rest

/-- A piece that stands for itself in every path. -/
def LegalName (name : Name) : Prop :=
  name ≠ [] ∧ name ≠ ['.'] ∧ name ≠ ['.', '.'] ∧ separator ∉ name

instance : DecidablePred LegalName := fun name => by
  unfold LegalName
  infer_instance

theorem LegalName.not_skipped {name : Name} (h : LegalName name) : skipped name = false := by
  simp [skipped, h.1, h.2.1]

@[simp] theorem component?_of_legal {name : Name} (h : LegalName name) :
    component? name = some (.normal name) := by
  simp [component?, h.not_skipped, h.2.2.1]

@[simp] theorem text_ofText (s : List Char) : text (ofText s) = s :=
  List.intercalate_splitOn separator

theorem ofText_ne_nil (s : List Char) : ofText s ≠ [] := List.splitOn_ne_nil separator s

theorem ofText_text {path : Path} (hne : path ≠ []) (h : ∀ piece ∈ path, separator ∉ piece) :
    ofText (text path) = path := List.splitOn_intercalate separator h hne

theorem not_mem_of_mem_ofText {s : List Char} {piece : Name} (h : piece ∈ ofText s) :
    separator ∉ piece := Splitting.not_mem_of_mem_splitOn h

/-- Legal names are all that a relative path of them consists of. -/
theorem filterMap_component?_of_legal {names : Path} (h : ∀ name ∈ names, LegalName name) :
    names.filterMap component? = names.map .normal := by
  induction names with
  | nil => rfl
  | cons name rest ih =>
      rw [List.forall_mem_cons] at h
      rw [List.filterMap_cons, component?_of_legal h.1, ih h.2]
      rfl

/-- A path below another one: the components of the first, then those of the rest. -/
theorem components_append {path other : Path} (hpath : path ≠ []) (hroot : path ≠ [[]]) :
    components (path ++ other) = components path ++ other.filterMap component? := by
  cases path with
  | nil => exact absurd rfl hpath
  | cons first rest =>
      rw [List.cons_append, components, components, List.filterMap_append, ← List.append_assoc]
      have hleading : leading first (rest ++ other) = leading first rest := by
        unfold leading
        by_cases hfirst : first = []
        · have hrest : rest ≠ [] := by
            rintro rfl
            exact hroot (by rw [hfirst])
          rw [if_pos hfirst, if_pos hfirst, if_neg hrest, if_neg]
          exact fun h => hrest (List.append_eq_nil_iff.mp h).1
        · rw [if_neg hfirst, if_neg hfirst]
      rw [hleading]

theorem components_concat_empty (path : Path) (hpath : path ≠ []) (hroot : path ≠ [[]]) :
    components (path ++ [[]]) = components path := by
  rw [components_append hpath hroot]
  simp [component?, skipped]

theorem join_of_relative {path other : Path} (h : isAbsolute other = false) :
    join path other =
      (if path.getLast? = some [] then path.dropLast else path) ++ other := by
  unfold join
  rw [h, if_neg Bool.false_ne_true]
  split <;> rfl

theorem isAbsolute_singleton (name : Name) : isAbsolute [name] = false := by
  cases name <;> rfl

theorem components_concat {path : Path} {name : Name} (h : LegalName name) (hpath : path ≠ [])
    (hroot : path ≠ [[]]) : components (path ++ [name]) = components path ++ [.normal name] := by
  rw [components_append hpath hroot, filterMap_component?_of_legal (by simpa using h)]
  rfl

/-- An entry of a directory. -/
theorem components_join_name {dir : Path} {name : Name} (h : LegalName name) :
    components (join dir [name]) = components dir ++ [.normal name] := by
  have htop : components [name] = [.normal name] := by
    rw [components, leading, if_neg h.1, if_neg h.2.1, component?_of_legal h]
    rfl
  rw [join_of_relative (isAbsolute_singleton name)]
  split_ifs with hlast
  · have hdir := List.dropLast_append_getLast? [] hlast
    cases hfront : dir.dropLast with
    | nil =>
        rw [hfront] at hdir
        rw [← hdir]
        exact htop
    | cons first rest =>
        rw [hfront] at hdir
        rw [← hdir]
        by_cases hroot : first :: rest = [[]]
        · rw [hroot, List.singleton_append, components,
            filterMap_component?_of_legal (by simpa using h)]
          rfl
        · rw [components_concat_empty _ (List.cons_ne_nil first rest) hroot,
            components_concat h (List.cons_ne_nil first rest) hroot]
  · cases dir with
    | nil => exact htop
    | cons first rest =>
        apply components_concat h (List.cons_ne_nil first rest)
        intro hempty
        rw [hempty] at hlast
        exact hlast rfl

theorem filterMap_component?_singleton (piece : Name) :
    [piece].filterMap component? = (component? piece).toList := by
  cases hcomponent : component? piece with
  | none => rw [List.filterMap_cons_none hcomponent]; rfl
  | some component => rw [List.filterMap_cons_some hcomponent]; rfl

theorem filterMap_component?_rdropWhile (pieces : Path) :
    (pieces.rdropWhile skipped).filterMap component? = pieces.filterMap component? := by
  induction pieces using List.reverseRecOn with
  | nil => rfl
  | append_singleton front piece ih =>
      rw [List.rdropWhile_concat, List.filterMap_append]
      split
      · next h => simp [ih, component?, h]
      · rw [List.filterMap_append]

@[simp] theorem dropComponents_zero (pieces : Path) :
    dropComponents 0 pieces = pieces.dropWhile skipped := by
  cases pieces <;> rfl

/-- Dropping all the components of the first pieces. -/
theorem dropComponents_append (front pieces : Path) :
    dropComponents (front.filterMap component?).length (front ++ pieces) =
      pieces.dropWhile skipped := by
  induction front with
  | nil => exact dropComponents_zero pieces
  | cons piece rest ih =>
      rw [List.cons_append]
      by_cases h : skipped piece = true
      · rw [List.filterMap_cons_none (by simp [component?, h])]
        cases hcount : (rest.filterMap component?).length with
        | zero =>
            rw [hcount, dropComponents_zero] at ih
            rw [dropComponents_zero, List.dropWhile_cons_of_pos h]
            exact ih
        | succ n =>
            rw [hcount] at ih
            rw [dropComponents, if_pos h]
            exact ih
      · obtain ⟨component, hcomponent⟩ : ∃ component, component? piece = some component := by
          unfold component?
          rw [if_neg h]
          split
          · exact ⟨_, rfl⟩
          · exact ⟨_, rfl⟩
        rw [List.filterMap_cons_some hcomponent, List.length_cons, dropComponents, if_neg h]
        exact ih

theorem length_leading {first : Name} {rest : Path} (h : first = [] → rest ≠ []) :
    (leading first rest).length = 1 := by
  unfold leading
  by_cases hfirst : first = []
  · rw [if_pos hfirst, if_neg (h hfirst)]
    rfl
  · rw [if_neg hfirst]
    split
    · rfl
    · next hdot =>
        unfold component?
        rw [if_neg (by simp [skipped, hfirst, hdot])]
        split <;> rfl

theorem leading_congr {first : Name} {rest other : Path} (h : rest ≠ []) (h' : other ≠ []) :
    leading first rest = leading first other := by
  unfold leading
  rw [if_neg h, if_neg h']

theorem parent_concat (first : Name) (rest : Path) {last : Name} (h : skipped last = false) :
    parent (first :: (rest ++ [last])) =
      some (if first :: rest.rdropWhile skipped = [[]] then [[], []]
        else first :: rest.rdropWhile skipped) := by
  have hdrop : (rest ++ [last]).rdropWhile skipped = rest ++ [last] := by
    rw [List.rdropWhile_concat, h]
    rfl
  rw [parent, hdrop, if_neg (by simp), List.dropLast_concat]
  split_ifs with hroot
  · rw [hroot]
  · split
    · next hfront => exact absurd hfront hroot
    · rfl

/-- The components of the parent, and the last one after them. -/
theorem components_of_parent {front dir : Path} {last : Name} (h : skipped last = false)
    (hparent : parent (front ++ [last]) = some dir) :
    components (front ++ [last]) = components dir ++ (component? last).toList := by
  cases front with
  | nil =>
      have hempty : last ≠ [] := by
        rintro rfl
        cases h
      have hdot : last ≠ ['.'] := by
        rintro rfl
        cases h
      rw [List.nil_append, parent, List.rdropWhile_nil, if_pos rfl, if_neg hempty] at hparent
      cases hparent
      rw [List.nil_append, components, leading, if_neg hempty, if_neg hdot]
      exact List.append_nil _
  | cons first rest =>
      rw [List.cons_append, parent_concat first rest h] at hparent
      cases hparent
      rw [List.cons_append, components, List.filterMap_append, ← List.append_assoc,
        @leading_congr first (rest ++ [last]) [[]] (by simp) (by simp)]
      rw [filterMap_component?_singleton, ← filterMap_component?_rdropWhile rest]
      split_ifs with htop
      · rw [(List.cons_eq_cons.mp htop).1, (List.cons_eq_cons.mp htop).2]
        rfl
      · rw [components]
        by_cases hfirst : first = []
        · rw [@leading_congr first (rest.rdropWhile skipped) [[]]
            (fun hnil => htop (by rw [hfirst, hnil])) (by simp)]
        · rw [leading, if_neg hfirst, leading, if_neg hfirst]

/-- Pieces can be added to `front` as to the directory `base`: `strip_prefix` gives them back,
however `front` spells the directory. -/
structure SpellsDir (base front : Path) : Prop where
  components : ∀ first rest, skipped first = false →
    components (front ++ first :: rest) = components base ++ (first :: rest).filterMap component?
  strip : ∀ first rest, skipped first = false →
    (first :: rest).rdropWhile skipped = first :: rest →
    stripPrefix base (front ++ first :: rest) = some (first :: rest)

theorem spellsDir_of_cons {base : Path} {first : Name} {rest rest' : Path}
    (hbase : base = first :: rest ++ [[]])
    (hrest : rest'.filterMap component? = rest.filterMap component?) :
    SpellsDir base (first :: rest') := by
  have hcomponents : components base = leading first [[]] ++ rest.filterMap component? := by
    rw [hbase, List.cons_append, components, List.filterMap_append,
      @leading_congr first (rest ++ [[]]) [[]] (by simp) (by simp)]
    simp [component?, skipped]
  have hlength : (components base).length = (rest.filterMap component?).length + 1 := by
    rw [hcomponents, List.length_append, length_leading (by simp)]
    omega
  have happend : ∀ piece pieces, components (first :: rest' ++ piece :: pieces) =
      components base ++ (piece :: pieces).filterMap component? := by
    intro piece pieces
    rw [List.cons_append, components, List.filterMap_append, hrest, hcomponents,
      @leading_congr first (rest' ++ piece :: pieces) [[]] (by simp) (by simp), List.append_assoc]
  constructor
  · intro piece pieces _
    exact happend piece pieces
  · intro piece pieces hpiece hlast
    rw [stripPrefix, if_pos (by rw [happend]; exact List.prefix_append _ _), hlength]
    dsimp only
    rw [List.cons_append, List.tail_cons, ← hrest, dropComponents_append,
      List.dropWhile_cons_of_neg (by simp [hpiece]), hlast]

/-- The empty path is the directory that relative paths start from. -/
theorem spellsDir_empty : SpellsDir [[]] [] := by
  have hcomponents : ∀ piece pieces, skipped piece = false →
      components (piece :: pieces) = (piece :: pieces).filterMap component? := by
    intro piece pieces hpiece
    have hne : piece ≠ [] := by
      rintro rfl
      cases hpiece
    have hdot : piece ≠ ['.'] := by
      rintro rfl
      cases hpiece
    rw [components, leading, if_neg hne, if_neg hdot]
    cases hcomponent : component? piece with
    | none => rw [List.filterMap_cons_none hcomponent]; rfl
    | some component => rw [List.filterMap_cons_some hcomponent]; rfl
  constructor
  · exact hcomponents
  · intro piece pieces _ _
    rw [stripPrefix, if_pos (show components [[]] <+: _ from List.nil_prefix)]
    rfl

/-! ### Names of files -/

/-- The character that ends a path in a system call. -/
def nul : Char := '\x00'

/-- The length of a name in UTF-8. -/
def byteLength : Name → Nat
  | [] => 0
  | c :: rest => c.utf8Size + byteLength rest

/-- `NAME_MAX`: no name of a file has more bytes. -/
def nameMax : Nat := 255

/-- No directory can have an entry of the name, or be asked for it. -/
def TooLong (name : Name) : Prop := nameMax < byteLength name

instance : DecidablePred TooLong :=
  fun name => inferInstanceAs (Decidable (nameMax < byteLength name))

/-- The path cannot be given to the system. -/
def HasNul (path : Path) : Prop := ∃ name ∈ path, nul ∈ name

instance : DecidablePred HasNul :=
  fun path => inferInstanceAs (Decidable (∃ name ∈ path, nul ∈ name))

/-- A name that a directory can hold. -/
structure FileName (name : Name) : Prop where
  legal : LegalName name
  noNul : nul ∉ name
  short : ¬TooLong name

theorem fileName_iff {name : Name} :
    FileName name ↔ LegalName name ∧ nul ∉ name ∧ ¬TooLong name :=
  ⟨fun h => ⟨h.legal, h.noNul, h.short⟩, fun h => ⟨h.1, h.2.1, h.2.2⟩⟩

instance : DecidablePred FileName := fun _ => decidable_of_iff _ fileName_iff.symm

theorem not_hasNul_of_fileName {path : Path} (h : ∀ name ∈ path, FileName name) : ¬HasNul path :=
  fun ⟨name, hname, hnul⟩ => (h name hname).noNul hnul

theorem HasNul.mono {path other : Path} (hsubset : path ⊆ other) (h : HasNul path) : HasNul other := by
  obtain ⟨name, hname, hnul⟩ := h
  exact ⟨name, hsubset hname, hnul⟩

theorem fileNames_of_legal {path : Path} (h : ∀ name ∈ path, LegalName name)
    (hnul : ¬HasNul path) (hshort : ∀ name ∈ path, ¬TooLong name) : ∀ name ∈ path, FileName name :=
  fun name hname => ⟨h name hname, fun hmem => hnul ⟨name, hname, hmem⟩, hshort name hname⟩

/-- The names in front of the first that is too long; none if the path cannot be given at all. -/
def nameableFront (path : Path) : Path :=
  if HasNul path then [] else path.takeWhile fun name => ¬TooLong name

theorem nameableFront_isPrefix (path : Path) : nameableFront path <+: path := by
  unfold nameableFront
  split
  · exact List.nil_prefix
  · exact List.takeWhile_prefix _

theorem nameableFront_of_fileName {path : Path} (h : ∀ name ∈ path, FileName name) :
    nameableFront path = path := by
  unfold nameableFront
  rw [if_neg (not_hasNul_of_fileName h), List.takeWhile_eq_self_iff]
  intro name hname
  exact decide_eq_true (h name hname).short

theorem nameableFront_of_tooLong {front rest : Path} {name : Name}
    (hnul : ¬HasNul (front ++ name :: rest)) (hfront : ∀ other ∈ front, ¬TooLong other)
    (hlong : TooLong name) : nameableFront (front ++ name :: rest) = front := by
  unfold nameableFront
  rw [if_neg hnul, List.takeWhile_append_of_pos fun other hother =>
    decide_eq_true (hfront other hother), List.takeWhile_cons_of_neg (by simpa using hlong),
    List.append_nil]

/-- Behind a name that is too long nothing counts. -/
theorem nameableFront_append {front rest : Path} (hnul : ¬HasNul (front ++ rest))
    (hlong : ∃ name ∈ front, TooLong name) :
    nameableFront (front ++ rest) = nameableFront front := by
  unfold nameableFront
  rw [if_neg hnul, if_neg fun h => hnul (h.mono (List.subset_append_left front rest)),
    List.takeWhile_append, if_neg]
  intro hlength
  obtain ⟨name, hname, hlong⟩ := hlong
  have hall := (List.takeWhile_prefix (fun name => decide ¬TooLong name)).eq_of_length hlength
  have hshort := List.takeWhile_eq_self_iff.mp hall name hname
  exact of_decide_eq_true hshort hlong

end Posix
