import BlobStorage.Backend.Fs

/-!
# Paths below the root

Where the paths that the filesystem backend makes lead, and what is left of them when the
root is stripped off again.
-/

namespace BlobStorage

open Posix FileTree

namespace FsBlobStore

/-- The pieces of a directory, as `join` adds a name to them. -/
def opened (dir : Path) : Path := if dir.getLast? = some [] then dir.dropLast else dir

theorem join_name (dir : Path) (name : Name) : join dir [name] = opened dir ++ [name] :=
  join_of_relative (isAbsolute_singleton name)

theorem opened_concat {front : Path} {name : Name} (h : LegalName name) :
    opened (front ++ [name]) = front ++ [name] := by
  unfold opened
  rw [if_neg]
  simpa using h.1

/-- The path `dir` leads to the directory `names` below the root, and what lies in it is
reported with its names after `spelled`. -/
structure Spells (store : FsBlobStore) (dir spelled names : Path) : Prop where
  here : store.names dir = names
  below : ∀ first rest, (∀ name ∈ first :: rest, LegalName name) →
    store.names (opened dir ++ first :: rest) = names ++ first :: rest
  strip : ∀ first rest, (∀ name ∈ first :: rest, LegalName name) →
    stripPrefix store.root (opened dir ++ first :: rest) = some (spelled ++ first :: rest)

variable {self : FsBlobStore} {dir spelled names : Path}

theorem Spells.join (h : self.Spells dir spelled names) {name : Name} (hname : LegalName name) :
    self.Spells (join dir [name]) (spelled ++ [name]) (names ++ [name]) := by
  have hopened : opened (Posix.join dir [name]) = opened dir ++ [name] := by
    rw [join_name, opened_concat hname]
  have hlegal : ∀ first rest, (∀ n ∈ first :: rest, LegalName n) →
      ∀ n ∈ name :: first :: rest, LegalName n := fun first rest hrest =>
    List.forall_mem_cons.mpr ⟨hname, hrest⟩
  constructor
  · rw [join_name]
    exact h.below name [] (by simpa using hname)
  · intro first rest hrest
    rw [hopened, List.append_assoc, List.append_assoc]
    exact h.below name (first :: rest) (hlegal first rest hrest)
  · intro first rest hrest
    rw [hopened, List.append_assoc, List.append_assoc]
    exact h.strip name (first :: rest) (hlegal first rest hrest)

theorem names_of_components {path : Path} {names : Path}
    (h : components path = components self.root ++ names.map .normal) :
    self.names path = names := by
  unfold FsBlobStore.names
  rw [h, List.drop_left, List.filterMap_map]
  exact List.filterMap_some

/-- The names of the pieces of a path that has no `..`. -/
def meant (pieces : Path) : Path := pieces.filter fun piece => !skipped piece

theorem filterMap_component?_meant {pieces : Path} (h : ['.', '.'] ∉ pieces) :
    pieces.filterMap component? = (meant pieces).map .normal := by
  induction pieces with
  | nil => rfl
  | cons piece rest ih =>
      rw [List.mem_cons, not_or] at h
      rw [List.filterMap_cons, meant, List.filter_cons, component?]
      by_cases hskipped : skipped piece = true
      · rw [if_pos hskipped, hskipped]
        exact ih h.2
      · rw [if_neg hskipped, if_neg (Ne.symm h.1), Bool.not_eq_true] at *
        rw [hskipped]
        exact congrArg (Component.normal piece :: ·) (ih h.2)

theorem meant_of_legal {pieces : Path} (h : ∀ piece ∈ pieces, LegalName piece) :
    meant pieces = pieces := by
  refine List.filter_eq_self.mpr fun piece hpiece => ?_
  simp [(h piece hpiece).not_skipped]

/-- Pieces below a spelling of the root. -/
theorem spells_of_spellsDir {front pieces : Path} (hfront : SpellsDir self.root front)
    (hhere : self.names dir = meant pieces) (hopened : opened dir = front ++ pieces)
    (hdots : ['.', '.'] ∉ pieces) (hfirst : ∀ piece, pieces.head? = some piece →
      skipped piece = false) : self.Spells dir pieces (meant pieces) := by
  have hsplit : ∀ first rest, LegalName first →
      ∃ head tail, pieces ++ first :: rest = head :: tail ∧ skipped head = false := by
    intro first rest hlegal
    cases pieces with
    | nil => exact ⟨first, rest, rfl, hlegal.not_skipped⟩
    | cons head tail => exact ⟨head, tail ++ first :: rest, rfl, hfirst head rfl⟩
  refine ⟨hhere, ?_, ?_⟩
  · intro first rest hlegal
    obtain ⟨head, tail, heq, hhead⟩ := hsplit first rest (hlegal first (by simp))
    apply names_of_components
    rw [hopened, List.append_assoc, heq, hfront.components head tail hhead, ← heq,
      List.filterMap_append, filterMap_component?_meant hdots,
      filterMap_component?_of_legal hlegal, List.map_append]
  · intro first rest hlegal
    obtain ⟨head, tail, heq, hhead⟩ := hsplit first rest (hlegal first (by simp))
    rw [hopened, List.append_assoc, heq]
    apply hfront.strip head tail hhead
    rw [← heq, List.rdropWhile_eq_self_iff]
    intro hne
    have hrest : first :: rest ≠ [] := List.cons_ne_nil first rest
    rw [List.getLast_append_of_ne_nil hne hrest]
    rw [(hlegal _ (List.getLast_mem hrest)).not_skipped]
    exact Bool.false_ne_true

/-- The root without its trailing separator. -/
theorem spellsDir_root (self : FsBlobStore) : SpellsDir self.root self.root.dropLast := by
  have hroot := List.dropLast_append_getLast? [] self.normalised
  cases hfront : self.root.dropLast with
  | nil =>
      rw [hfront, List.nil_append] at hroot
      rw [← hroot]
      exact spellsDir_empty
  | cons first rest =>
      rw [hfront] at hroot
      exact spellsDir_of_cons hroot.symm rfl

/-- The path of a valid key. -/
theorem keyToPath_of_valid (self : FsBlobStore) {key : Key} (h : ValidKey key) :
    self.keyToPath key = .ok (self.root.dropLast ++ key.splitOn keySeparator) := by
  have hlegal : ∀ name ∈ key.splitOn keySeparator, LegalName name := by
    intro name hname
    obtain ⟨hempty, hdots, hdot⟩ := h.2 name hname
    exact ⟨hempty, hdot, hdots, Splitting.not_mem_of_mem_splitOn hname⟩
  have hfold : ∀ (names : Path) (path : Path), (∀ name ∈ names, LegalName name) →
      path.getLast? ≠ some [] →
      names.foldl (fun path component => Posix.join path (ofText component)) path =
        path ++ names := by
    intro names
    induction names with
    | nil =>
        intro path _ _
        simp
    | cons name rest ih =>
        intro path hnames hpath
        rw [List.forall_mem_cons] at hnames
        have hpiece : ofText name = [name] :=
          List.splitOn_eq_singleton hnames.1.2.2.2
        rw [List.foldl_cons, hpiece, join_name, opened, if_neg hpath, ih _ hnames.2,
          List.append_assoc]
        · rfl
        · simpa using hnames.1.1
  unfold keyToPath
  rw [validateBlobKey_ok h]
  change Except.ok _ = _
  congr 1
  cases hsplit : key.splitOn keySeparator with
  | nil => exact absurd hsplit (List.splitOn_ne_nil keySeparator key)
  | cons name rest =>
      rw [hsplit, List.forall_mem_cons] at hlegal
      have hpiece : ofText name = [name] := List.splitOn_eq_singleton hlegal.1.2.2.2
      rw [List.foldl_cons, hpiece, join_name, opened, if_pos self.normalised,
        hfold rest _ hlegal.2, List.append_assoc]
      · rfl
      · simpa using hlegal.1.1

theorem keyToPath_of_not_valid (self : FsBlobStore) {key : Key} (h : ¬ValidKey key) :
    ∃ e, e.IsInvalidInput ∧ self.keyToPath key = .error e := by
  obtain ⟨hv, _⟩ | ⟨_, e, he, hi⟩ := validateBlobKey_cases key
  · exact absurd hv h
  · refine ⟨e, hi, ?_⟩
    unfold keyToPath
    rw [he]
    rfl

theorem keyToPath_eq_ok_iff {key : Key} {path : Path} :
    self.keyToPath key = .ok path ↔ ValidKey key ∧ path = self.root.dropLast ++ ofText key := by
  constructor
  · intro h
    by_cases hvalid : ValidKey key
    · rw [self.keyToPath_of_valid hvalid] at h
      exact ⟨hvalid, (Except.ok.inj h).symm⟩
    · obtain ⟨e, _, he⟩ := self.keyToPath_of_not_valid hvalid
      rw [he] at h
      cases h
  · rintro ⟨hvalid, rfl⟩
    exact self.keyToPath_of_valid hvalid

section Start

/-- The directory of a hint, as the hint spells it: all of it up to its last separator. -/
def hintDir (hint : Key) : Path :=
  if (ofText hint).getLast? = some [] then (ofText hint).dropLast
  else (ofText hint).dropLast.rdropWhile skipped

theorem validatePrefixHint_eq_ok_iff {hint : Key} :
    validatePrefixHint hint = .ok () ↔
      ¬['/'] <+: hint ∧ '\\' ∉ hint ∧
        ∀ piece ∈ ofText hint, piece ≠ ['.', '.'] ∧ piece ≠ ['.'] := by
  unfold validatePrefixHint
  split_ifs with habsolute hbackslash hdots
  · simp [habsolute]
  · simp [hbackslash]
  · refine iff_of_false (by simp) ?_
    rintro ⟨_, _, h⟩
    obtain hdots | hdot := hdots
    · exact (h _ hdots).1 rfl
    · exact (h _ hdot).2 rfl
  · refine iff_of_true rfl ⟨habsolute, hbackslash, fun piece hpiece => ?_⟩
    rw [not_or] at hdots
    refine ⟨?_, ?_⟩
    · rintro rfl
      exact hdots.1 hpiece
    · rintro rfl
      exact hdots.2 hpiece

/-- A relative text has a piece before its first separator. -/
theorem head_ofText {hint : Key} (h : ¬['/'] <+: hint) {first second : Name} {rest : Path}
    (hpieces : ofText hint = first :: second :: rest) : first ≠ [] := by
  rintro rfl
  have htext := text_ofText hint
  rw [hpieces] at htext
  refine h ⟨text (second :: rest), ?_⟩
  rw [← htext]
  rfl

variable {hint : Key}

theorem isAbsolute_ofText (h : ¬['/'] <+: hint) : isAbsolute (ofText hint) = false := by
  cases hpieces : ofText hint with
  | nil => rfl
  | cons first rest =>
      cases rest with
      | nil => exact isAbsolute_singleton first
      | cons second rest =>
          have hfirst := head_ofText h hpieces
          cases first with
          | nil => exact absurd rfl hfirst
          | cons c cs => rfl

theorem head_hintDir (h : validatePrefixHint hint = .ok ()) {piece : Name}
    (hpiece : (hintDir hint).head? = some piece) : skipped piece = false := by
  obtain ⟨habsolute, _, hdots⟩ := validatePrefixHint_eq_ok_iff.mp h
  have hhead : (ofText hint).dropLast.head? = some piece := by
    unfold hintDir at hpiece
    split at hpiece
    · exact hpiece
    · have hfront := List.rdropWhile_prefix skipped (ofText hint).dropLast
      obtain ⟨back, hback⟩ := hfront
      rw [← hback]
      cases hrest : (ofText hint).dropLast.rdropWhile skipped with
      | nil =>
          rw [hrest] at hpiece
          cases hpiece
      | cons first rest =>
          rw [hrest] at hpiece
          exact hpiece
  cases hpieces : ofText hint with
  | nil => exact absurd hpieces (ofText_ne_nil hint)
  | cons first rest =>
      cases rest with
      | nil =>
          rw [hpieces] at hhead
          cases hhead
      | cons second rest =>
          rw [hpieces] at hhead
          obtain rfl : first = piece := Option.some.inj hhead
          have hfirst := head_ofText habsolute hpieces
          have hdot := (hdots first (by rw [hpieces]; exact List.mem_cons_self)).2
          simp [skipped, hfirst, hdot]

theorem dots_not_mem_hintDir (h : validatePrefixHint hint = .ok ()) :
    ['.', '.'] ∉ hintDir hint := by
  intro hmem
  have hpiece : ['.', '.'] ∈ ofText hint := by
    unfold hintDir at hmem
    split at hmem
    · exact List.dropLast_subset _ hmem
    · exact List.dropLast_subset _ ((List.rdropWhile_prefix skipped _).subset hmem)
  exact ((validatePrefixHint_eq_ok_iff.mp h).2.2 _ hpiece).1 rfl

theorem names_root (self : FsBlobStore) : self.names self.root = [] := by
  apply names_of_components
  simp

/-- A hint that names a directory. -/
theorem spells_directory (self : FsBlobStore) (h : validatePrefixHint hint = .ok ())
    (hlast : (ofText hint).getLast? = some []) :
    self.Spells (self.root.dropLast ++ ofText hint) (hintDir hint) (meant (hintDir hint)) := by
  have hdir : hintDir hint = (ofText hint).dropLast := if_pos hlast
  have hpieces : ofText hint = hintDir hint ++ [[]] := by
    rw [hdir, List.dropLast_append_getLast? [] hlast]
  apply spells_of_spellsDir self.spellsDir_root
  · cases hd : hintDir hint with
    | nil =>
        rw [hpieces, hd, List.nil_append, List.dropLast_append_getLast? [] self.normalised]
        exact self.names_root
    | cons first rest =>
        have hfirst : skipped first = false := head_hintDir h (by rw [hd]; rfl)
        rw [hpieces, hd, ← List.append_assoc]
        apply names_of_components
        rw [components_concat_empty _ (by simp), self.spellsDir_root.components first rest hfirst, ← hd,
          filterMap_component?_meant (dots_not_mem_hintDir h)]
        intro hempty
        have hin : first ∈ self.root.dropLast ++ first :: rest := by simp
        rw [hempty, List.mem_singleton] at hin
        rw [hin] at hfirst
        cases hfirst
  · unfold opened
    rw [hpieces, ← List.append_assoc, if_pos (by simp), List.dropLast_concat]
  · exact dots_not_mem_hintDir h
  · exact fun piece => head_hintDir h

theorem rdropWhile_append_of_not_skipped (front : Path) {first : Name}
    (h : skipped first = false) (rest : Path) :
    (front ++ first :: rest).rdropWhile skipped = front ++ first :: rest.rdropWhile skipped := by
  induction rest using List.reverseRecOn with
  | nil => rw [List.rdropWhile_concat, h]; rfl
  | append_singleton rest last ih =>
      rw [← List.cons_append, ← List.append_assoc, List.rdropWhile_concat, List.rdropWhile_concat]
      by_cases hlast : skipped last = true
      · rw [if_pos hlast, if_pos hlast, ih]
      · rw [if_neg hlast, if_neg hlast, ← List.cons_append, ← List.append_assoc]

theorem getLast?_rdropWhile_skipped (front rest : Path) :
    (front ++ rest.rdropWhile skipped).getLast? ≠ some [] ∨ rest.rdropWhile skipped = [] := by
  by_cases hnil : rest.rdropWhile skipped = []
  · exact .inr hnil
  · left
    have hlast := List.rdropWhile_last_not skipped rest hnil
    rw [List.getLast?_append_of_ne_nil _ hnil, List.getLast?_eq_some_getLast hnil]
    intro heq
    rw [Option.some.inj heq] at hlast
    exact hlast rfl

/-- The parent of a file at the top is the root. -/
theorem spells_top (self : FsBlobStore) {last : Name} (h : skipped last = false) :
    ∃ start, parent (self.root.dropLast ++ [last]) = some start ∧ self.Spells start [] [] := by
  have hroot := List.dropLast_append_getLast? [] self.normalised
  have hspells := self.spellsDir_root
  cases hfront : self.root.dropLast with
  | nil =>
      rw [hfront, List.nil_append] at hroot
      rw [hfront] at hspells
      have hlast : last ≠ [] := by
        rintro rfl
        cases h
      refine ⟨[[]], by rw [List.nil_append, parent, List.rdropWhile_nil, if_pos rfl, if_neg hlast], ?_⟩
      refine @spells_of_spellsDir self _ [] [] hspells ?_ rfl (by simp) (by simp)
      rw [hroot]
      exact self.names_root
  | cons first rest =>
      rw [hfront] at hroot
      have hdir : SpellsDir self.root (first :: rest.rdropWhile skipped) :=
        spellsDir_of_cons hroot.symm (filterMap_component?_rdropWhile rest)
      have hparent := parent_concat first rest h
      refine ⟨_, hparent, ?_⟩
      refine @spells_of_spellsDir self _ _ [] hdir ?_ ?_ (by simp) (by simp)
      · apply names_of_components
        have habove := @components_of_parent (first :: rest) _ last h hparent
        have hbelow := hspells.components last [] h
        rw [hfront, habove, filterMap_component?_singleton] at hbelow
        rw [meant, List.filter_nil, List.map_nil, List.append_nil]
        exact List.append_cancel_right hbelow
      · rw [List.append_nil]
        split_ifs with htop
        · rw [htop]
          rfl
        · unfold opened
          rw [if_neg]
          obtain hlast | hnil := getLast?_rdropWhile_skipped [first] rest
          · exact hlast
          · rw [hnil] at htop ⊢
            simpa using htop

/-- A hint that names the beginning of a file. -/
theorem spells_parent (self : FsBlobStore) (h : validatePrefixHint hint = .ok ())
    (hlast : (ofText hint).getLast? ≠ some []) :
    ∃ start, parent (self.root.dropLast ++ ofText hint) = some start ∧
      self.Spells start (hintDir hint) (meant (hintDir hint)) ∧
      (hintDir hint ≠ [] → endsWithSeparator start = false) := by
  have hdir : hintDir hint = (ofText hint).dropLast.rdropWhile skipped := if_neg hlast
  obtain ⟨front, last, hpieces⟩ : ∃ front last, ofText hint = front ++ [last] :=
    ⟨_, _, (List.dropLast_append_getLast (ofText_ne_nil hint)).symm⟩
  have hskipped : skipped last = false := by
    have hempty : last ≠ [] := by
      rintro rfl
      exact hlast (by simp [hpieces])
    have hdot := ((validatePrefixHint_eq_ok_iff.mp h).2.2 last (by simp [hpieces])).2
    simp [skipped, hempty, hdot]
  rw [hpieces, List.dropLast_concat] at hdir
  rw [hpieces]
  cases front with
  | nil =>
      rw [hdir]
      obtain ⟨start, hparent, hspells⟩ := self.spells_top hskipped
      exact ⟨start, hparent, hspells, fun hne => absurd rfl hne⟩
  | cons first rest =>
      have hfirst : skipped first = false := by
        have habsolute := (validatePrefixHint_eq_ok_iff.mp h).1
        have hempty : first ≠ [] := by
          cases rest with
          | nil => exact head_ofText habsolute hpieces
          | cons second rest => exact head_ofText habsolute hpieces
        have hdot := ((validatePrefixHint_eq_ok_iff.mp h).2.2 first (by simp [hpieces])).2
        simp [skipped, hempty, hdot]
      have hcons : hintDir hint = first :: rest.rdropWhile skipped := by
        rw [hdir]
        exact rdropWhile_append_of_not_skipped [] hfirst rest
      have hstart : (self.root.dropLast ++ hintDir hint).getLast? ≠ some [] := by
        rw [hcons]
        obtain hlast' | hnil := getLast?_rdropWhile_skipped (self.root.dropLast ++ [first]) rest
        · rwa [List.append_assoc] at hlast'
        · rw [hnil, List.getLast?_concat]
          rintro hsome
          rw [Option.some.inj hsome] at hfirst
          cases hfirst
      refine ⟨self.root.dropLast ++ hintDir hint, ?_, ?_, ?_⟩
      · rw [hcons]
        cases hfront : self.root.dropLast with
        | nil =>
            rw [List.nil_append, List.nil_append, List.cons_append, parent_concat first rest hskipped,
              if_neg]
            intro hempty
            rw [(List.cons_eq_cons.mp hempty).1] at hfirst
            cases hfirst
        | cons top others =>
            rw [List.cons_append, ← List.append_assoc,
              parent_concat top (others ++ first :: rest) hskipped,
              rdropWhile_append_of_not_skipped others hfirst rest, if_neg (by simp)]
            rfl
      · refine spells_of_spellsDir self.spellsDir_root ?_ ?_ (dots_not_mem_hintDir h)
          fun piece => head_hintDir h
        · apply names_of_components
          rw [hcons, self.spellsDir_root.components first _ hfirst, ← hcons,
            filterMap_component?_meant (dots_not_mem_hintDir h)]
        · unfold opened
          rw [if_neg hstart]
      · intro _
        unfold endsWithSeparator
        rw [decide_eq_false_iff_not]
        exact fun hends => hstart hends.2

theorem spells_root (self : FsBlobStore) : self.Spells self.root [] [] :=
  @spells_of_spellsDir self _ _ [] self.spellsDir_root self.names_root
    (by unfold opened; rw [if_pos self.normalised, List.append_nil]) (by simp) (by simp)

/-- The directory at which the walk for a hint begins. -/
theorem prefixSubdir_hint (self : FsBlobStore) {filter : ListFilter}
    (hhint : filter.prefixHint = some hint) (h : validatePrefixHint hint = .ok ()) :
    ∃ start, self.prefixSubdir filter = .ok start ∧
      self.Spells start (hintDir hint) (meant (hintDir hint)) ∧
      (hintDir hint ≠ [] → (endsWithSeparator start = true ↔ (ofText hint).getLast? = some [])) := by
  have habsolute := (validatePrefixHint_eq_ok_iff.mp h).1
  have hjoin : Posix.join self.root (ofText hint) = self.root.dropLast ++ ofText hint := by
    rw [join_of_relative (isAbsolute_ofText habsolute), if_pos self.normalised]
  have hlast : (self.root.dropLast ++ ofText hint).getLast? = (ofText hint).getLast? :=
    List.getLast?_append_of_ne_nil _ (ofText_ne_nil hint)
  have hsubdir : self.prefixSubdir filter = .ok
      (if endsWithSeparator (self.root.dropLast ++ ofText hint) then
        self.root.dropLast ++ ofText hint
      else (parent (self.root.dropLast ++ ofText hint)).getD
        (self.root.dropLast ++ ofText hint)) := by
    unfold prefixSubdir
    rw [hhint]
    dsimp only
    rw [h, ← hjoin]
    change (if endsWithSeparator _ then pure _ else _) = _
    split_ifs
    · rfl
    · cases parent (Posix.join self.root (ofText hint)) <;> rfl
  by_cases hdirectory : (ofText hint).getLast? = some []
  · have hspells := self.spells_directory h hdirectory
    have hends : hintDir hint ≠ [] →
        endsWithSeparator (self.root.dropLast ++ ofText hint) = true := by
      intro hne
      unfold endsWithSeparator
      rw [decide_eq_true_iff, hlast]
      refine ⟨?_, hdirectory⟩
      have hlength : (hintDir hint).length = (ofText hint).length - 1 := by
        rw [hintDir, if_pos hdirectory, List.length_dropLast]
      have hpos := List.length_pos_of_ne_nil hne
      rw [List.length_append]
      omega
    refine ⟨_, hsubdir, ?_⟩
    split_ifs with hsep
    · exact ⟨hspells, fun hne => iff_of_true (hends hne) hdirectory⟩
    · have hnil : hintDir hint = [] := by
        by_contra hne
        exact hsep (hends hne)
      have hroot : self.root.dropLast ++ ofText hint = self.root := by
        rw [hintDir, if_pos hdirectory] at hnil
        rw [← List.dropLast_append_getLast? [] hdirectory, hnil]
        exact List.dropLast_append_getLast? [] self.normalised
      have htop : parent (self.root.dropLast ++ ofText hint) = none := by
        have hshort : ¬1 < self.root.length := by
          intro hlong
          rw [hroot, endsWithSeparator, decide_eq_true_iff] at hsep
          exact hsep ⟨hlong, self.normalised⟩
        rw [hroot]
        have hlong := List.dropLast_append_getLast? [] self.normalised
        cases hfront : self.root.dropLast with
        | nil =>
            rw [hfront] at hlong
            rw [← hlong]
            rfl
        | cons first rest =>
            rw [← hlong, hfront] at hshort
            simp at hshort
      rw [htop, Option.getD_none]
      exact ⟨hspells, fun hne => absurd hnil hne⟩
  · obtain ⟨start, hparent, hspells, hends⟩ := self.spells_parent h hdirectory
    have hsep : ¬endsWithSeparator (self.root.dropLast ++ ofText hint) = true := by
      unfold endsWithSeparator
      rw [decide_eq_true_iff, hlast]
      exact fun hboth => hdirectory hboth.2
    refine ⟨_, hsubdir, ?_⟩
    rw [if_neg hsep, hparent, Option.getD_some]
    refine ⟨hspells, fun hne => ?_⟩
    rw [hends hne]
    simp [hdirectory]

end Start

end FsBlobStore

end BlobStorage
