import BlobStorage.Error
import BlobStorage.Library.Split
import Mathlib.Data.List.Infix

/-!
# Blob key validation

`validate.rs`. The five checks of `validate_blob_key` run in the order of the
source; `ValidKey` is the grammar they amount to.
-/

namespace BlobStorage

/-- The loop over the components of the key. -/
def validateComponents (key : Key) : List (List Char) → Except BlobStorageError Unit
  | [] => .ok ()
  | component :: rest =>
      if component = [] then
        .error (.invalidInput
          s!"blob key must not contain empty components: '{String.ofList key}'")
      else if component = ['.', '.'] ∨ component = ['.'] then
        .error (.invalidInput
          s!"blob key must not contain '..' or '.' components: '{String.ofList key}'")
      else
        validateComponents key rest

def validateBlobKey (key : Key) : Except BlobStorageError Unit :=
  if key = [] then
    .error (.invalidInput "blob key must not be empty")
  else if [keySeparator] <+: key then
    .error (.invalidInput s!"blob key must not start with '/': '{String.ofList key}'")
  else if [keySeparator] <:+ key then
    .error (.invalidInput s!"blob key must not end with '/': '{String.ofList key}'")
  else if '\\' ∈ key then
    .error (.invalidInput s!"blob key must not contain backslash: '{String.ofList key}'")
  else
    validateComponents key (key.splitOn keySeparator)

/-- A path component that names an entry of its directory. -/
def NormalComponent (component : List Char) : Prop :=
  component ≠ [] ∧ component ≠ ['.', '.'] ∧ component ≠ ['.']

instance : DecidablePred NormalComponent := fun c => by
  unfold NormalComponent
  infer_instance

/-- The keys that every backend agrees on. -/
def ValidKey (key : Key) : Prop :=
  '\\' ∉ key ∧ ∀ component ∈ key.splitOn keySeparator, NormalComponent component

instance : DecidablePred ValidKey := fun key => by
  unfold ValidKey
  infer_instance

theorem validateComponents_eq_ok_iff {key : Key} {components : List (List Char)} :
    validateComponents key components = .ok () ↔ ∀ c ∈ components, NormalComponent c := by
  induction components with
  | nil => simp [validateComponents]
  | cons component rest ih =>
      unfold validateComponents
      by_cases hempty : component = []
      · simp [hempty, NormalComponent]
      · by_cases hdots : component = ['.', '.'] ∨ component = ['.']
        · rw [if_neg hempty, if_pos hdots]
          rcases hdots with rfl | rfl <;> simp [NormalComponent]
        · rw [if_neg hempty, if_neg hdots, ih, List.forall_mem_cons]
          rw [not_or] at hdots
          exact ⟨fun h => ⟨⟨hempty, hdots⟩, h⟩, fun h => h.2⟩

theorem ValidKey.ne_nil {key : Key} (h : ValidKey key) : key ≠ [] := by
  rintro rfl
  exact (h.2 [] (by simp)).1 rfl

theorem ValidKey.not_sep_prefix {key : Key} (h : ValidKey key) : ¬[keySeparator] <+: key := by
  rintro ⟨rest, rfl⟩
  refine (h.2 [] ?_).1 rfl
  rw [List.singleton_append, ← List.nil_append (keySeparator :: rest),
    Splitting.splitOn_append_sep]
  simp

theorem ValidKey.not_sep_suffix {key : Key} (h : ValidKey key) : ¬[keySeparator] <:+ key := by
  rintro ⟨front, rfl⟩
  refine (h.2 [] ?_).1 rfl
  rw [Splitting.splitOn_append_sep]
  simp

/-- `validate_blob_key` accepts exactly the grammar: the checks on the two ends of
the key only catch empty components early. -/
theorem validateBlobKey_eq_ok_iff {key : Key} : validateBlobKey key = .ok () ↔ ValidKey key := by
  unfold validateBlobKey
  constructor
  · intro h
    by_cases hempty : key = []
    · simp [hempty] at h
    by_cases hstart : [keySeparator] <+: key
    · simp [hempty, hstart] at h
    by_cases hend : [keySeparator] <:+ key
    · simp [hempty, hstart, hend] at h
    by_cases hback : '\\' ∈ key
    · simp [hempty, hstart, hend, hback] at h
    rw [if_neg hempty, if_neg hstart, if_neg hend, if_neg hback] at h
    exact ⟨hback, validateComponents_eq_ok_iff.mp h⟩
  · intro h
    rw [if_neg h.ne_nil, if_neg h.not_sep_prefix, if_neg h.not_sep_suffix, if_neg h.1]
    exact validateComponents_eq_ok_iff.mpr h.2

theorem validateComponents_error {key : Key} {components : List (List Char)}
    {e : BlobStorageError} (h : validateComponents key components = .error e) :
    e.IsInvalidInput := by
  induction components with
  | nil => simp [validateComponents] at h
  | cons component rest ih =>
      unfold validateComponents at h
      split at h
      · cases h
        trivial
      · split at h
        · cases h
          trivial
        · exact ih h

/-- A rejected key is always reported as `InvalidInput`. -/
theorem validateBlobKey_error {key : Key} {e : BlobStorageError}
    (h : validateBlobKey key = .error e) : e.IsInvalidInput := by
  unfold validateBlobKey at h
  split_ifs at h
  · cases h
    trivial
  · cases h
    trivial
  · cases h
    trivial
  · cases h
    trivial
  · exact validateComponents_error h

theorem validateBlobKey_cases (key : Key) :
    (ValidKey key ∧ validateBlobKey key = .ok ()) ∨
      ¬ValidKey key ∧ ∃ e, validateBlobKey key = .error e ∧ e.IsInvalidInput := by
  cases h : validateBlobKey key with
  | ok _ => exact .inl ⟨validateBlobKey_eq_ok_iff.mp h, rfl⟩
  | error e =>
      refine .inr ⟨?_, e, rfl, validateBlobKey_error h⟩
      intro hv
      rw [validateBlobKey_eq_ok_iff.mpr hv] at h
      cases h

theorem validateBlobKey_ok {key : Key} (h : ValidKey key) : validateBlobKey key = .ok () :=
  validateBlobKey_eq_ok_iff.mpr h

/-- A component stays normal when something is glued to it. -/
theorem NormalComponent.append {component : List Char} (h : NormalComponent component)
    (rest : List Char) : NormalComponent (component ++ rest) := by
  obtain ⟨hempty, hdots, hdot⟩ := h
  refine ⟨?_, ?_, ?_⟩
  · intro heq
    exact hempty (List.append_eq_nil_iff.mp heq).1
  · intro heq
    match component, heq with
    | [c], heq =>
        obtain rfl : c = '.' := (List.cons.inj heq).1
        exact hdot rfl
    | [c, d], heq =>
        obtain ⟨rfl, htail⟩ := List.cons.inj heq
        obtain ⟨rfl, _⟩ := List.cons.inj htail
        exact hdots rfl
    | _ :: _ :: _ :: _, heq => simp at heq
  · intro heq
    match component, heq with
    | [c], heq =>
        obtain rfl : c = '.' := (List.cons.inj heq).1
        exact hdot rfl
    | _ :: _ :: _, heq => simp at heq

/-- So it does when something is glued to its front. -/
theorem NormalComponent.prepend {component : List Char} (h : NormalComponent component)
    (front : List Char) : NormalComponent (front ++ component) := by
  have hlast : ∀ {dots : List Char}, front ++ component = dots → component <:+ dots := by
    rintro dots rfl
    exact List.suffix_append front component
  obtain ⟨hempty, hdots, hdot⟩ := h
  refine ⟨?_, ?_, ?_⟩
  · intro heq
    exact hempty (List.append_eq_nil_iff.mp heq).2
  · intro heq
    have hmem : component ∈ [['.', '.'], ['.'], []] := (List.mem_tails _ _).mpr (hlast heq)
    simp [hempty, hdots, hdot] at hmem
  · intro heq
    have hmem : component ∈ [['.'], []] := (List.mem_tails _ _).mpr (hlast heq)
    simp [hempty, hdot] at hmem

/-- Whether a prefix keeps keys valid does not depend on the key. -/
theorem ValidKey.prepend_iff {start key : Key} (h : ValidKey key) :
    ValidKey (start ++ key) ↔ '\\' ∉ start ∧
      ∀ component ∈ (start.splitOn keySeparator).dropLast, NormalComponent component := by
  obtain ⟨front, last, first, back, hstart, hkey, hwhole⟩ :=
    Splitting.splitOn_append keySeparator start key
  have hfirst : NormalComponent first := h.2 first (by rw [hkey]; exact List.mem_cons_self)
  have hback : ∀ component ∈ back, NormalComponent component := fun component hmem =>
    h.2 component (by rw [hkey]; exact List.mem_cons_of_mem _ hmem)
  rw [ValidKey, hwhole, hstart, List.dropLast_concat, List.mem_append, not_or]
  constructor
  · rintro ⟨hbackslash, hall⟩
    exact ⟨hbackslash.1, fun component hmem => hall component (List.mem_append_left _ hmem)⟩
  · rintro ⟨hbackslash, hall⟩
    refine ⟨⟨hbackslash, h.1⟩, fun component hmem => ?_⟩
    obtain hmem | hmem := List.mem_append.mp hmem
    · exact hall component hmem
    · obtain rfl | hmem := List.mem_cons.mp hmem
      · exact hfirst.prepend last
      · exact hback component hmem

/-- Whether a suffix keeps keys valid does not depend on the key. -/
theorem ValidKey.append_of_append {key other suffix : Key} (hkey : ValidKey key)
    (h : ValidKey (other ++ suffix)) : ValidKey (key ++ suffix) := by
  obtain ⟨front, last, first, back, hkeySplit, hsuffix, happend⟩ :=
    Splitting.splitOn_append keySeparator key suffix
  obtain ⟨front', last', first', back', _, hsuffix', happend'⟩ :=
    Splitting.splitOn_append keySeparator other suffix
  obtain ⟨rfl, rfl⟩ := List.cons.inj (hsuffix.symm.trans hsuffix')
  have hback : '\\' ∉ suffix := fun hmem => h.1 (List.mem_append_right _ hmem)
  refine ⟨?_, ?_⟩
  · rw [List.mem_append, not_or]
    exact ⟨hkey.1, hback⟩
  · rw [happend]
    intro component hmem
    obtain hfront | hrest := List.mem_append.mp hmem
    · apply hkey.2
      rw [hkeySplit]
      exact List.mem_append_left _ hfront
    · obtain rfl | hrest := List.mem_cons.mp hrest
      · apply NormalComponent.append
        apply hkey.2
        rw [hkeySplit]
        exact List.mem_append_right _ (List.mem_singleton_self _)
      · apply h.2
        rw [happend']
        exact List.mem_append_right _ (List.mem_cons_of_mem _ hrest)

/-- A suffix without separators keeps a key valid. -/
theorem ValidKey.append {key suffix : Key} (h : ValidKey key) (hback : '\\' ∉ suffix)
    (hsep : keySeparator ∉ suffix) : ValidKey (key ++ suffix) := by
  obtain ⟨front, last, first, back, hkey, hsuffix, happend⟩ :=
    Splitting.splitOn_append keySeparator key suffix
  have hwhole : suffix.splitOn keySeparator = [suffix] := List.splitOn_eq_singleton hsep
  rw [hwhole] at hsuffix
  obtain ⟨rfl, rfl⟩ := List.cons.inj hsuffix
  refine ⟨by simp [hback, h.1], ?_⟩
  rw [happend]
  intro component hmem
  obtain hfront | hlast := List.mem_append.mp hmem
  · exact h.2 component (by rw [hkey]; exact List.mem_append_left _ hfront)
  · obtain rfl := List.mem_singleton.mp hlast
    apply NormalComponent.append
    apply h.2
    rw [hkey]
    exact List.mem_append_right _ (List.mem_singleton_self _)

/-- Any components that the grammar admits can be joined to a key. -/
theorem validKey_intercalate {components : List (List Char)} (hne : components ≠ [])
    (h : ∀ component ∈ components, NormalComponent component ∧ keySeparator ∉ component ∧
      '\\' ∉ component) : ValidKey ([keySeparator].intercalate components) := by
  have hback : ([keySeparator].intercalate components).splitOn keySeparator = components :=
    List.splitOn_intercalate keySeparator (fun component hmem => (h component hmem).2.1) hne
  refine ⟨fun hbackslash => ?_, fun component hmem => ?_⟩
  · obtain ⟨component, hmem, hin⟩ := (Splitting.mem_intercalate_iff (by decide)).mp hbackslash
    exact (h component hmem).2.2 hin
  · rw [hback] at hmem
    exact (h component hmem).1

/-- The components of a valid key. -/
theorem ValidKey.components {key : Key} (h : ValidKey key) :
    key.splitOn keySeparator ≠ [] ∧ (∀ component ∈ key.splitOn keySeparator,
      NormalComponent component ∧ keySeparator ∉ component ∧ '\\' ∉ component) ∧
      [keySeparator].intercalate (key.splitOn keySeparator) = key := by
  have hjoin : [keySeparator].intercalate (key.splitOn keySeparator) = key :=
    List.intercalate_splitOn keySeparator
  refine ⟨List.splitOn_ne_nil keySeparator key, fun component hmem => ⟨h.2 component hmem,
    Splitting.not_mem_of_mem_splitOn hmem, fun hbackslash => h.1 ?_⟩, hjoin⟩
  rw [← hjoin]
  exact (Splitting.mem_intercalate_iff (by decide)).mpr ⟨component, hmem, hbackslash⟩

example : ValidKey "a/b/c.txt".toList ∧ ¬ValidKey "a/../x".toList ∧ ¬ValidKey "foo/".toList := by
  decide

end BlobStorage
