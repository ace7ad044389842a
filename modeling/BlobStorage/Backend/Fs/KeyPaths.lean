import BlobStorage.Backend.Fs.Presence

/-!
# Keys and their paths

The path of a key is the root with the pieces of the key behind it. Nothing that paths leave out
of account can be in a valid key, so the path gives the key back, and one key's path is a
directory on the way to another's as the keys say.
-/

namespace BlobStorage

open Posix

namespace FsBlobStore

variable {key other : Key}

theorem components_new (root : Path) :
    components (FsBlobStore.new root).root = components root := by
  change components (join root [[]]) = components root
  rw [join_of_relative (isAbsolute_singleton [])]
  split_ifs with hlast
  · rw [List.dropLast_append_getLast? [] hlast]
  · cases root with
    | nil => rfl
    | cons first rest =>
        apply components_concat_empty _ (List.cons_ne_nil first rest)
        intro hempty
        rw [hempty] at hlast
        exact hlast rfl

theorem strip_keyPath (self : FsBlobStore) (h : ValidKey key) :
    stripPrefix self.root (self.root.dropLast ++ ofText key) = some (ofText key) := by
  have hlegal := legal_of_valid h
  have hlast : (ofText key).rdropWhile skipped = ofText key := by
    rw [List.rdropWhile_eq_self_iff]
    intro hne
    rw [(hlegal _ (List.getLast_mem hne)).not_skipped]
    exact Bool.false_ne_true
  cases hpieces : ofText key with
  | nil => exact absurd hpieces (ofText_ne_nil key)
  | cons first rest =>
      rw [hpieces] at hlegal hlast
      exact self.spellsDir_root.strip first rest (hlegal first List.mem_cons_self).not_skipped hlast

theorem components_keyPath_eq_iff (self : FsBlobStore) (h : ValidKey key) (h' : ValidKey other) :
    components (self.root.dropLast ++ ofText key) =
      components (self.root.dropLast ++ ofText other) ↔ key = other := by
  constructor
  · intro heq
    rw [self.components_keyPath h, self.components_keyPath h'] at heq
    have hnames : ofText key = ofText other :=
      List.map_injective_iff.mpr (fun _ _ => Component.normal.inj) (List.append_cancel_left heq)
    rw [← text_ofText key, hnames, text_ofText]
  · rintro rfl
    rfl

theorem properAncestor_keyPath_iff (self : FsBlobStore) (h : ValidKey key)
    (h' : ValidKey other) :
    ProperAncestor (self.root.dropLast ++ ofText key) (self.root.dropLast ++ ofText other) ↔
      key ++ [keySeparator] <+: other := by
  rw [Splitting.append_sep_prefix_iff]
  unfold ProperAncestor
  rw [self.components_keyPath h, self.components_keyPath h']
  constructor
  · rintro ⟨rest, hne, hrest⟩
    rw [List.append_assoc] at hrest
    obtain ⟨front, back, hpieces, hfront, hback⟩ :=
      List.map_eq_append_iff.mp (List.append_cancel_left hrest)
    have hnames : front = ofText key :=
      List.map_injective_iff.mpr (fun _ _ => Component.normal.inj) hfront
    refine ⟨back, ?_, ?_⟩
    · rintro rfl
      exact hne hback.symm
    · rw [hnames] at hpieces
      exact hpieces
  · rintro ⟨rest, hne, hpieces⟩
    refine ⟨rest.map .normal, by simpa using hne, ?_⟩
    have hnames : ofText other = ofText key ++ rest := hpieces
    rw [hnames, List.map_append, List.append_assoc]

end FsBlobStore

/-- Stripped of the root, the path of a key spells the key, and so different keys have different
paths, as `Path` compares them; every path of names below the root is the path of a key; and the
path of one key is a directory on the way to the path of another when the key with a separator
behind it begins the other. -/
theorem FsBlobStore.keys_are_paths (root : Path) :
    (∀ key, validateBlobKey key = .ok () → ∃ path relative,
      (FsBlobStore.new root).keyToPath key = .ok path ∧
        stripPrefix (FsBlobStore.new root).root path = some relative ∧ text relative = key) ∧
    (∀ key other path path', (FsBlobStore.new root).keyToPath key = .ok path →
      (FsBlobStore.new root).keyToPath other = .ok path' → components path = components path' →
        key = other) ∧
    (∀ key other path path', (FsBlobStore.new root).keyToPath key = .ok path →
      (FsBlobStore.new root).keyToPath other = .ok path' →
        (ProperAncestor path path' ↔ key ++ [keySeparator] <+: other)) ∧
    ∀ names : Path, names ≠ [] → (∀ name ∈ names, LegalName name ∧ '\\' ∉ name) →
      ∃ path, (FsBlobStore.new root).keyToPath (text names) = .ok path ∧
        components path = components root ++ names.map .normal := by
  refine ⟨?_, ?_, ?_, ?_⟩
  · intro key hkey
    have hvalid := validateBlobKey_eq_ok_iff.mp hkey
    exact ⟨_, _, keyToPath_eq_ok_iff.mpr ⟨hvalid, rfl⟩, strip_keyPath _ hvalid, text_ofText key⟩
  · intro key other path path' hkey hother hsame
    obtain ⟨hvalid, rfl⟩ := keyToPath_eq_ok_iff.mp hkey
    obtain ⟨hvalid', rfl⟩ := keyToPath_eq_ok_iff.mp hother
    exact (components_keyPath_eq_iff _ hvalid hvalid').mp hsame
  · intro key other path path' hkey hother
    obtain ⟨hvalid, rfl⟩ := keyToPath_eq_ok_iff.mp hkey
    obtain ⟨hvalid', rfl⟩ := keyToPath_eq_ok_iff.mp hother
    exact properAncestor_keyPath_iff _ hvalid hvalid'
  · intro names hne hnames
    have hvalid : ValidKey (text names) := validKey_intercalate hne fun name hname =>
      have hlegal := (hnames name hname).1
      ⟨⟨hlegal.1, hlegal.2.2.1, hlegal.2.1⟩, hlegal.2.2.2, (hnames name hname).2⟩
    have hback : ofText (text names) = names :=
      ofText_text hne fun name hname => (hnames name hname).1.2.2.2
    refine ⟨_, keyToPath_eq_ok_iff.mpr ⟨hvalid, rfl⟩, ?_⟩
    rw [components_keyPath _ hvalid, components_new, hback]

theorem FsBlobStore.keys_are_paths_nested : ∃ path path',
    (FsBlobStore.new [[], ['d']]).keyToPath ['a'] = .ok path ∧
      (FsBlobStore.new [[], ['d']]).keyToPath ['a', '/', 'b'] = .ok path' ∧
        ProperAncestor path path' :=
  ⟨_, _, rfl, rfl, ((FsBlobStore.keys_are_paths [[], ['d']]).2.2.1 ['a'] ['a', '/', 'b'] _ _ rfl
    rfl).mpr (by decide)⟩

end BlobStorage
