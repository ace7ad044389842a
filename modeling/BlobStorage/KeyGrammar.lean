import BlobStorage.Encrypt.Store
import BlobStorage.Prefix

/-!
# The grammar of keys

What `validate_blob_key` accepts, and what becomes of it when the layers put a prefix before a key
or the header suffix behind it: the verdict on the new key is the same for all valid keys.
-/

namespace BlobStorage

open Fallible

theorem validKey_iff_components {key : Key} :
    ValidKey key ↔ ∃ components, components ≠ [] ∧
      (∀ component ∈ components, NormalComponent component ∧ keySeparator ∉ component ∧
        '\\' ∉ component) ∧ key = [keySeparator].intercalate components := by
  constructor
  · intro h
    obtain ⟨hne, hcomponents, hjoin⟩ := h.components
    exact ⟨_, hne, hcomponents, hjoin.symm⟩
  · rintro ⟨components, hne, hcomponents, rfl⟩
    exact validKey_intercalate hne hcomponents

/-- A prefix keeps every valid key valid, or none. -/
theorem validKey_prepend_or (start : Key) :
    (∀ key, ValidKey key → ValidKey (start ++ key)) ∨
      ∀ key, ValidKey key → ¬ValidKey (start ++ key) := by
  by_cases h : '\\' ∉ start ∧
      ∀ component ∈ (start.splitOn keySeparator).dropLast, NormalComponent component
  · exact .inl fun key hkey => hkey.prepend_iff.mpr h
  · exact .inr fun key hkey hvalid => h (hkey.prepend_iff.mp hvalid)

/-- So does a suffix. -/
theorem validKey_append_or (suffix : Key) :
    (∀ key, ValidKey key → ValidKey (key ++ suffix)) ∨
      ∀ key, ValidKey key → ¬ValidKey (key ++ suffix) := by
  by_cases h : ∃ key, ValidKey (key ++ suffix)
  · obtain ⟨other, hother⟩ := h
    exact .inl fun key hkey => hkey.append_of_append hother
  · exact .inr fun key _ hvalid => h ⟨key, hvalid⟩

/-- Validation accepts what is joined of components that are neither empty nor dots and hold no
separator and no backslash. The checks that the prefix layer makes of the prefixed keys and the
encrypted layer of the header keys pass for all valid keys or fail for all. -/
theorem validation_is_the_grammar {m : Type → Type} [Monad m] [LawfulMonad m] :
    (∀ key, validateBlobKey key = .ok () ↔ ∃ components, components ≠ [] ∧
      (∀ component ∈ components, component ≠ [] ∧ component ≠ ['.'] ∧ component ≠ ['.', '.'] ∧
        '/' ∉ component ∧ '\\' ∉ component) ∧ key = ['/'].intercalate components) ∧
    (∀ start : Key,
      (∀ key, validateBlobKey key = .ok () → validateBlobKey (start ++ key) = .ok ()) ∨
        ∀ key, validateBlobKey key = .ok () → validateBlobKey (start ++ key) ≠ .ok ()) ∧
    (∀ key suffix : Key, validateBlobKey key = .ok () → '/' ∉ suffix → '\\' ∉ suffix →
      validateBlobKey (key ++ suffix) = .ok ()) ∧
    (∀ store : PrefixBlobStore m,
      (∀ key, validateBlobKey key = .ok () → store.prefixed key = pure (store.keyPrefix ++ key)) ∨
        ∀ key, validateBlobKey key = .ok () →
          ∃ e, e.IsInvalidInput ∧ store.prefixed key = throw e) ∧
    ∀ store : EncryptedBlobStore m,
      (∀ key, validateBlobKey key = .ok () →
        (checkKey (store.headerKey key) : Fallible m Unit) = pure ()) ∨
        ∀ key, validateBlobKey key = .ok () →
          ∃ e, e.IsInvalidInput ∧ (checkKey (store.headerKey key) : Fallible m Unit) = throw e := by
  simp only [validateBlobKey_eq_ok_iff, ne_eq]
  refine ⟨fun key => ?_, validKey_prepend_or,
    fun key suffix hkey hsep hback => hkey.append hback hsep, fun store => ?_, fun store => ?_⟩
  · rw [validKey_iff_components]
    refine exists_congr fun components => and_congr_right fun _ => and_congr_left fun _ => ?_
    refine forall₂_congr fun component _ => ?_
    unfold NormalComponent
    tauto
  · obtain hall | hnone := validKey_prepend_or store.keyPrefix
    · exact .inl fun key hkey => store.prefixed_of_valid hkey (hall key hkey)
    · right
      intro key hkey
      obtain ⟨e, hinvalid, he⟩ := @checkKey_of_not_valid m _ _ (hnone key hkey)
      refine ⟨e, hinvalid, ?_⟩
      rw [PrefixBlobStore.prefixed, checkKey_of_valid hkey, he, pure_bind, ExceptT.bind_throw]
  · obtain hall | hnone := validKey_append_or store.headerSuffix
    · exact .inl fun key hkey => checkKey_of_valid (hall key hkey)
    · exact .inr fun key hkey => checkKey_of_not_valid (hnone key hkey)

theorem validation_is_the_grammar_dots :
    validateBlobKey (['.', 'a'] ++ ['.', '.']) = .ok () :=
  (@validation_is_the_grammar Id _ _).2.2.1 ['.', 'a'] ['.', '.'] (by decide) (by decide)
    (by decide)

end BlobStorage
