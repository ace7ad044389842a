import BlobStorage.Error

/-!
# List filters

`list_filter.rs`. A filter is its decision and its optional prefix hint. The trait
leaves both open: that a hint is sound is a property of a filter, not of the type.
-/

namespace BlobStorage

structure ListFilter where
  /-- `matches`. -/
  matchesBlob : Key → Option BlobMeta → Bool
  prefixHint : Option Key := none

namespace ListFilter

/-- Every key the filter can accept starts with its hint. -/
def SoundHint (filter : ListFilter) : Prop :=
  ∀ hint, filter.prefixHint = some hint →
    ∀ key info, filter.matchesBlob key info = true → hint <+: key

/-- The decision depends on the key alone. -/
def MetadataIndependent (filter : ListFilter) : Prop :=
  ∀ key info info', filter.matchesBlob key info = filter.matchesBlob key info'

theorem SoundHint.getD_isPrefix {filter : ListFilter} (h : filter.SoundHint) {key : Key}
    {info : Option BlobMeta} (hmatch : filter.matchesBlob key info = true) :
    filter.prefixHint.getD [] <+: key := by
  cases hhint : filter.prefixHint with
  | none => exact List.nil_prefix
  | some hint => exact h hint hhint key info hmatch

theorem soundHint_of_none {filter : ListFilter} (h : filter.prefixHint = none) :
    filter.SoundHint := by
  intro hint hh
  rw [h] at hh
  cases hh

end ListFilter

/-- `SuffixFilter`. -/
def suffixFilter (suffix : Key) : ListFilter where
  matchesBlob key _ := decide (suffix <:+ key)

/-- `PrefixFilter`. -/
def prefixFilter (start : Key) : ListFilter where
  matchesBlob key _ := decide (start <+: key)
  prefixHint := some start

/-- `NotFilter`, which drops the hint of the filter it inverts. -/
def notFilter (inner : ListFilter) : ListFilter where
  matchesBlob key info := !inner.matchesBlob key info

@[simp] theorem suffixFilter_matches (suffix key : Key) (info : Option BlobMeta) :
    (suffixFilter suffix).matchesBlob key info = decide (suffix <:+ key) := rfl

@[simp] theorem suffixFilter_hint (suffix : Key) : (suffixFilter suffix).prefixHint = none := rfl

@[simp] theorem prefixFilter_matches (start key : Key) (info : Option BlobMeta) :
    (prefixFilter start).matchesBlob key info = decide (start <+: key) := rfl

@[simp] theorem prefixFilter_hint (start : Key) :
    (prefixFilter start).prefixHint = some start := rfl

theorem suffixFilter_sound (suffix : Key) : (suffixFilter suffix).SoundHint :=
  ListFilter.soundHint_of_none rfl

theorem suffixFilter_metadataIndependent (suffix : Key) :
    (suffixFilter suffix).MetadataIndependent := fun _ _ _ => rfl

theorem prefixFilter_sound (start : Key) : (prefixFilter start).SoundHint := by
  intro hint hh key info hm
  cases hh
  simpa using hm

theorem notFilter_sound (inner : ListFilter) : (notFilter inner).SoundHint :=
  ListFilter.soundHint_of_none rfl

end BlobStorage
