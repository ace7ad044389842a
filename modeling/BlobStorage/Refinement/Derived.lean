import BlobStorage.Refinement.Stack

/-!
# The keys that a stack hands down

A prefix layer puts its prefix in front of a key, an encryption layer adds the key of the header.
What a stack admits is what its layers check and what the backend admits of the keys that they
derive, so calls on given keys name only so many keys of the backend.
-/

namespace BlobStorage

variable {σ : Type}

namespace Layer

/-- The keys that a layer derives from a key. -/
def derived : Layer (StateM σ) → Key → List Key
  | .keyPrefix start, key => [start ++ key]
  | .encryption _ headerSuffix, key => [key, key ++ headerSuffix]
  | .cleanup _ _, key => [key]

variable {Admits Also : Key → Prop} {layer : Layer (StateM σ)} {key : Key}

theorem AdmitsKey.mono (hkey : layer.AdmitsKey Admits key)
    (himp : ∀ other, Admits other → Also other) : layer.AdmitsKey Also key := by
  cases layer with
  | keyPrefix start =>
      obtain ⟨hvalid, hprefixed, hadmits⟩ := hkey
      exact ⟨hvalid, hprefixed, himp _ hadmits⟩
  | encryption provider headerSuffix =>
      obtain ⟨hvalid, hplain, hheader, hdata, hadmits⟩ := hkey
      exact ⟨hvalid, hplain, hheader, himp _ hdata, himp _ hadmits⟩
  | cleanup predicate batchSize => exact himp _ hkey

theorem AdmitsKey.and (hkey : layer.AdmitsKey Admits key)
    (halso : ∀ other ∈ layer.derived key, Also other) :
    layer.AdmitsKey (fun other => Admits other ∧ Also other) key := by
  cases layer with
  | keyPrefix start =>
      obtain ⟨hvalid, hprefixed, hadmits⟩ := hkey
      exact ⟨hvalid, hprefixed, hadmits, halso _ List.mem_cons_self⟩
  | encryption provider headerSuffix =>
      obtain ⟨hvalid, hplain, hheader, hdata, hadmits⟩ := hkey
      exact ⟨hvalid, hplain, hheader, ⟨hdata, halso _ List.mem_cons_self⟩,
        hadmits, halso _ (List.mem_cons_of_mem _ List.mem_cons_self)⟩
  | cleanup predicate batchSize => exact ⟨hkey, halso _ List.mem_cons_self⟩

end Layer

section Stack

variable {Admits Also : Key → Prop} {layers : List (Layer (StateM σ))} {key : Key}

/-- The keys of the backend that a stack derives from a key, outermost layer first. -/
def backendKeys : List (Layer (StateM σ)) → Key → List Key
  | [], key => [key]
  | layer :: layers, key => (backendKeys layers key).flatMap layer.derived

theorem StackAdmits.mono (hkey : StackAdmits Admits layers key)
    (himp : ∀ other, Admits other → Also other) : StackAdmits Also layers key := by
  induction layers generalizing Admits Also with
  | nil => exact himp key hkey
  | cons layer layers ih => exact ih hkey fun other hother => hother.mono himp

theorem StackAdmits.and (hkey : StackAdmits Admits layers key)
    (halso : ∀ other ∈ backendKeys layers key, Also other) :
    StackAdmits (fun other => Admits other ∧ Also other) layers key := by
  induction layers generalizing Admits Also with
  | nil => exact ⟨hkey, halso key List.mem_cons_self⟩
  | cons layer layers ih =>
      have hderived : ∀ other ∈ backendKeys layers key, ∀ below ∈ layer.derived other,
          Also below := fun other hother below hbelow =>
        halso below (List.mem_flatMap.mpr ⟨other, hother, hbelow⟩)
      have hboth := ih hkey hderived
      exact hboth.mono fun other hother => hother.1.and hother.2

end Stack

namespace Call

variable {Admits Also : Key → Prop}

/-- The keys that a call names. A listing names none. -/
def keys : Call → List Key
  | .put blobs => blobs.map BlobInput.key
  | .delete keys => keys
  | .get key => [key]
  | .existsBlob key => [key]
  | .list _ => []

theorem Admissible.imp {call : Call} (h : call.Admissible Admits)
    (himp : ∀ key ∈ call.keys, Admits key → Also key) : call.Admissible Also := by
  cases call with
  | put blobs => exact fun blob hblob => himp _ (List.mem_map_of_mem hblob) (h blob hblob)
  | delete keys => exact fun key hkey => himp key hkey (h key hkey)
  | get key => exact himp key List.mem_cons_self h
  | existsBlob key => exact himp key List.mem_cons_self h
  | list filter => exact h

end Call

/-- The keys of the backend that calls through a stack name. -/
def namedKeys (layers : List (Layer (StateM σ))) (calls : List Call) : List Key :=
  (calls.flatMap Call.keys).flatMap (backendKeys layers)

theorem Call.Admissible.named {Admits : Key → Prop} {layers : List (Layer (StateM σ))}
    {calls : List Call} {call : Call} (h : call.Admissible (StackAdmits Admits layers))
    (hcall : call ∈ calls) :
    call.Admissible
      (StackAdmits (fun key => Admits key ∧ key ∈ namedKeys layers calls) layers) := by
  refine h.imp fun key hkey hadmits => hadmits.and fun other hother => ?_
  exact List.mem_flatMap.mpr ⟨key, List.mem_flatMap.mpr ⟨call, hcall, hkey⟩, hother⟩

end BlobStorage
