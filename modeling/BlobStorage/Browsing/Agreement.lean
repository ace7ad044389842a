import BlobStorage.Browsing.Encrypted

/-!
# A walk and a listing agree

Through any stack of layers a walk that nobody stops hands out what the listing returns,
and one that the visitor stops is a beginning of it. What can come in between is an
encryption layer that cannot look for a header: the walk looks for the header of every
key it meets, the listing only for those of the keys that it returns.
-/

namespace BlobStorage

open Fallible

variable {σ S : Type}

section Calls

/-- The calls of a visitor, each with its answer. -/
abbrev Calls := List (Key × Except BlobStorageError Bool)

/-- A visitor that also notes how it is called and what it answers. -/
def recorded (visitor : BlobVisitor (StateM σ) S) : BlobVisitor (StateM σ) (S × Calls) where
  visit key info := ExceptT.mk fun l s =>
    let run := execLocal (visitor.visit key info) l.1 s
    ((run.1.1, (run.1.2, l.2 ++ [(key, run.1.1)])), run.2)

theorem execLocal_recorded (visitor : BlobVisitor (StateM σ) S) (key : Key)
    (info : Option BlobMeta) (l : S × Calls) (s : σ) :
    execLocal ((recorded visitor).visit key info) l s =
      (((execLocal (visitor.visit key info) l.1 s).1.1,
        ((execLocal (visitor.visit key info) l.1 s).1.2,
          l.2 ++ [(key, (execLocal (visitor.visit key info) l.1 s).1.1)])),
        (execLocal (visitor.visit key info) l.1 s).2) := rfl

theorem recorded_quietAt {visitor : BlobVisitor (StateM σ) S} {s : σ} (h : visitor.QuietAt s) :
    (recorded visitor).QuietAt s := fun key info l => h key info l.1

/-- The visitor is called for a beginning of the enumeration, which ends where it says so. -/
structure FollowsVisitor (calls : Calls) (enumeration : List Key) : Prop where
  initial : calls.map Prod.fst <+: enumeration
  continued : ∀ call ∈ calls.dropLast, call.2 = .ok true
  stopped : calls.map Prod.fst ≠ enumeration →
    ∃ call, calls.getLast? = some call ∧ call.2 ≠ .ok true

theorem FollowsVisitor.nil : FollowsVisitor [] [] :=
  ⟨List.nil_prefix, by simp, fun h => absurd rfl h⟩

/-- The visitor said to stop, or failed. -/
theorem FollowsVisitor.last {key : Key} {answer : Except BlobStorageError Bool}
    (h : answer ≠ .ok true) (rest : List Key) :
    FollowsVisitor [(key, answer)] (key :: rest) := by
  refine ⟨⟨rest, rfl⟩, by simp, fun _ => ⟨_, rfl, h⟩⟩

theorem FollowsVisitor.cons {key : Key} {calls : Calls} {enumeration : List Key}
    (h : FollowsVisitor calls enumeration) :
    FollowsVisitor ((key, .ok true) :: calls) (key :: enumeration) := by
  refine ⟨?_, ?_, ?_⟩
  · rw [List.map_cons]
    exact (List.prefix_cons_inj key).mpr h.initial
  · intro call hcall
    cases calls with
    | nil => cases hcall
    | cons first rest =>
        obtain rfl | hcall := List.mem_cons.mp hcall
        · rfl
        · exact h.continued call hcall
  · intro hne
    have hshort : calls.map Prod.fst ≠ enumeration := by
      rintro rfl
      exact hne rfl
    obtain ⟨call, hlast, hcall⟩ := h.stopped hshort
    refine ⟨call, ?_, hcall⟩
    cases calls with
    | nil => cases hlast
    | cons first rest => exact hlast

/-- Along a walk the visitor is followed, whatever the walk itself would end in. -/
theorem walkEach_follows {visitor : BlobVisitor (StateM σ) S} {s : σ} (hquiet : visitor.QuietAt s)
    (failure : Option BlobStorageError) (entries : List (Key × Option BlobMeta))
    (l : S) (before : Calls) :
    ∃ calls, (execLocal (walkEach (recorded visitor) failure entries) (l, before) s).1.2.2 =
        before ++ calls ∧ FollowsVisitor calls (entries.map Prod.fst) := by
  induction entries generalizing l before with
  | nil =>
      refine ⟨[], ?_, .nil⟩
      rw [List.append_nil]
      cases failure <;> rfl
  | cons entry rest ih =>
      obtain ⟨key, info⟩ := entry
      have hstay := hquiet key info l
      rw [walkEach, execLocal_bind, execLocal_recorded]
      dsimp only
      cases hcall : execLocal (visitor.visit key info) l s with
      | mk result t =>
          obtain ⟨answer, k⟩ := result
          rw [hcall] at hstay
          obtain rfl : t = s := hstay
          cases answer with
          | error e => exact ⟨_, rfl, .last (by simp) _⟩
          | ok more =>
              cases more with
              | false => exact ⟨_, rfl, .last (by simp) _⟩
              | true =>
                  obtain ⟨calls, hcalls, hfollows⟩ := ih k (before ++ [(key, .ok true)])
                  refine ⟨(key, .ok true) :: calls, ?_, hfollows.cons⟩
                  exact hcalls.trans (List.append_cons before _ calls).symm

end Calls

section Layers

/-- A layer over a store that shows `shown` in the state `s`. -/
def Layer.showing (s : σ) (shown : Shown) : Layer (StateM σ) → Shown
  | .keyPrefix start => shown.prefixed start
  | .encryption provider headerSuffix =>
      shown.encrypted (fun encData header => (provider.decryptStream encData header s).1)
        headerSuffix
  | .cleanup _ _ => shown

theorem Enumerates.wrap {store : BlobStore (StateM σ)} {s : σ} {shown : Shown}
    (h : Enumerates store s shown) (layer : Layer (StateM σ)) :
    Enumerates (layer.wrap store) s (layer.showing s shown) := by
  cases layer with
  | keyPrefix start => exact h.prefixed start
  | encryption provider headerSuffix => exact h.encrypted provider _ headerSuffix
  | cleanup predicate batchSize => exact ⟨h.existsBlob, h.list, h.visit⟩

theorem Enumerates.applyLayers {backend : BlobStore (StateM σ)} {s : σ} {shown : Shown}
    (h : Enumerates backend s shown) (layers : List (Layer (StateM σ))) :
    Enumerates (applyLayers backend layers) s (layers.foldl (Layer.showing s) shown) := by
  induction layers generalizing backend shown with
  | nil => exact h
  | cons layer rest ih => exact ih (h.wrap layer)

/-- Every header that a walk through the layer looks for can be looked for: the store below
does not reject its key. -/
def Layer.ChecksHeaders (shown : Shown) : Layer (StateM σ) → Prop
  | .keyPrefix _ => True
  | .encryption _ headerSuffix =>
      ∀ keys, shown.list (suffixFilter []) = .ok keys → ∀ key ∈ keys, ¬headerSuffix <:+ key →
        ∃ found, shown.existsBlob (key ++ headerSuffix) = .ok found
  | .cleanup _ _ => True

/-- The same at every layer of a stack. -/
def StackChecksHeaders (s : σ) : Shown → List (Layer (StateM σ)) → Prop
  | _, [] => True
  | shown, layer :: rest =>
      layer.ChecksHeaders shown ∧ StackChecksHeaders s (layer.showing s shown) rest

/-- Where a listing succeeds, a walk with the same filter goes to its end exactly when `C`
holds, and then it hands out what the listing returns. -/
structure Shown.AgreesWhen (shown : Shown) (C : Prop) : Prop where
  ends : ∀ {filter : ListFilter} {keys : List Key}, filter.SoundHint →
    filter.MetadataIndependent → shown.list filter = .ok keys →
      ((shown.walk filter).2 = none ↔ C)
  perm : ∀ {filter : ListFilter} {keys : List Key}, filter.SoundHint →
    filter.MetadataIndependent → shown.list filter = .ok keys → C →
      (shown.walkKeys filter).Perm keys

theorem Shown.AgreesWhen.withDefaultVisit (shown : Shown) :
    shown.withDefaultVisit.AgreesWhen True where
  ends := by
    intro filter keys _ _ hlist
    replace hlist : shown.list filter = .ok keys := hlist
    change (listedWalk (shown.list filter)).2 = none ↔ True
    rw [hlist]
    exact iff_of_true rfl trivial
  perm := by
    intro filter keys _ _ hlist _
    replace hlist : shown.list filter = .ok keys := hlist
    change ((listedWalk (shown.list filter)).1.map Prod.fst).Perm keys
    rw [hlist]
    simp [listedWalk, Function.comp_def]

theorem prefixRelay_ne_fail (keyPrefix : Key) (filter : ListFilter) (key : Key)
    (info : Option BlobMeta) (e : BlobStorageError) :
    prefixRelay keyPrefix filter key info ≠ .fail e := by
  unfold prefixRelay
  cases stripKeyPrefix keyPrefix key with
  | none => simp
  | some logical =>
      dsimp only
      split <;> simp

theorem Shown.prefixed_walk (shown : Shown) (keyPrefix : Key) (filter : ListFilter) :
    (shown.prefixed keyPrefix).walk filter =
      ((shown.walk (combinedPrefixFilter keyPrefix filter)).1.filterMap fun entry =>
        (prefixRelay keyPrefix filter entry.1 entry.2).entry,
        (shown.walk (combinedPrefixFilter keyPrefix filter)).2) :=
  relayed_eq_filterMap fun entry _ e => prefixRelay_ne_fail keyPrefix filter entry.1 entry.2 e

/-- With a filter that looks at keys only, the visitor lets through what the listing keeps. -/
theorem map_prefixRelay (keyPrefix : Key) {filter : ListFilter} (h : filter.MetadataIndependent)
    (entries : List (Key × Option BlobMeta)) :
    (entries.filterMap fun entry =>
      (prefixRelay keyPrefix filter entry.1 entry.2).entry).map Prod.fst =
      ((entries.map Prod.fst).filterMap (stripKeyPrefix keyPrefix)).filter
        fun key => filter.matchesBlob key none := by
  induction entries with
  | nil => rfl
  | cons entry rest ih =>
      obtain ⟨key, info⟩ := entry
      rw [List.filterMap_cons, List.map_cons, List.filterMap_cons, prefixRelay]
      dsimp only
      cases stripKeyPrefix keyPrefix key with
      | none => exact ih
      | some logical =>
          dsimp only
          rw [h logical _ none, List.filter_cons]
          cases filter.matchesBlob logical none with
          | false => exact ih
          | true =>
              rw [if_pos rfl, if_pos rfl]
              exact congrArg (logical :: ·) ih

theorem Shown.AgreesWhen.prefixed {shown : Shown} {C : Prop} (h : shown.AgreesWhen C)
    (keyPrefix : Key) : (shown.prefixed keyPrefix).AgreesWhen C := by
  have hinner : ∀ {filter : ListFilter} {keys : List Key},
      (shown.prefixed keyPrefix).list filter = .ok keys →
      ∃ found, shown.list (combinedPrefixFilter keyPrefix filter) = .ok found ∧
        (found.filterMap (stripKeyPrefix keyPrefix)).filter
          (fun key => filter.matchesBlob key none) = keys := by
    intro filter keys hlist
    change (shown.list (combinedPrefixFilter keyPrefix filter)).map _ = _ at hlist
    cases hfound : shown.list (combinedPrefixFilter keyPrefix filter) with
    | error e =>
        rw [hfound] at hlist
        cases hlist
    | ok found =>
        rw [hfound] at hlist
        exact ⟨found, rfl, Except.ok.inj hlist⟩
  constructor
  · intro filter keys _ _ hlist
    obtain ⟨found, hfound, _⟩ := hinner hlist
    rw [shown.prefixed_walk]
    exact h.ends (combinedPrefixFilter_sound _ _)
      (combinedPrefixFilter_metadataIndependent _ _) hfound
  · intro filter keys _ hindependent hlist hC
    obtain ⟨found, hfound, rfl⟩ := hinner hlist
    have hperm := h.perm (combinedPrefixFilter_sound keyPrefix filter)
      (combinedPrefixFilter_metadataIndependent keyPrefix filter) hfound hC
    rw [Reads.walkKeys, shown.prefixed_walk, map_prefixRelay keyPrefix hindependent]
    exact (hperm.filterMap _).filter _

/-- `withHeader` succeeds where every header can be looked for, and keeps the keys that have
one. -/
theorem Reads.withHeader_eq_ok_iff {reads : Reads} {headerSuffix : Key} {keys found : List Key} :
    reads.withHeader headerSuffix keys = .ok found ↔
      (∀ key ∈ keys, ∃ there, reads.existsBlob (key ++ headerSuffix) = .ok there) ∧
        keys.filter (reads.hasHeader headerSuffix) = found := by
  constructor
  · intro h
    have hchecked : ∀ key ∈ keys, ∃ there,
        reads.existsBlob (key ++ headerSuffix) = .ok there := by
      induction keys generalizing found with
      | nil => simp
      | cons key rest ih =>
          rw [withHeader] at h
          cases hfirst : reads.existsBlob (key ++ headerSuffix) with
          | error e =>
              rw [hfirst] at h
              cases h
          | ok there =>
              rw [hfirst] at h
              cases hrest : reads.withHeader headerSuffix rest with
              | error e =>
                  rw [hrest] at h
                  cases h
              | ok others => exact List.forall_mem_cons.mpr ⟨⟨there, hfirst⟩, ih hrest⟩
    rw [withHeader_eq_filter hchecked] at h
    exact ⟨hchecked, Except.ok.inj h⟩
  · rintro ⟨hchecked, rfl⟩
    exact withHeader_eq_filter hchecked

/-- What the visitor of the encryption layer does not let through, it fails at only when a
header cannot be looked for. -/
theorem Reads.encryptRelay_ne_fail_iff {reads : Reads} {headerSuffix : Key} {filter : ListFilter}
    {key : Key} {info : Option BlobMeta} :
    (∀ e, reads.encryptRelay headerSuffix filter key info ≠ .fail e) ↔
      (¬headerSuffix <:+ key → ∃ there, reads.existsBlob (key ++ headerSuffix) = .ok there) := by
  unfold encryptRelay
  by_cases hreserved : headerSuffix <:+ key
  · simp [hreserved]
  · rw [if_neg hreserved]
    cases reads.existsBlob (key ++ headerSuffix) with
    | error e => simp [hreserved]
    | ok there =>
        cases there with
        | false => simp
        | true =>
            dsimp only
            split <;> simp

theorem map_encryptRelay {reads : Reads} {headerSuffix : Key} {filter : ListFilter}
    (h : filter.MetadataIndependent) (entries : List (Key × Option BlobMeta)) :
    (entries.filterMap fun entry =>
      (reads.encryptRelay headerSuffix filter entry.1 entry.2).entry).map Prod.fst =
      (((entries.map Prod.fst).filter fun key => decide ¬headerSuffix <:+ key).filter
        fun key => filter.matchesBlob key none).filter (reads.hasHeader headerSuffix) := by
  induction entries with
  | nil => rfl
  | cons entry rest ih =>
      obtain ⟨key, info⟩ := entry
      rw [List.filterMap_cons, List.map_cons, List.filter_cons, Reads.encryptRelay]
      dsimp only
      by_cases hreserved : headerSuffix <:+ key
      · have hdropped : ¬(decide ¬headerSuffix <:+ key) = true := by simp [hreserved]
        rw [if_pos hreserved, if_neg hdropped]
        exact ih
      have hkept : (decide ¬headerSuffix <:+ key) = true := by simp [hreserved]
      rw [if_neg hreserved, if_pos hkept, List.filter_cons, ← h key info none]
      cases hmatch : filter.matchesBlob key info with
      | false =>
          cases reads.existsBlob (key ++ headerSuffix) with
          | error e => exact ih
          | ok there =>
              cases there <;> exact ih
      | true =>
          rw [if_pos rfl, if_pos rfl, List.filter_cons, Reads.hasHeader]
          cases reads.existsBlob (key ++ headerSuffix) with
          | error e => exact ih
          | ok there =>
              cases there with
              | false => exact ih
              | true => exact congrArg (key :: ·) ih

theorem Shown.AgreesWhen.encrypted {shown : Shown} {C : Prop} (h : shown.AgreesWhen C)
    (run : Reader → Bytes → DecryptRun) (headerSuffix : Key) :
    (shown.encrypted run headerSuffix).AgreesWhen (C ∧
      ∀ keys, shown.list (suffixFilter []) = .ok keys → ∀ key ∈ keys, ¬headerSuffix <:+ key →
        ∃ found, shown.existsBlob (key ++ headerSuffix) = .ok found) := by
  have hinner : ∀ {filter : ListFilter} {keys : List Key},
      (shown.encrypted run headerSuffix).list filter = .ok keys →
      ∃ all, shown.list (suffixFilter []) = .ok all ∧
        ((all.filter fun key => decide ¬headerSuffix <:+ key).filter
          fun key => filter.matchesBlob key none).filter (shown.hasHeader headerSuffix) =
            keys := by
    intro filter keys hlist
    change (shown.list (suffixFilter []) >>= fun all => _) = _ at hlist
    cases hall : shown.list (suffixFilter []) with
    | error e =>
        rw [hall] at hlist
        cases hlist
    | ok all =>
        rw [hall] at hlist
        exact ⟨all, rfl, (Reads.withHeader_eq_ok_iff.mp hlist).2⟩
  have hends : ∀ {filter : ListFilter} {all : List Key},
      shown.list (suffixFilter []) = .ok all →
      (((shown.encrypted run headerSuffix).walk filter).2 = none ↔
        C ∧ ∀ key ∈ all, ¬headerSuffix <:+ key →
          ∃ found, shown.existsBlob (key ++ headerSuffix) = .ok found) := by
    intro filter all hall
    have hbelow := h.ends (suffixFilter_sound []) (suffixFilter_metadataIndependent []) hall
    have hperm := h.perm (suffixFilter_sound []) (suffixFilter_metadataIndependent []) hall
    change (relayed _ _ _).2 = none ↔ _
    rw [relayed_snd_eq_none_iff, hbelow]
    refine and_congr_right fun hC => ?_
    have hmem : ∀ key, key ∈ all ↔
        key ∈ (shown.walk (suffixFilter [])).1.map Prod.fst := fun key =>
      (hperm hC).mem_iff.symm
    constructor
    · intro hentries key hkey
      obtain ⟨⟨_, info⟩, hentry, rfl⟩ := List.mem_map.mp ((hmem key).mp hkey)
      exact Reads.encryptRelay_ne_fail_iff.mp (hentries _ hentry)
    · intro hkeys entry hentry
      exact Reads.encryptRelay_ne_fail_iff.mpr
        (hkeys entry.1 ((hmem _).mpr (List.mem_map_of_mem hentry)))
  constructor
  · intro filter keys _ _ hlist
    obtain ⟨all, hall, _⟩ := hinner hlist
    rw [hends hall]
    refine and_congr_right fun _ => ?_
    rw [hall]
    exact ⟨fun hchecked keys hkeys => Except.ok.inj hkeys ▸ hchecked, fun hchecked => hchecked all rfl⟩
  · intro filter keys _ hindependent hlist hC
    obtain ⟨all, hall, rfl⟩ := hinner hlist
    have hperm := h.perm (suffixFilter_sound []) (suffixFilter_metadataIndependent []) hall hC.1
    have hwalk : (shown.encrypted run headerSuffix).walk filter =
        ((shown.walk (suffixFilter [])).1.filterMap fun entry =>
          (shown.encryptRelay headerSuffix filter entry.1 entry.2).entry,
          (shown.walk (suffixFilter [])).2) :=
      relayed_eq_filterMap (relayed_snd_eq_none_iff.mp
        ((hends hall).mpr ⟨hC.1, hC.2 all hall⟩)).2
    rw [Reads.walkKeys, hwalk, map_encryptRelay hindependent]
    exact ((hperm.filter _).filter _).filter _

theorem Shown.AgreesWhen.applyLayers {shown : Shown} {C : Prop} (h : shown.AgreesWhen C)
    (s : σ) (layers : List (Layer (StateM σ))) :
    (layers.foldl (Layer.showing s) shown).AgreesWhen
      (C ∧ StackChecksHeaders s shown layers) := by
  induction layers generalizing shown C with
  | nil => simpa [StackChecksHeaders] using h
  | cons layer rest ih =>
      have hlayer : (layer.showing s shown).AgreesWhen (C ∧ layer.ChecksHeaders shown) := by
        cases layer with
        | keyPrefix start =>
            rw [Layer.ChecksHeaders, and_true]
            exact h.prefixed start
        | encryption provider headerSuffix => exact h.encrypted _ headerSuffix
        | cleanup predicate batchSize =>
            rw [Layer.ChecksHeaders, and_true]
            exact h
      rw [StackChecksHeaders, ← and_assoc]
      exact ih hlayer

end Layers

section Visits

/-- A walk hands out what the listing returns, and any visitor is called for a beginning of
it that ends where the visitor says. -/
structure VisitAgrees (store : BlobStore (StateM σ)) (s : σ) (filter : ListFilter)
    (keys : List Key) : Prop where
  completes : (execLocal (store.visit filter collector) [] s).1.1 = .ok ()
  delivers : (execLocal (store.visit filter collector) [] s).1.2.Perm keys
  follows : ∀ {S : Type} (visitor : BlobVisitor (StateM σ) S) (l : S), visitor.QuietAt s →
    FollowsVisitor (execLocal (store.visit filter (recorded visitor)) (l, []) s).1.2.2
      (execLocal (store.visit filter collector) [] s).1.2

theorem Enumerates.visitAgrees_iff {store : BlobStore (StateM σ)} {s : σ} {shown : Shown}
    {C : Prop} (h : Enumerates store s shown) (hagrees : shown.AgreesWhen C)
    {filter : ListFilter} {keys : List Key} (hsound : filter.SoundHint)
    (hindependent : filter.MetadataIndependent)
    (hlist : (exec (store.list filter) s).1 = .ok keys) :
    VisitAgrees store s filter keys ↔ C := by
  rw [h.list] at hlist
  have hcollect := h.visit_collector filter
  constructor
  · intro hvisit
    have hend := hvisit.completes
    rw [hcollect] at hend
    refine (hagrees.ends hsound hindependent hlist).mp ?_
    cases hfailure : (shown.walk filter).2 with
    | none => rfl
    | some e =>
        rw [hfailure] at hend
        cases hend
  · intro hC
    have hend := (hagrees.ends hsound hindependent hlist).mpr hC
    constructor
    · rw [hcollect, hend]
      rfl
    · rw [hcollect]
      exact hagrees.perm hsound hindependent hlist hC
    · intro S visitor l hquiet
      obtain ⟨calls, hcalls, hfollows⟩ :=
        walkEach_follows hquiet (shown.walk filter).2 (shown.walk filter).1 l []
      rw [hcollect, h.visit filter (recorded visitor) (l, []) (recorded_quietAt hquiet), hcalls]
      exact hfollows

/-- Through a stack of layers over a backend whose walks agree with its listings. -/
theorem stack_visitAgrees_iff {backend : BlobStore (StateM σ)} {s : σ} {shown : Shown}
    (h : Enumerates backend s shown) (hagrees : shown.AgreesWhen True)
    (layers : List (Layer (StateM σ))) {filter : ListFilter} {keys : List Key}
    (hsound : filter.SoundHint) (hindependent : filter.MetadataIndependent)
    (hlist : (exec ((applyLayers backend layers).list filter) s).1 = .ok keys) :
    VisitAgrees (applyLayers backend layers) s filter keys ↔
      StackChecksHeaders s shown layers := by
  have hstack := hagrees.applyLayers s layers
  rw [true_and] at hstack
  exact (h.applyLayers layers).visitAgrees_iff hstack hsound hindependent hlist

end Visits

end BlobStorage
