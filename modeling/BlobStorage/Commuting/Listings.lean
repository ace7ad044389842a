import BlobStorage.Browsing.Shown
import BlobStorage.Commuting.Layers
import BlobStorage.Encrypt.Shift

/-!
# Listings and walks of the two orders

Over a prefix, encryption is shown the keys of the prefix; below it, encryption goes through the
whole backend and the prefix layer picks its own keys out of what is left. For a filter with a
sound hint that does not look at metadata both select the same blobs in the same order.
-/

namespace BlobStorage

open Fallible

section Listings

variable {σ : Type} {backend : BlobStore (StateM σ)} {Holds : σ → Prop} {keys : σ → List Key}
variable {entries : σ → List (Key × Option BlobMeta)} {provider : EncryptionProvider (StateM σ)}
variable {start headerSuffix : Key} {s : σ} {key : Key}

/-- What `exists` answers in a state, where it answers at all. -/
def present (backend : BlobStore (StateM σ)) (s : σ) (key : Key) : Bool :=
  match (exec (backend.existsBlob key) s).1 with
  | .ok answer => answer
  | .error _ => false

theorem MapBackend.exec_existsBlob (h : MapBackend backend Holds keys entries) (hs : Holds s)
    (hkey : ValidKey key) : exec (backend.existsBlob key) s = (.ok (present backend s key), s) := by
  obtain ⟨answer, hread⟩ := h.existsBlob hs hkey
  rw [present, hread]

/-- The header check keeps the keys for which it is answered with yes. -/
theorem exec_withHeader_filter {store : EncryptedBlobStore (StateM σ)} {batch : List Key}
    {answer : Key → Bool} (h : ∀ key ∈ batch,
      exec (store.inner.existsBlob (store.headerKey key)) s = (.ok (answer key), s)) :
    exec (store.withHeader batch) s = (.ok (batch.filter answer), s) := by
  induction batch with
  | nil => rfl
  | cons key rest ih =>
      rw [List.forall_mem_cons] at h
      rw [EncryptedBlobStore.withHeader, exec_bind_ok h.1, exec_bind_ok (ih h.2), List.filter_cons]
      rfl

theorem combined_matches (start : Key) (filter : ListFilter) (logical : Key)
    (info : Option BlobMeta) :
    (combinedPrefixFilter start filter).matchesBlob (start ++ logical) info =
      decide (filter.prefixHint.getD [] <+: logical) :=
  decide_eq_decide.mpr (List.prefix_append_right_inj start)

theorem combined_not_matches {filter : ListFilter} (h : ¬start <+: key) (info : Option BlobMeta) :
    (combinedPrefixFilter start filter).matchesBlob key info = false :=
  decide_eq_false fun hlong => h ((List.prefix_append _ _).trans hlong)

/-- Of the backend's keys, both orders select the same. -/
theorem selected_eq (hnames : PlainNames start headerSuffix) {filter : ListFilter}
    (hsound : filter.SoundHint) (answer : Key → Bool) (physical : List Key) :
    (((((physical.filter fun key => decide (start ++ [] <+: key)).filterMap
        (stripKeyPrefix start)).filter fun key => decide ([] <:+ key)).filter
          fun key => decide ¬headerSuffix <:+ key).filter
            fun key => filter.matchesBlob key none).filter
              (fun key => answer (start ++ (key ++ headerSuffix))) =
      (((((physical.filter fun key => decide ([] <:+ key)).filter
        fun key => decide ¬headerSuffix <:+ key).filter
          fun key => (combinedPrefixFilter start filter).matchesBlob key none).filter
            fun key => answer (key ++ headerSuffix)).filterMap (stripKeyPrefix start)).filter
              fun key => filter.matchesBlob key none := by
  simp only [← List.filterMap_eq_filter, List.filterMap_filterMap]
  refine List.filterMap_congr fun key _ => ?_
  by_cases hinitial : start <+: key
  · obtain ⟨logical, rfl⟩ := hinitial
    have hphysical := combined_matches start filter logical none
    by_cases hmatch : filter.matchesBlob logical none = true
    · have hhint := hsound.getD_isPrefix hmatch
      by_cases hsuffix : headerSuffix <:+ logical
      · simp [Option.guard, hnames.suffix_iff, hsuffix]
      · by_cases hanswer : answer (start ++ (logical ++ headerSuffix)) = true
        · simp [Option.guard, hnames.suffix_iff, hsuffix, hphysical, hhint, hmatch, hanswer]
        · simp [Option.guard, hnames.suffix_iff, hsuffix, hphysical, hhint, hmatch, hanswer]
    · by_cases hsuffix : headerSuffix <:+ logical
      · simp [Option.guard, hnames.suffix_iff, hsuffix]
      · by_cases hhint : filter.prefixHint.getD [] <+: logical
        · by_cases hanswer : answer (start ++ (logical ++ headerSuffix)) = true
          · simp [Option.guard, hnames.suffix_iff, hsuffix, hphysical, hhint, hmatch, hanswer]
          · simp [Option.guard, hnames.suffix_iff, hsuffix, hphysical, hhint, hmatch, hanswer]
        · simp [Option.guard, hnames.suffix_iff, hsuffix, hphysical, hhint, hmatch]
  · have hphysical := @combined_not_matches start key filter hinitial none
    by_cases hsuffix : headerSuffix <:+ key
    · simp [Option.guard, hinitial, hsuffix]
    · simp [Option.guard, hinitial, hsuffix, hphysical]

variable (hbackend : MapBackend backend Holds keys entries)
variable (hnames : PlainNames start headerSuffix)

include hbackend hnames

theorem exec_below_existsBlob (hs : Holds s) (hkey : ValidKey key) :
    exec ((prefixStore backend start).existsBlob key) s =
      (.ok (present backend s (start ++ key)), s) :=
  exec_prefix_existsBlob hnames hkey (hbackend.exec_existsBlob hs (hnames.valid key hkey))

omit hnames in
theorem exec_below_list (start : Key) (hs : Holds s) :
    exec ((prefixStore backend start).list (suffixFilter [])) s =
      (.ok ((((keys s).filter fun key => decide (start ++ [] <+: key)).filterMap
        (stripKeyPrefix start)).filter fun key => decide ([] <:+ key)), s) := by
  have hlist := hbackend.list hs (combinedPrefixFilter_sound start (suffixFilter []))
    (combinedPrefixFilter_metadataIndependent start (suffixFilter []))
  rw [PrefixBlobStore.list, exec_bind_ok hlist]
  rfl

omit hnames in
theorem exec_all_list (hs : Holds s) :
    exec (backend.list (suffixFilter [])) s =
      (.ok ((keys s).filter fun key => decide ([] <:+ key)), s) :=
  hbackend.list hs (suffixFilter_sound []) (suffixFilter_metadataIndependent [])

/-- The keys that the prefix layer shows are valid. -/
theorem valid_of_mem_below (hs : Holds s)
    (hmem : key ∈ ((keys s).filter fun key => decide (start ++ [] <+: key)).filterMap
      (stripKeyPrefix start)) : ValidKey key := by
  obtain ⟨physical, hphysical, hstrip⟩ := List.mem_filterMap.mp hmem
  obtain rfl := stripKeyPrefix_eq_some_iff.mp hstrip
  exact hnames.valid_iff.mp (hbackend.keys_valid hs _ (List.mem_filter.mp hphysical).1)

theorem mirrors_list (hs : Holds s) {filter : ListFilter} (hsound : filter.SoundHint) :
    Mirrors id Holds Eq
      ((encryptedOverPrefix backend start provider headerSuffix).list filter)
      ((prefixOverEncrypted backend start provider headerSuffix).list filter) s := by
  have habove := @exec_withHeader_filter σ s
    (encryptedOverPrefix backend start provider headerSuffix)
    (((((keys s).filter fun key => decide (start ++ [] <+: key)).filterMap
        (stripKeyPrefix start)).filter fun key => decide ([] <:+ key)).filter
          (fun key => decide ¬headerSuffix <:+ key) |>.filter
            fun key => filter.matchesBlob key none)
    (fun key => present backend s (start ++ (key ++ headerSuffix))) (by
      intro key hkey
      have hmem := (List.mem_filter.mp (List.mem_filter.mp (List.mem_filter.mp hkey).1).1).1
      have hvalid := valid_of_mem_below hbackend hnames hs hmem
      exact exec_below_existsBlob hbackend hnames hs (hnames.header_valid hvalid))
  have hbelow := @exec_withHeader_filter σ s (encryptedStore backend provider headerSuffix)
    ((((keys s).filter fun key => decide ([] <:+ key)).filter
      fun key => decide ¬headerSuffix <:+ key).filter
        fun key => (combinedPrefixFilter start filter).matchesBlob key none)
    (fun key => present backend s (key ++ headerSuffix)) (by
      intro key hkey
      have hmem := (List.mem_filter.mp (List.mem_filter.mp (List.mem_filter.mp hkey).1).1).1
      exact hbackend.exec_existsBlob hs (hnames.header_valid (hbackend.keys_valid hs key hmem)))
  have hfirst := exec_bind_ok (f := fun allKeys => EncryptedBlobStore.withHeader
    (encryptedOverPrefix backend start provider headerSuffix)
    ((allKeys.filter fun key => decide ¬headerSuffix <:+ key).filter
      fun key => filter.matchesBlob key none)) (exec_below_list hbackend start hs)
  have hsecond := exec_bind_ok (f := fun allKeys => EncryptedBlobStore.withHeader
    (encryptedStore backend provider headerSuffix)
    ((allKeys.filter fun key => decide ¬headerSuffix <:+ key).filter
      fun key => (combinedPrefixFilter start filter).matchesBlob key none))
    (exec_all_list hbackend hs)
  refine .of_exec (hfirst.trans habove) (exec_bind_ok (hsecond.trans hbelow)) (.ok ?_) hs
  exact selected_eq hnames hsound (present backend s) (keys s)

end Listings

section Metadata

variable {σ : Type} {backend : BlobStore (StateM σ)} {Holds : σ → Prop} {keys : σ → List Key}
variable {entries : σ → List (Key × Option BlobMeta)} {provider : EncryptionProvider (StateM σ)}
variable {start headerSuffix : Key} {s : σ} {filter : ListFilter}

theorem filterMap_below (start : Key) (physical : List Key) :
    ((physical.filter fun key => decide (start ++ [] <+: key)).filterMap
      (stripKeyPrefix start)).filter (fun key => decide ([] <:+ key)) =
        physical.filterMap (stripKeyPrefix start) := by
  rw [List.filter_eq_self.mpr fun key _ => by simp, List.filterMap_filter]
  refine List.filterMap_congr fun key _ => ?_
  unfold stripKeyPrefix
  split <;> simp_all

/-- A blob whose header exists, as `list_with_metadata` collects it. -/
theorem exec_collectMetadata_found {store : EncryptedBlobStore (StateM σ)} {key : Key}
    {rest : List Key} {info : BlobMeta} {reader : Reader} (hsuffix : ¬store.headerSuffix <:+ key)
    (hmatch : filter.matchesBlob key none = true)
    (hheader : exec (store.inner.existsBlob (store.headerKey key)) s = (.ok true, s))
    (hdata : exec (store.inner.getWithMetadata key) s = (.ok (info, reader), s)) :
    exec (store.collectMetadata filter (key :: rest)) s =
      exec (do
        let others ← store.collectMetadata filter rest
        pure ({ info with key := key } :: others)) s := by
  rw [EncryptedBlobStore.collectMetadata, if_neg hsuffix, if_neg (by simp [hmatch]),
    exec_bind_ok (exec_attempt s _), hheader]
  dsimp only
  rw [exec_bind_ok (exec_attempt s _), hdata]

/-- A key that is passed over: a header, one the filter rejects, one without a header, or one
that disappeared. -/
theorem exec_collectMetadata_skipped {store : EncryptedBlobStore (StateM σ)} {key : Key}
    {rest : List Key} {header : Bool} (other : Key)
    (hheader : exec (store.inner.existsBlob (store.headerKey key)) s = (.ok header, s))
    (h : store.headerSuffix <:+ key ∨ filter.matchesBlob key none = false ∨ header = false ∨
      exec (store.inner.getWithMetadata key) s = (.error (.notFound other), s)) :
    exec (store.collectMetadata filter (key :: rest)) s =
      exec (store.collectMetadata filter rest) s := by
  rw [EncryptedBlobStore.collectMetadata]
  by_cases hsuffix : store.headerSuffix <:+ key
  · rw [if_pos hsuffix]
  rw [if_neg hsuffix]
  cases hmatch : filter.matchesBlob key none with
  | false => rw [if_pos (by rfl)]
  | true =>
      rw [if_neg (by simp), exec_bind_ok (exec_attempt s _), hheader]
      cases header with
      | false => rfl
      | true =>
          obtain h | h | h | hdata := h
          · exact absurd h hsuffix
          · rw [hmatch] at h
            cases h
          · cases h
          · dsimp only
            rw [exec_bind_ok (exec_attempt s _), hdata]

/-- Records collected above the prefix, and below it, where they come in the order of the keys. -/
def Collected (start : Key) (filter : ListFilter) (physical : List Key)
    (above below : List BlobMeta) : Prop :=
  above = below.filterMap (prefixRecord start filter) ∧
    (below.map BlobMeta.key).Sublist physical

theorem Collected.cons {physical : List Key} {above below : List BlobMeta}
    (h : Collected start filter physical above below) (info : BlobMeta) :
    Collected start filter (info.key :: physical)
      ((prefixRecord start filter info).toList ++ above) (info :: below) := by
  refine ⟨?_, h.2.cons_cons info.key⟩
  rw [List.filterMap_cons, h.1]
  cases prefixRecord start filter info <;> rfl

theorem prefixRecord_append (info : BlobMeta) (logical : Key)
    (hindependent : filter.MetadataIndependent) :
    prefixRecord start filter { info with key := start ++ logical } =
      if filter.matchesBlob logical none then some { info with key := logical } else none := by
  unfold prefixRecord
  dsimp only
  rw [stripKeyPrefix_append]
  dsimp only
  rw [hindependent logical _ none]

variable (hbackend : MapBackend backend Holds keys entries)
variable (hnames : PlainNames start headerSuffix)

include hbackend hnames

theorem mirrors_collectMetadata (hs : Holds s) (hsound : filter.SoundHint)
    (hindependent : filter.MetadataIndependent) {physical : List Key}
    (hphysical : ∀ key ∈ physical, ValidKey key) :
    Mirrors id Holds (Collected start filter physical)
      ((encryptedOverPrefix backend start provider headerSuffix).collectMetadata filter
        (physical.filterMap (stripKeyPrefix start)))
      ((encryptedStore backend provider headerSuffix).collectMetadata
        (combinedPrefixFilter start filter) physical) s := by
  induction physical with
  | nil => exact .pure ⟨rfl, List.Sublist.slnil⟩ hs
  | cons key rest ih =>
      rw [List.forall_mem_cons] at hphysical
      obtain ⟨hkey, hrest⟩ := hphysical
      have hcollected := ih hrest
      have hnext := hcollected.mono (R := Collected start filter (key :: rest))
        fun h => ⟨h.1, h.2.cons key⟩
      have hbelow : exec (backend.existsBlob (key ++ headerSuffix)) s =
          (.ok (present backend s (key ++ headerSuffix)), s) :=
        hbackend.exec_existsBlob hs (hnames.header_valid hkey)
      by_cases hinitial : start <+: key
      · obtain ⟨logical, rfl⟩ := hinitial
        have hlogical := hnames.valid_iff.mp hkey
        have habove := @exec_below_existsBlob σ backend Holds keys entries start headerSuffix s
          (logical ++ headerSuffix) hbackend hnames hs (hnames.header_valid hlogical)
        rw [← List.append_assoc] at habove
        rw [List.filterMap_cons, stripKeyPrefix_append]
        dsimp only
        by_cases hsuffix : headerSuffix <:+ logical
        · exact .congr (exec_collectMetadata_skipped [] habove (.inl hsuffix))
            (exec_collectMetadata_skipped [] hbelow (.inl (hnames.suffix_iff.mpr hsuffix))) hnext
        have hlong : ¬headerSuffix <:+ start ++ logical := fun h => hsuffix (hnames.suffix_iff.mp h)
        cases hheader : present backend s (start ++ logical ++ headerSuffix) with
        | false =>
            rw [hheader] at habove hbelow
            exact .congr (exec_collectMetadata_skipped [] habove (.inr (.inr (.inl rfl))))
              (exec_collectMetadata_skipped [] hbelow (.inr (.inr (.inl rfl)))) hnext
        | true =>
            rw [hheader] at habove hbelow
            obtain ⟨answer, hread, hnotFound⟩ := hbackend.getWithMetadata hs hkey
            have hbelowRead := exec_prefix_getWithMetadata hnames hlogical hread
            cases answer with
            | error e =>
                obtain ⟨other, rfl⟩ : ∃ other, e = .notFound other := by
                  have he := hnotFound e rfl
                  cases e <;> first | exact ⟨_, rfl⟩ | exact absurd he not_false
                exact .congr (exec_collectMetadata_skipped logical habove
                    (.inr (.inr (.inr hbelowRead))))
                  (exec_collectMetadata_skipped other hbelow (.inr (.inr (.inr hread)))) hnext
            | ok found =>
                obtain ⟨info, reader⟩ := found
                have hrecord := @prefixRecord_append start filter info logical hindependent
                cases hmatch : filter.matchesBlob logical none with
                | false =>
                    rw [hmatch, if_neg (by simp)] at hrecord
                    refine .congr (exec_collectMetadata_skipped [] habove (.inr (.inl hmatch))) rfl ?_
                    by_cases hhint : filter.prefixHint.getD [] <+: logical
                    · have hcombined : (combinedPrefixFilter start filter).matchesBlob
                          (start ++ logical) none = true := by
                        rw [combined_matches]
                        exact decide_eq_true hhint
                      refine .congr rfl (exec_collectMetadata_found hlong hcombined hbelow hread) ?_
                      refine hcollected.map_right fun h => ?_
                      have hcons := h.cons { info with key := start ++ logical }
                      rwa [hrecord] at hcons
                    · have hcombined : (combinedPrefixFilter start filter).matchesBlob
                          (start ++ logical) none = false := by
                        rw [combined_matches]
                        exact decide_eq_false hhint
                      exact .congr rfl (exec_collectMetadata_skipped [] hbelow
                        (.inr (.inl hcombined))) hnext
                | true =>
                    rw [hmatch, if_pos rfl] at hrecord
                    have hcombined : (combinedPrefixFilter start filter).matchesBlob
                        (start ++ logical) none = true := by
                      rw [combined_matches]
                      exact decide_eq_true (hsound.getD_isPrefix hmatch)
                    refine .congr (exec_collectMetadata_found hsuffix hmatch habove hbelowRead)
                      (exec_collectMetadata_found hlong hcombined hbelow hread) ?_
                    refine hcollected.bind fun above below t h ht => .pure ?_ ht
                    have hcons := h.cons { info with key := start ++ logical }
                    rwa [hrecord] at hcons
      · have hstrip : stripKeyPrefix start key = none := by
          rw [stripKeyPrefix, if_neg hinitial]
        rw [List.filterMap_cons, hstrip]
        exact .congr rfl (exec_collectMetadata_skipped [] hbelow
          (.inr (.inl (combined_not_matches hinitial none)))) hnext

omit hbackend hnames in
/-- Below the prefix the records come sorted, and stripping keeps them so. -/
theorem Collected.sorted {physical : List Key} {above below : List BlobMeta}
    (h : Collected start filter physical above below) (hsorted : physical.Pairwise (· ≤ ·)) :
    Collected start filter physical (sortByKey above) (sortByKey below) := by
  have hbelow : below.Pairwise fun a b => a.key ≤ b.key :=
    List.pairwise_map.mp (hsorted.sublist h.2)
  have habove : above.Pairwise fun a b => a.key ≤ b.key := by
    rw [h.1]
    refine hbelow.filterMap _ ?_
    intro a b hle x hx y hy
    unfold prefixRecord at hx hy
    cases ha : stripKeyPrefix start a.key with
    | none => simp [ha] at hx
    | some first =>
        cases hb : stripKeyPrefix start b.key with
        | none => simp [hb] at hy
        | some second =>
            rw [stripKeyPrefix_eq_some_iff.mp ha, stripKeyPrefix_eq_some_iff.mp hb] at hle
            simp only [ha, Option.ite_none_right_eq_some, Option.some.injEq] at hx
            simp only [hb, Option.ite_none_right_eq_some, Option.some.injEq] at hy
            obtain ⟨_, rfl⟩ := hx
            obtain ⟨_, rfl⟩ := hy
            show first ≤ second
            exact not_lt.mp fun hlt => not_lt.mpr hle (append_lt_append_left_iff.mpr hlt)
  rw [sortByKey, sortByKey, List.Pairwise.insertionSort_eq habove,
    List.Pairwise.insertionSort_eq hbelow]
  exact h

theorem mirrors_listWithMetadata (hs : Holds s) (hsound : filter.SoundHint)
    (hindependent : filter.MetadataIndependent) :
    Mirrors id Holds Eq
      ((encryptedOverPrefix backend start provider headerSuffix).listWithMetadata filter)
      ((prefixOverEncrypted backend start provider headerSuffix).listWithMetadata filter) s := by
  have hlist := exec_below_list hbackend start hs
  rw [filterMap_below] at hlist
  have hall := exec_all_list hbackend hs
  rw [List.filter_eq_self.mpr fun key _ => by simp] at hall
  have hencrypted : Mirrors id Holds (Collected start filter (keys s))
      ((encryptedOverPrefix backend start provider headerSuffix).listWithMetadata filter)
      ((encryptedStore backend provider headerSuffix).listWithMetadata
        (combinedPrefixFilter start filter)) s := by
    refine .congr (exec_bind_ok hlist) (exec_bind_ok hall) ?_
    refine (mirrors_collectMetadata hbackend hnames hs hsound hindependent
      (hbackend.keys_valid hs)).bind fun above below t h ht => .pure ?_ ht
    exact h.sorted (hbackend.keys_sorted hs)
  exact hencrypted.map_right fun h => h.1

end Metadata

section Walks

variable {σ S : Type} {backend : BlobStore (StateM σ)} {Holds : σ → Prop} {keys : σ → List Key}
variable {entries : σ → List (Key × Option BlobMeta)} {provider : EncryptionProvider (StateM σ)}
variable {start headerSuffix : Key} {s : σ} {key : Key} {info : Option BlobMeta}
variable {outer : BlobVisitor (StateM σ) S} {filter : ListFilter} {l : S}

/-- What both orders do with a blob of the prefix, once it is known whether it has a header. -/
def visitLogical (headerSuffix : Key) (filter : ListFilter) (outer : BlobVisitor (StateM σ) S)
    (headerExists : Bool) (key : Key) (info : Option BlobMeta) :
    Fallible (StateT S (StateM σ)) Bool :=
  if headerSuffix <:+ key then pure true
  else if headerExists && filter.matchesBlob key info then outer.visit key info
  else pure true

/-- The record as the prefix layer hands it on. -/
def strippedInfo (start : Key) (info : Option BlobMeta) : Option BlobMeta :=
  info.map fun record => { record with key := (stripKeyPrefix start record.key).getD [] }

theorem execLocal_bind_ok {α β : Type} {x : Fallible (StateT S (StateM σ)) α}
    {f : α → Fallible (StateT S (StateM σ)) β} {a : α} {l' : S} {t : σ}
    (h : execLocal x l s = ((.ok a, l'), t)) : execLocal (x >>= f) l s = execLocal (f a) l' t := by
  rw [execLocal_bind, h]

variable (hbackend : MapBackend backend Holds keys entries)
variable (hnames : PlainNames start headerSuffix)

include hbackend hnames

theorem visit_above (hs : Holds s) (hkey : ValidKey key) :
    execLocal ((PrefixBlobStore.visitor start (suffixFilter [])
      ((encryptedOverPrefix backend start provider headerSuffix).visitor filter outer)).visit
        (start ++ key) info) l s =
      execLocal (visitLogical headerSuffix filter outer
        (present backend s (start ++ (key ++ headerSuffix))) key (strippedInfo start info)) l s := by
  have hheader : execLocal (withLocal ((prefixStore backend start).existsBlob
      (key ++ headerSuffix)) : Fallible (StateT S (StateM σ)) Bool) l s =
        ((.ok (present backend s (start ++ (key ++ headerSuffix))), l), s) := by
    rw [execLocal_withLocal, exec_below_existsBlob hbackend hnames hs (hnames.header_valid hkey)]
  dsimp only [PrefixBlobStore.visitor]
  rw [stripKeyPrefix_append]
  dsimp only
  rw [if_pos (by simp), visitLogical]
  dsimp only [EncryptedBlobStore.visitor]
  by_cases hsuffix : headerSuffix <:+ key
  · rw [if_pos hsuffix, if_pos hsuffix]
  · rw [if_neg hsuffix, if_neg hsuffix]
    refine (execLocal_bind_ok hheader).trans ?_
    cases present backend s (start ++ (key ++ headerSuffix)) with
    | false => rfl
    | true =>
        show execLocal (if !filter.matchesBlob key (strippedInfo start info) then pure true
          else outer.visit key (strippedInfo start info)) l s = _
        cases filter.matchesBlob key (strippedInfo start info) <;> rfl

theorem visit_below (hs : Holds s) (hkey : ValidKey key) (hsound : filter.SoundHint) :
    execLocal (((encryptedStore backend provider headerSuffix).visitor
      (combinedPrefixFilter start filter) (PrefixBlobStore.visitor start filter outer)).visit
        (start ++ key) info) l s =
      execLocal (visitLogical headerSuffix filter outer
        (present backend s (start ++ (key ++ headerSuffix))) key (strippedInfo start info)) l s := by
  have hheader : execLocal (withLocal (backend.existsBlob (start ++ key ++ headerSuffix)) :
      Fallible (StateT S (StateM σ)) Bool) l s =
        ((.ok (present backend s (start ++ (key ++ headerSuffix))), l), s) := by
    rw [execLocal_withLocal, List.append_assoc,
      hbackend.exec_existsBlob hs (hnames.valid _ (hnames.header_valid hkey))]
  have hinner : execLocal ((PrefixBlobStore.visitor start filter outer).visit (start ++ key) info)
      l s = execLocal (if filter.matchesBlob key (strippedInfo start info) then
        outer.visit key (strippedInfo start info) else pure true) l s := by
    dsimp only [PrefixBlobStore.visitor]
    rw [stripKeyPrefix_append]
    rfl
  dsimp only [EncryptedBlobStore.visitor]
  rw [visitLogical]
  by_cases hsuffix : headerSuffix <:+ key
  · rw [if_pos hsuffix, if_pos (hnames.suffix_iff.mpr hsuffix)]
  · rw [if_neg hsuffix, if_neg fun h => hsuffix (hnames.suffix_iff.mp h)]
    refine (execLocal_bind_ok hheader).trans ?_
    rw [combined_matches]
    cases present backend s (start ++ (key ++ headerSuffix)) with
    | false => rfl
    | true =>
        by_cases hhint : filter.prefixHint.getD [] <+: key
        · rw [decide_eq_true hhint]
          exact hinner
        · have hmatch : filter.matchesBlob key (strippedInfo start info) = false :=
            eq_false_of_ne_true fun h => hhint (hsound.getD_isPrefix h)
          rw [decide_eq_false hhint, hmatch]
          rfl

/-- A blob outside the prefix is passed over. -/
theorem visit_foreign (hs : Holds s) (hkey : ValidKey key) (hforeign : ¬start <+: key) :
    execLocal (((encryptedStore backend provider headerSuffix).visitor
      (combinedPrefixFilter start filter) (PrefixBlobStore.visitor start filter outer)).visit
        key info) l s = ((.ok true, l), s) := by
  have hheader : execLocal (withLocal (backend.existsBlob (key ++ headerSuffix)) :
      Fallible (StateT S (StateM σ)) Bool) l s =
        ((.ok (present backend s (key ++ headerSuffix)), l), s) := by
    rw [execLocal_withLocal, hbackend.exec_existsBlob hs (hnames.header_valid hkey)]
  dsimp only [EncryptedBlobStore.visitor]
  split
  · rfl
  · refine (execLocal_bind_ok hheader).trans ?_
    rw [combined_not_matches hforeign]
    cases present backend s (key ++ headerSuffix) <;> rfl

/-- The caller's visitor keeps what the backend holds. -/
def BlobVisitor.Keeps {σ S : Type} (Holds : σ → Prop) (visitor : BlobVisitor (StateM σ) S) : Prop :=
  ∀ key info l s, Holds s → Holds (execLocal (visitor.visit key info) l s).2

/-- Walking the entries of the prefix and walking all entries come to the same. -/
theorem visitEach_same (hs : Holds s) (hsound : filter.SoundHint) (houter : outer.Keeps Holds)
    {visited : List (Key × Option BlobMeta)} (hvisited : ∀ entry ∈ visited, ValidKey entry.1) :
    execLocal (visitEach (PrefixBlobStore.visitor start (suffixFilter [])
      ((encryptedOverPrefix backend start provider headerSuffix).visitor filter outer))
      (visited.filter fun entry =>
        (combinedPrefixFilter start (suffixFilter [])).matchesBlob entry.1 none)) l s =
      execLocal (visitEach ((encryptedStore backend provider headerSuffix).visitor
        (combinedPrefixFilter start filter) (PrefixBlobStore.visitor start filter outer))
        visited) l s ∧
    Holds (execLocal (visitEach ((encryptedStore backend provider headerSuffix).visitor
      (combinedPrefixFilter start filter) (PrefixBlobStore.visitor start filter outer))
      visited) l s).2 := by
  induction visited generalizing l s with
  | nil => exact ⟨rfl, hs⟩
  | cons entry rest ih =>
      rw [List.forall_mem_cons] at hvisited
      obtain ⟨physical, info⟩ := entry
      obtain ⟨hphysical, hrest⟩ := hvisited
      by_cases hinitial : start <+: physical
      · obtain ⟨logical, rfl⟩ := hinitial
        have hlogical := hnames.valid_iff.mp hphysical
        rw [List.filter_cons_of_pos (by rw [combined_matches]; simp), visitEach, visitEach,
          execLocal_bind, execLocal_bind, visit_above hbackend hnames hs hlogical,
          visit_below hbackend hnames hs hlogical hsound]
        have hkeeps : Holds (execLocal (visitLogical headerSuffix filter outer
            (present backend s (start ++ (logical ++ headerSuffix))) logical
            (strippedInfo start info)) l s).2 := by
          unfold visitLogical
          split
          · exact hs
          · split
            · exact houter _ _ l s hs
            · exact hs
        cases hvisit : execLocal (visitLogical headerSuffix filter outer
            (present backend s (start ++ (logical ++ headerSuffix))) logical
            (strippedInfo start info)) l s with
        | mk r t =>
            rw [hvisit] at hkeeps
            obtain ⟨r, l'⟩ := r
            cases r with
            | error e => exact ⟨rfl, hkeeps⟩
            | ok more =>
                cases more with
                | true => exact ih hkeeps hrest
                | false => exact ⟨rfl, hkeeps⟩
      · rw [List.filter_cons_of_neg (by rw [combined_not_matches hinitial]; simp)]
        have hskip := @visit_foreign σ S backend Holds keys entries provider start headerSuffix s
          physical info outer filter l hbackend hnames hs hphysical hinitial
        have hright : execLocal (visitEach ((encryptedStore backend provider headerSuffix).visitor
            (combinedPrefixFilter start filter) (PrefixBlobStore.visitor start filter outer))
            ((physical, info) :: rest)) l s =
            execLocal (visitEach ((encryptedStore backend provider headerSuffix).visitor
              (combinedPrefixFilter start filter) (PrefixBlobStore.visitor start filter outer))
              rest) l s := execLocal_bind_ok hskip
        rw [hright]
        exact ih hs hrest

theorem visit_same (hs : Holds s) (hsound : filter.SoundHint) (houter : outer.Keeps Holds) :
    execLocal ((encryptedOverPrefix backend start provider headerSuffix).visit filter outer) l s =
      execLocal ((prefixOverEncrypted backend start provider headerSuffix).visit filter outer) l s ∧
    Holds (execLocal ((prefixOverEncrypted backend start provider headerSuffix).visit filter outer)
      l s).2 := by
  have habove : execLocal ((encryptedOverPrefix backend start provider headerSuffix).visit filter
      outer) l s = _ :=
    hbackend.visit hs (combinedPrefixFilter_sound start (suffixFilter []))
      (combinedPrefixFilter_metadataIndependent start (suffixFilter []))
  have hbelow : execLocal ((prefixOverEncrypted backend start provider headerSuffix).visit filter
      outer) l s = _ :=
    hbackend.visit hs (suffixFilter_sound []) (suffixFilter_metadataIndependent [])
  have hall : ((entries s).filter fun entry => (suffixFilter []).matchesBlob entry.1 none) =
      entries s := List.filter_eq_self.mpr fun entry _ => by simp
  rw [hall] at hbelow
  rw [habove, hbelow]
  exact visitEach_same hbackend hnames hs hsound houter (hbackend.entries_valid hs)

end Walks

section Stacks

variable {σ : Type} {backend : BlobStore (StateM σ)} {Holds : σ → Prop} {keys : σ → List Key}
variable {entries : σ → List (Key × Option BlobMeta)} {provider : EncryptionProvider (StateM σ)}
variable {start headerSuffix : Key} {s : σ}

/-- Listings and walks take a filter whose hint is sound and that looks at keys only; a visitor
keeps what the backend holds. -/
def StoreCall.Comparable (Holds : σ → Prop) : StoreCall σ → Prop
  | .list filter => filter.SoundHint ∧ filter.MetadataIndependent
  | .visit filter visitor _ => filter.SoundHint ∧ filter.MetadataIndependent ∧ visitor.Keeps Holds
  | .listWithMetadata filter => filter.SoundHint ∧ filter.MetadataIndependent
  | _ => True

/-- What a call shows of mirrored results is the same up to wording. -/
theorem Mirrors.observed {α : Type} {R : α → α → Prop} {x y : Fallible (StateM σ) α}
    (h : Mirrors id Holds R x y s) {f : α → α} (hR : ∀ {a b}, R a b → f a = f b)
    (observe : Except BlobStorageError α → Observation) :
    observe (unwordedResult f (exec x s).1) = observe (unwordedResult f (exec y s).1) ∧
      (exec x s).2 = (exec y s).2 ∧ Holds (exec y s).2 := by
  obtain ⟨hresult, hstate, hholds⟩ := h
  refine ⟨congrArg observe ?_, hstate, hstate ▸ hholds⟩
  generalize (exec x s).1 = r at hresult ⊢
  generalize (exec y s).1 = r' at hresult ⊢
  cases hresult with
  | ok hab => exact congrArg Except.ok (hR hab)
  | error he => exact congrArg Except.error he

variable (hbackend : MapBackend backend Holds keys entries)
variable (hprovider : HarmlessProvider Holds provider) (hnames : PlainNames start headerSuffix)

include hbackend hprovider hnames

/-- One call, made to the two stacks in one state. -/
theorem run_same (hs : Holds s) {call : StoreCall σ} (hcall : call.Comparable Holds) :
    (call.run (encryptedOverPrefix backend start provider headerSuffix).toBlobStore s).1.unworded =
      (call.run (prefixOverEncrypted backend start provider headerSuffix).toBlobStore s).1.unworded ∧
    (call.run (encryptedOverPrefix backend start provider headerSuffix).toBlobStore s).2 =
      (call.run (prefixOverEncrypted backend start provider headerSuffix).toBlobStore s).2 ∧
    Holds (call.run (prefixOverEncrypted backend start provider headerSuffix).toBlobStore s).2 := by
  cases call with
  | put blobs =>
      exact (mirrors_put hbackend hprovider hnames hs blobs).observed (fun h => h) .put
  | delete batch => exact (mirrors_delete hbackend hnames hs batch).observed (fun h => h) .delete
  | get key => exact (mirrors_get hbackend hprovider hnames hs key).observed (fun h => h) .get
  | existsBlob key =>
      exact (mirrors_existsBlob hbackend hnames hs key).observed (fun h => h) .existsBlob
  | getWithMetadata key =>
      exact (mirrors_getWithMetadata hbackend hprovider hnames hs key).observed
        (fun h => congrArg₂ Prod.mk h.1 h.2) .getWithMetadata
  | list filter => exact (mirrors_list hbackend hnames hs hcall.1).observed (fun h => h) .list
  | visit filter visitor l =>
      obtain ⟨hsame, hholds⟩ := @visit_same σ _ backend Holds keys entries provider start
        headerSuffix s visitor filter l hbackend hnames hs hcall.1 hcall.2.2
      refine ⟨?_, congrArg (fun r : (Except BlobStorageError Unit × _) × σ => r.2) hsame, hholds⟩
      exact congrArg (fun r : (Except BlobStorageError Unit × _) × σ =>
        Observation.visit (unwordedResult id r.1.1) r.1.2) hsame
  | listWithMetadata filter =>
      exact (mirrors_listWithMetadata hbackend hnames hs hcall.1 hcall.2).observed (fun h => h)
        .listWithMetadata

/-- Any calls made to the one stack and to the other show the same but for the wording of errors,
and leave the backend in the same state. -/
theorem layers_commute (hs : Holds s) (calls : List (StoreCall σ))
    (hcalls : ∀ call ∈ calls, call.Comparable Holds) :
    (observeCalls (doBuild backend [.keyPrefix start, .encryption provider headerSuffix])
        calls s).1.map Observation.unworded =
      (observeCalls (doBuild backend [.encryption provider headerSuffix, .keyPrefix start])
        calls s).1.map Observation.unworded ∧
    (observeCalls (doBuild backend [.keyPrefix start, .encryption provider headerSuffix])
        calls s).2 =
      (observeCalls (doBuild backend [.encryption provider headerSuffix, .keyPrefix start])
        calls s).2 := by
  induction calls generalizing s with
  | nil => exact ⟨rfl, rfl⟩
  | cons call rest ih =>
      rw [List.forall_mem_cons] at hcalls
      obtain ⟨hshown, hstate, hholds⟩ := run_same hbackend hprovider hnames hs hcalls.1
      obtain ⟨hothers, hend⟩ := ih hholds hcalls.2
      rw [observeCalls_cons, observeCalls_cons, List.map_cons, List.map_cons]
      refine ⟨congrArg₂ List.cons hshown ?_, ?_⟩
      · refine Eq.trans ?_ hothers
        exact congrArg (fun t => List.map _ (observeCalls _ rest t).1) hstate
      · refine Eq.trans ?_ hend
        exact congrArg (fun t => (observeCalls _ rest t).2) hstate

end Stacks

section Samples

/-- The two orders over the map backend, with the prefix `p/` and the byte-shift provider. -/
def sampleOrders (headerSuffix : Key) : BlobStore (StateM MapState) × BlobStore (StateM MapState) :=
  let provider := RekeyableShiftEncryption.toProvider ⟨1, 0⟩
  (doBuild (MapBlobStore.mk true).toBlobStore
      [.keyPrefix ['p', '/'], .encryption provider headerSuffix],
    doBuild (MapBlobStore.mk true).toBlobStore
      [.encryption provider headerSuffix, .keyPrefix ['p', '/']])

/-- A blob of others, outside the prefix. -/
def outsideState : MapState := MapState.empty.write ['z'] [7]

/-- A visitor that goes on to the end. -/
def patientVisitor : BlobVisitor (StateM MapState) Unit := ⟨fun _ _ => pure true⟩

/-- A rejected key is named as the layer saw that rejected it; and under a suffix with a backslash
encryption fails on the blobs of others, if it gets to see them. -/
theorem layers_do_not_commute_literally :
    (observeCalls (sampleOrders ['.', 'h']).1 [.get ['x', '.', 'h']] MapState.empty).1 ≠
        (observeCalls (sampleOrders ['.', 'h']).2 [.get ['x', '.', 'h']] MapState.empty).1 ∧
      (observeCalls (sampleOrders ['\\']).1 [.visit (suffixFilter []) patientVisitor ()]
          outsideState).1.map Observation.unworded ≠
        (observeCalls (sampleOrders ['\\']).2 [.visit (suffixFilter []) patientVisitor ()]
          outsideState).1.map Observation.unworded := by
  refine ⟨fun h => ?_, fun h => ?_⟩
  · have hshown := Observation.get.inj (List.cons.inj h).1
    revert hshown
    decide
  · have hshown := (Observation.visit.inj (List.cons.inj h).1).2.1
    revert hshown
    decide

def orderedCalls : List (StoreCall MapState) :=
  [.put [BlobInput.new ['x'] (Reader.ofBytes [1, 2])], .get ['x'], .existsBlob ['y'],
    .list (prefixFilter ['x']), .delete [['x', '.', 'h']]]

theorem layers_commute_sample :
    (observeCalls (sampleOrders ['.', 'h']).1 orderedCalls outsideState).1.map
        Observation.unworded =
      (observeCalls (sampleOrders ['.', 'h']).2 orderedCalls outsideState).1.map
        Observation.unworded ∧
    (observeCalls (sampleOrders ['.', 'h']).1 orderedCalls outsideState).2 =
      (observeCalls (sampleOrders ['.', 'h']).2 orderedCalls outsideState).2 := by
  have hnames : PlainNames (['p'] ++ [keySeparator]) ['.', 'h'] :=
    .of_directory (by decide) (by decide) (by decide)
  refine layers_commute (MapBlobStore.mapBackend ⟨true⟩) ⟨fun _ _ h => h, fun _ _ _ h => h⟩ hnames
    (by unfold MapState.OverValidKeys; decide) orderedCalls ?_
  intro call hcall
  simp only [orderedCalls, List.mem_cons, List.not_mem_nil, or_false] at hcall
  obtain rfl | rfl | rfl | rfl | rfl := hcall
  · trivial
  · trivial
  · trivial
  · exact ⟨prefixFilter_sound ['x'], fun _ _ _ => rfl⟩
  · trivial

end Samples

end BlobStorage
