import BlobStorage.Isolation.MapLike
import BlobStorage.Browsing.Shown
import BlobStorage.Calls
import BlobStorage.Failure.BatchReports

/-!
# Tenants under their own prefixes

Two prefix layers over one shared backend, each with the cleanup layer on top of it, used in
any order. A prefix layer only ever reaches the keys that start with its prefix, so where
neither prefix extends the other, what one tenant does never shows to the other.
-/

namespace BlobStorage

open Fallible Confinement

/-- The keys of a prefix layer. -/
def InPrefix (start : Key) : Key → Prop := fun key => start <+: key

/-- No key extends two prefixes of which neither extends the other. -/
theorem InPrefix.disjoint {first second : Key} (h : ¬first <+: second) (h' : ¬second <+: first)
    {key : Key} (hfirst : InPrefix first key) : ¬InPrefix second key := by
  intro hsecond
  obtain hle | hle := Nat.le_total first.length second.length
  · exact h (List.prefix_of_prefix_length_le hfirst hsecond hle)
  · exact h' (List.prefix_of_prefix_length_le hsecond hfirst hle)

theorem combinedPrefixFilter_within (start : Key) (filter : ListFilter) :
    (combinedPrefixFilter start filter).Within (InPrefix start) := by
  intro key info hmatch
  have hlong : start ++ filter.prefixHint.getD [] <+: key := of_decide_eq_true hmatch
  exact (List.prefix_append start _).trans hlong

namespace PrefixBlobStore

variable {σ : Type} {Agrees : (Key → Prop) → σ → σ → Prop} {P : Key → Prop}
variable {store : PrefixBlobStore (StateM σ)}

theorem confined_mapErr {α : Type} {x : Fallible (StateM σ) α}
    (f : BlobStorageError → BlobStorageError) (hx : Confined Agrees P x) :
    Confined Agrees P (mapErr f x) where
  result hagrees := by
    rw [exec_mapErr, exec_mapErr, hx.result hagrees]
  state hagrees := by
    rw [exec_mapErr, exec_mapErr]
    exact hx.state hagrees
  frame s := by
    rw [exec_mapErr]
    exact hx.frame s

theorem prefixedKey_eq_ok {start key physical : Key} (h : prefixedKey start key = .ok physical) :
    physical = start ++ key := by
  unfold prefixedKey at h
  cases hlogical : validateBlobKey key with
  | error e => simp [hlogical, bind, Except.bind] at h
  | ok _ =>
      cases hphysical : validateBlobKey (start ++ key) with
      | error e => simp [hlogical, hphysical, bind, Except.bind] at h
      | ok _ =>
          simp only [hlogical, hphysical, bind, Except.bind, pure, Except.pure] at h
          exact (Except.ok.inj h).symm

/-- What follows the check of a key only gets to see the prefixed key. -/
theorem confined_prefixed {α : Type} (h : Separation Agrees) {key : Key}
    {f : Key → Fallible (StateM σ) α} (hf : Confined Agrees P (f (store.keyPrefix ++ key))) :
    Confined Agrees P (store.prefixed key >>= f) := by
  refine .bind h (.of_answer h fun s => exec_prefixed_eq store key s) ?_
  rintro physical ⟨s, hprefixed⟩
  rw [exec_prefixed_eq] at hprefixed
  rw [prefixedKey_eq_ok hprefixed]
  exact hf

theorem confined_prefixedAll {α : Type} (h : Separation Agrees) {keys : List Key}
    {f : List Key → Fallible (StateM σ) α}
    (hf : Confined Agrees P (f (keys.map (store.keyPrefix ++ ·)))) :
    Confined Agrees P (store.prefixedAll keys >>= f) := by
  have hkeys : ∀ keys : List Key, Confined Agrees P (store.prefixedAll keys) := by
    intro keys
    induction keys with
    | nil => exact .pure h []
    | cons key rest ih =>
        exact confined_prefixed h (.bind h ih fun others _ => .pure h _)
  refine .bind h (hkeys keys) ?_
  rintro physical ⟨s, hphysical⟩
  obtain hall | ⟨e, _, hrefused⟩ := exec_prefixedAll_cases store keys s
  · rw [hall] at hphysical
    obtain rfl := Except.ok.inj hphysical
    exact hf
  · rw [hrefused] at hphysical
    cases hphysical

theorem reaches_visitor {S : Type} (h : Separation Agrees) {outer : BlobVisitor (StateM σ) S}
    (houter : outer.Reaches Agrees P) (start : Key) (filter : ListFilter) :
    (visitor start filter outer).Reaches Agrees P := by
  intro key info
  unfold visitor
  dsimp only
  cases stripKeyPrefix start key with
  | none => exact .pure h true
  | some logical =>
      dsimp only
      split
      · exact houter logical _
      · exact .pure h true

variable [Clock (StateM σ)]

/-- The layer over a map-like store reaches the keys with its prefix and no others, whatever
it is asked for. -/
theorem confined_put (h : MapLike Agrees store.inner) (blobs : List BlobInput) :
    Confined Agrees (InPrefix store.keyPrefix) (store.put blobs) := by
  refine confined_prefixedAll h.partition ?_
  rw [entriesOf_prefixed]
  refine .bind h.partition (h.put ?_) fun _ _ => .pure h.partition _
  intro blob hblob
  obtain ⟨input, _, rfl⟩ := List.mem_map.mp hblob
  exact List.prefix_append _ _

theorem confined_get (h : MapLike Agrees store.inner) (key : Key) :
    Confined Agrees (InPrefix store.keyPrefix) (store.get key) :=
  confined_prefixed h.partition (confined_mapErr _ (h.get (List.prefix_append _ _)))

theorem confined_delete (h : MapLike Agrees store.inner) (keys : List Key) :
    Confined Agrees (InPrefix store.keyPrefix) (store.delete keys) := by
  refine confined_prefixedAll h.partition (confined_mapErr _ (h.delete ?_))
  intro key hkey
  obtain ⟨logical, _, rfl⟩ := List.mem_map.mp hkey
  exact List.prefix_append _ _

theorem confined_existsBlob (h : MapLike Agrees store.inner) (key : Key) :
    Confined Agrees (InPrefix store.keyPrefix) (store.existsBlob key) :=
  confined_prefixed h.partition (confined_mapErr _ (h.existsBlob (List.prefix_append _ _)))

theorem confined_getWithMetadata (h : MapLike Agrees store.inner) (key : Key) :
    Confined Agrees (InPrefix store.keyPrefix) (store.getWithMetadata key) := by
  refine confined_prefixed h.partition ?_
  refine .bind h.partition (confined_mapErr _ (h.getWithMetadata (List.prefix_append _ _))) ?_
  intro answer _
  exact .pure h.partition _

theorem confined_list (h : MapLike Agrees store.inner) (filter : ListFilter) :
    Confined Agrees (InPrefix store.keyPrefix) (store.list filter) :=
  .bind h.partition
    (h.list (combinedPrefixFilter_sound _ filter) (combinedPrefixFilter_within _ filter))
    fun _ _ => .pure h.partition _

theorem confined_visit {S : Type} (h : MapLike Agrees store.inner) (filter : ListFilter)
    {outer : BlobVisitor (StateM σ) S} (houter : outer.Reaches Agrees (InPrefix store.keyPrefix)) :
    ConfinedLocal Agrees (InPrefix store.keyPrefix) (store.visit filter outer) :=
  h.visit (combinedPrefixFilter_sound _ filter) (combinedPrefixFilter_within _ filter)
    (reaches_visitor h.partition houter _ filter)

theorem confined_listWithMetadata (h : MapLike Agrees store.inner) (filter : ListFilter) :
    Confined Agrees (InPrefix store.keyPrefix) (store.listWithMetadata filter) :=
  .bind h.partition
    (h.listWithMetadata (combinedPrefixFilter_sound _ filter)
      (combinedPrefixFilter_within _ filter))
    fun _ _ => .pure h.partition _

/-- `BlobCleanup` with the layer below it, as each tenant configures it. -/
def withCleanup (store : PrefixBlobStore (StateM σ)) (predicate : CleanupPredicate)
    (batchSize : Nat) : BlobCleanup (StateM σ) :=
  { inner := store.toBlobStore, predicate, batchSize }

variable {predicate : CleanupPredicate} {batchSize : Nat}

theorem confined_flush (h : MapLike Agrees store.inner) :
    ConfinedLocal Agrees (InPrefix store.keyPrefix)
      (store.withCleanup predicate batchSize).flush := by
  refine .bind h.partition (.getLocal h.partition) fun progress => ?_
  split
  · exact .pure h.partition ()
  · refine .bind h.partition (.withLocal (confined_delete h progress.batch)) fun _ => ?_
    exact .setLocal h.partition _

theorem reaches_cleanupVisitor (h : MapLike Agrees store.inner) :
    (store.withCleanup predicate batchSize).visitor.Reaches Agrees
      (InPrefix store.keyPrefix) := by
  intro key info
  refine .bind h.partition (.performLocal (h.utcNow _)) fun now => ?_
  split
  · refine .bind h.partition (.getLocal h.partition) fun progress => ?_
    refine .bind h.partition (.setLocal h.partition _) fun _ => ?_
    split
    · exact .bind h.partition (confined_flush h) fun _ => .pure h.partition true
    · exact .pure h.partition true
  · exact .pure h.partition true

theorem confined_sweep (h : MapLike Agrees store.inner) :
    Confined Agrees (InPrefix store.keyPrefix)
      (store.withCleanup predicate batchSize).sweep := by
  refine .bind h.partition (.scopeLocal (.bind h.partition ?_ fun _ => confined_flush h) _)
    fun _ _ => .pure h.partition _
  exact confined_visit h _ (reaches_cleanupVisitor h)

theorem confined_cleanup (h : MapLike Agrees store.inner) :
    Confined Agrees (InPrefix store.keyPrefix)
      (store.withCleanup predicate batchSize).cleanup := by
  unfold BlobCleanup.cleanup
  split
  · exact .bind h.partition (confined_sweep h) fun _ _ => .pure h.partition _
  · exact .pure h.partition _

end PrefixBlobStore

section Tenants

inductive Tenant where
  | first
  | second
  deriving DecidableEq, Repr

/-- A call of a tenant, to its prefix layer or to the cleanup layer above it. -/
inductive TenantCall (σ : Type) : Type 1 where
  | store (call : StoreCall σ)
  | cleanup (predicate : CleanupPredicate) (batchSize : Nat)

variable {σ : Type} [Clock (StateM σ)]

def TenantCall.run (store : PrefixBlobStore (StateM σ)) (s : σ) :
    TenantCall σ → Observation × σ
  | .store call => call.run store.toBlobStore s
  | .cleanup predicate batchSize =>
      (exec (store.withCleanup predicate batchSize).cleanup s).map Observation.cleanup id

/-- A visitor of the tenant's own works with the backend through the tenant's keys, if at all. -/
def TenantCall.Own (Agrees : (Key → Prop) → σ → σ → Prop) (P : Key → Prop) :
    TenantCall σ → Prop
  | .store (.visit _ visitor _) => visitor.Reaches Agrees P
  | _ => True

/-- The calls of both tenants in the order in which they are made, each with what it shows. -/
def runTenants (stores : Tenant → PrefixBlobStore (StateM σ)) :
    List (Tenant × TenantCall σ) → σ → List (Tenant × Observation)
  | [], _ => []
  | (tenant, call) :: rest, s =>
      (tenant, (call.run (stores tenant) s).1) ::
        runTenants stores rest (call.run (stores tenant) s).2

variable {Agrees : (Key → Prop) → σ → σ → Prop}

/-- One call shows the same in states that agree on the tenant's keys, leaves such states, and
leaves the keys of others alone. -/
theorem TenantCall.run_confined {store : PrefixBlobStore (StateM σ)}
    (h : MapLike Agrees store.inner) {call : TenantCall σ}
    (hown : call.Own Agrees (InPrefix store.keyPrefix)) :
    (∀ {s t}, Agrees (InPrefix store.keyPrefix) s t →
      (call.run store s).1 = (call.run store t).1 ∧
        Agrees (InPrefix store.keyPrefix) (call.run store s).2 (call.run store t).2) ∧
      ∀ s, Agrees (outside (InPrefix store.keyPrefix)) s (call.run store s).2 := by
  have hcall : ∀ {α : Type} {x : Fallible (StateM σ) α} (f : Except BlobStorageError α → Observation),
      Confined Agrees (InPrefix store.keyPrefix) x →
      (∀ {s t}, Agrees (InPrefix store.keyPrefix) s t →
        f (exec x s).1 = f (exec x t).1 ∧
          Agrees (InPrefix store.keyPrefix) (exec x s).2 (exec x t).2) ∧
        ∀ s, Agrees (outside (InPrefix store.keyPrefix)) s (exec x s).2 :=
    fun f hx => ⟨fun hagrees => ⟨congrArg f (hx.result hagrees), hx.state hagrees⟩, hx.frame⟩
  cases call with
  | cleanup predicate batchSize => exact hcall .cleanup (PrefixBlobStore.confined_cleanup h)
  | store call =>
      cases call with
      | put blobs => exact hcall .put (PrefixBlobStore.confined_put h blobs)
      | delete keys => exact hcall .delete (PrefixBlobStore.confined_delete h keys)
      | get key => exact hcall .get (PrefixBlobStore.confined_get h key)
      | existsBlob key => exact hcall .existsBlob (PrefixBlobStore.confined_existsBlob h key)
      | getWithMetadata key =>
          exact hcall .getWithMetadata (PrefixBlobStore.confined_getWithMetadata h key)
      | list filter => exact hcall .list (PrefixBlobStore.confined_list h filter)
      | visit filter visitor l =>
          have hvisit := PrefixBlobStore.confined_visit h filter hown
          exact ⟨fun hagrees => ⟨congrArg
            (fun r : Except BlobStorageError Unit × _ => Observation.visit r.1 r.2)
            (hvisit.result l hagrees), hvisit.state l hagrees⟩, hvisit.frame l⟩
      | listWithMetadata filter =>
          exact hcall .listWithMetadata (PrefixBlobStore.confined_listWithMetadata h filter)

/-- From states that agree on the second tenant's keys, the run with the first tenant's calls
and the run without them show the second tenant the same. -/
theorem runTenants_second {stores : Tenant → PrefixBlobStore (StateM σ)}
    (h : ∀ tenant, MapLike Agrees (stores tenant).inner)
    (hdisjoint : ∀ key, InPrefix (stores .second).keyPrefix key →
      ¬InPrefix (stores .first).keyPrefix key) {calls : List (Tenant × TenantCall σ)}
    (hown : ∀ call ∈ calls, call.2.Own Agrees (InPrefix (stores call.1).keyPrefix)) {s t : σ}
    (hagrees : Agrees (InPrefix (stores .second).keyPrefix) s t) :
    (runTenants stores calls s).filter (fun shown => decide (shown.1 = Tenant.second)) =
      runTenants stores (calls.filter fun call => decide (call.1 = Tenant.second)) t := by
  induction calls generalizing s t with
  | nil => rfl
  | cons call rest ih =>
      rw [List.forall_mem_cons] at hown
      obtain ⟨tenant, call⟩ := call
      obtain ⟨hsame, hframe⟩ := TenantCall.run_confined (h tenant) hown.1
      cases tenant with
      | first =>
          have hpartition := (h .first).partition
          have hnext : Agrees (InPrefix (stores .second).keyPrefix)
              (call.run (stores .first) s).2 t :=
            hpartition.trans (hpartition.mono hdisjoint (hpartition.symm (hframe s))) hagrees
          exact ih hown.2 hnext
      | second =>
          obtain ⟨hshown, hnext⟩ := hsame hagrees
          have hrest := ih hown.2 hnext
          rw [runTenants, List.filter_cons_of_pos (by simp), List.filter_cons_of_pos (by simp),
            runTenants, hrest, hshown]

/-- Over one map-like backend, with prefixes of which neither extends the other, whatever the
first tenant does leaves what the second tenant sees as it would be without the first. -/
theorem tenants_are_isolated {backend : BlobStore (StateM σ)} (h : MapLike Agrees backend)
    {firstPrefix secondPrefix : Key} (hfirst : ¬firstPrefix <+: secondPrefix)
    (hsecond : ¬secondPrefix <+: firstPrefix) (calls : List (Tenant × TenantCall σ))
    (hown : ∀ call ∈ calls, call.2.Own Agrees
      (InPrefix (if call.1 = .first then firstPrefix else secondPrefix))) (s : σ) :
    (runTenants (fun tenant => PrefixBlobStore.mk backend
        (if tenant = .first then firstPrefix else secondPrefix)) calls s).filter
        (fun shown => decide (shown.1 = Tenant.second)) =
      runTenants (fun tenant => PrefixBlobStore.mk backend
        (if tenant = .first then firstPrefix else secondPrefix))
        (calls.filter fun call => decide (call.1 = Tenant.second)) s := by
  apply runTenants_second
  · exact fun _ => h
  · intro key hkey
    exact InPrefix.disjoint hsecond hfirst hkey
  · exact hown
  · exact h.partition.refl _ s

/-- A shared map: the first tenant stores and cleans up while the second stores and lists. -/
def sharedCalls : List (Tenant × TenantCall MapState) :=
  [(.first, .store (.put [BlobInput.new ['x'] (Reader.ofBytes [1])])),
    (.second, .store (.put [BlobInput.new ['x'] (Reader.ofBytes [2])])),
    (.first, .cleanup (fun _ _ => true) 1),
    (.second, .store (.list (suffixFilter [])))]

theorem tenants_are_isolated_shared :
    (runTenants (fun tenant => PrefixBlobStore.mk (MapBlobStore.mk true).toBlobStore
        (if tenant = .first then ['a', '/'] else ['b'])) sharedCalls MapState.empty).filter
        (fun shown => decide (shown.1 = Tenant.second)) =
      [(.second, .put (.ok ⟨[BlobMeta.mk ['x'] 1 0 none]⟩)), (.second, .list (.ok [['x']]))] := by
  refine (tenants_are_isolated (MapBlobStore.mapLike _) (by decide) (by decide) sharedCalls
    ?_ MapState.empty).trans rfl
  intro call hcall
  simp only [sharedCalls, List.mem_cons, List.not_mem_nil, or_false] at hcall
  obtain rfl | rfl | rfl | rfl := hcall <;> trivial

end Tenants

end BlobStorage
