import BlobStorage.Backend.Map
import BlobStorage.Library.Confinement

/-!
# Backends that keep keys apart

A map-like backend has one place for each key: a request about some keys is confined to
their places, and a listing is confined to the keys that its filter can accept. The map
backend is one, whether it uses the filter's hint or not.
-/

namespace BlobStorage

open Fallible Confinement

/-- Every key the filter can accept is in `P`. -/
def ListFilter.Within (filter : ListFilter) (P : Key → Prop) : Prop :=
  ∀ key info, filter.matchesBlob key info = true → P key

/-- Whatever it is shown, the visitor only reaches the keys in `P`. -/
def BlobVisitor.Reaches {σ S : Type} (Agrees : (Key → Prop) → σ → σ → Prop) (P : Key → Prop)
    (visitor : BlobVisitor (StateM σ) S) : Prop :=
  ∀ key info, ConfinedLocal Agrees P (visitor.visit key info)

/-- `Agrees P` compares what two states hold under the keys in `P`. -/
structure MapLike {σ : Type} [Clock (StateM σ)] (Agrees : (Key → Prop) → σ → σ → Prop)
    (store : BlobStore (StateM σ)) : Prop where
  partition : Separation Agrees
  utcNow : ∀ P, Confined Agrees P (perform Clock.utcNow : Fallible (StateM σ) DateTime)
  put : ∀ {P blobs}, (∀ blob ∈ blobs, P blob.key) → Confined Agrees P (store.put blobs)
  get : ∀ {P key}, P key → Confined Agrees P (store.get key)
  delete : ∀ {P keys}, (∀ key ∈ keys, P key) → Confined Agrees P (store.delete keys)
  existsBlob : ∀ {P key}, P key → Confined Agrees P (store.existsBlob key)
  getWithMetadata : ∀ {P key}, P key → Confined Agrees P (store.getWithMetadata key)
  list : ∀ {P filter}, filter.SoundHint → filter.Within P → Confined Agrees P (store.list filter)
  visit : ∀ {P} {S : Type} {filter} {visitor : BlobVisitor (StateM σ) S}, filter.SoundHint →
    filter.Within P → visitor.Reaches Agrees P → ConfinedLocal Agrees P (store.visit filter visitor)
  listWithMetadata : ∀ {P filter}, filter.SoundHint → filter.Within P →
    Confined Agrees P (store.listWithMetadata filter)

section Visitors

variable {σ S : Type} {Agrees : (Key → Prop) → σ → σ → Prop} {P : Key → Prop}

theorem confinedLocal_visitEach (h : Separation Agrees) {visitor : BlobVisitor (StateM σ) S}
    (hvisitor : visitor.Reaches Agrees P) (entries : List (Key × Option BlobMeta)) :
    ConfinedLocal Agrees P (visitEach visitor entries) := by
  induction entries with
  | nil => exact .pure h ()
  | cons entry rest ih =>
      obtain ⟨key, info⟩ := entry
      refine .bind h (hvisitor key info) fun more => ?_
      cases more with
      | true => exact ih
      | false => exact .pure h ()

theorem confined_checkKey (h : Separation Agrees) (key : Key) :
    Confined Agrees P (checkKey key : Fallible (StateM σ) Unit) := by
  unfold checkKey
  cases validateBlobKey key with
  | ok _ => exact .pure h ()
  | error e => exact .throw h e

theorem confined_checkKeys (h : Separation Agrees) (keys : List Key) :
    Confined Agrees P (checkKeys keys : Fallible (StateM σ) Unit) := by
  induction keys with
  | nil => exact .pure h ()
  | cons key rest ih => exact .bind h (confined_checkKey h key) fun _ _ => ih

end Visitors

namespace MapState

open Classical in
/-- The entries whose keys are in `P`, in the order in which the map holds them. -/
noncomputable def entriesIn (P : Key → Prop) (s : MapState) : List (Σ _ : Key, StoredBlob) :=
  s.objects.entries.filter fun entry => P entry.1

/-- Two maps with the same entries under the keys in `P`, at the same time. -/
def SameIn (P : Key → Prop) (s t : MapState) : Prop :=
  s.clock = t.clock ∧ entriesIn P s = entriesIn P t

variable {P : Key → Prop} {s t : MapState}

section Entries

open Classical

theorem kerase_filter_of_pos {key : Key} (hkey : P key) (entries : List (Σ _ : Key, StoredBlob)) :
    (entries.kerase key).filter (fun entry => P entry.1) =
      (entries.filter fun entry => P entry.1).kerase key := by
  induction entries with
  | nil => rfl
  | cons entry rest ih =>
      by_cases hsame : key = entry.1
      · have hentry : P entry.1 := hsame ▸ hkey
        rw [List.kerase_cons_eq hsame, List.filter_cons_of_pos (by simpa using hentry),
          List.kerase_cons_eq hsame]
      · rw [List.kerase_cons_ne hsame, List.filter_cons, List.filter_cons]
        split
        · rw [List.kerase_cons_ne hsame, ih]
        · exact ih

theorem kerase_filter_of_neg {key : Key} (hkey : ¬P key) (entries : List (Σ _ : Key, StoredBlob)) :
    (entries.kerase key).filter (fun entry => P entry.1) =
      entries.filter fun entry => P entry.1 := by
  induction entries with
  | nil => rfl
  | cons entry rest ih =>
      by_cases hsame : key = entry.1
      · have hentry : ¬P entry.1 := hsame ▸ hkey
        rw [List.kerase_cons_eq hsame, List.filter_cons_of_neg (by simpa using hentry)]
      · rw [List.kerase_cons_ne hsame, List.filter_cons, List.filter_cons, ih]

theorem dlookup_filter {key : Key} (hkey : P key) (entries : List (Σ _ : Key, StoredBlob)) :
    (entries.filter fun entry => P entry.1).dlookup key = entries.dlookup key := by
  induction entries with
  | nil => rfl
  | cons entry rest ih =>
      by_cases hsame : key = entry.1
      · obtain ⟨other, blob⟩ := entry
        obtain rfl : key = other := hsame
        rw [List.filter_cons_of_pos (by simpa using hkey), List.dlookup_cons_eq,
          List.dlookup_cons_eq]
      · rw [List.filter_cons]
        split
        · rw [List.dlookup_cons_ne _ _ hsame, List.dlookup_cons_ne _ _ hsame, ih]
        · rw [List.dlookup_cons_ne _ _ hsame, ih]

end Entries

theorem partition_sameIn : Separation SameIn where
  refl _ _ := ⟨rfl, rfl⟩
  symm h := ⟨h.1.symm, h.2.symm⟩
  trans h h' := ⟨h.1.trans h'.1, h.2.trans h'.2⟩
  mono := by
    intro P Q s t hPQ h
    refine ⟨h.1, ?_⟩
    have hfilter : ∀ u : MapState, entriesIn P u = (entriesIn Q u).filter fun entry =>
        @decide (P entry.1) (Classical.propDecidable _) := by
      intro u
      rw [entriesIn, entriesIn, List.filter_filter]
      refine List.filter_congr fun entry _ => ?_
      by_cases hentry : P entry.1
      · simp [hentry, hPQ _ hentry]
      · simp [hentry]
    rw [hfilter s, hfilter t, h.2]

theorem SameIn.find (h : SameIn P s t) {key : Key} (hkey : P key) : s.find key = t.find key := by
  have hs := dlookup_filter hkey s.objects.entries
  have ht := dlookup_filter hkey t.objects.entries
  show s.objects.entries.dlookup key = t.objects.entries.dlookup key
  rw [← hs, ← ht]
  exact congrArg (List.dlookup key) h.2

theorem SameIn.write (h : SameIn P s t) {key : Key} (hkey : P key) (content : Bytes) :
    SameIn P (s.write key content) (t.write key content) := by
  refine ⟨h.1, ?_⟩
  have hinsert : ∀ u : MapState, entriesIn P (u.write key content) =
      ⟨key, { content, modifiedAt := u.clock, etag := none }⟩ :: (entriesIn P u).kerase key := by
    intro u
    rw [entriesIn, MapState.write, AList.entries_insert,
      List.filter_cons_of_pos (by simpa using hkey), kerase_filter_of_pos hkey]
    rfl
  rw [hinsert, hinsert, h.1, h.2]

theorem sameIn_outside_write (s : MapState) {key : Key} (hkey : P key) (content : Bytes) :
    SameIn (outside P) s (s.write key content) := by
  have hout : ¬outside P key := fun h => h hkey
  refine ⟨rfl, ?_⟩
  rw [entriesIn, entriesIn, MapState.write, AList.entries_insert,
    List.filter_cons_of_neg (by simpa using hout), kerase_filter_of_neg hout]

theorem SameIn.erase (h : SameIn P s t) {key : Key} (hkey : P key) :
    SameIn P (s.erase key) (t.erase key) := by
  refine ⟨h.1, ?_⟩
  have herase : ∀ u : MapState, entriesIn P (u.erase key) = (entriesIn P u).kerase key :=
    fun u => kerase_filter_of_pos hkey u.objects.entries
  rw [herase, herase, h.2]

theorem sameIn_outside_erase (s : MapState) {key : Key} (hkey : P key) :
    SameIn (outside P) s (s.erase key) :=
  ⟨rfl, (kerase_filter_of_neg (fun h => h hkey) s.objects.entries).symm⟩

/-- What a listing selects within `P` only depends on the entries there. -/
theorem SameIn.selected (h : SameIn P s t) (useHint : Bool) {filter : ListFilter}
    (hwithin : filter.Within P) :
    ((candidates useHint s filter).filter fun key => filter.matchesBlob key none) =
      (candidates useHint t filter).filter fun key => filter.matchesBlob key none := by
  have hselected : ∀ u : MapState,
      ((candidates useHint u filter).filter fun key => filter.matchesBlob key none) =
        ((entriesIn P u).map Sigma.fst).filter fun key =>
          filter.matchesBlob key none && (!useHint || decide (filter.prefixHint.getD [] <+: key)) := by
    intro u
    have hkeys : ∀ entry : Σ _ : Key, StoredBlob, filter.matchesBlob entry.1 none = true →
        P entry.1 := fun entry => hwithin entry.1 none
    have hall : ((entriesIn P u).map Sigma.fst).filter (fun key => filter.matchesBlob key none) =
        u.objects.keys.filter fun key => filter.matchesBlob key none := by
      show ((u.objects.entries.filter _).map Sigma.fst).filter _ =
        (u.objects.entries.map Sigma.fst).filter _
      rw [List.filter_map, List.filter_map, List.filter_filter]
      congr 1
      refine List.filter_congr fun entry _ => ?_
      by_cases hentry : filter.matchesBlob entry.1 none = true
      · simp [hentry, hkeys entry hentry]
      · simp [hentry]
    rw [show (fun key => filter.matchesBlob key none &&
        (!useHint || decide (filter.prefixHint.getD [] <+: key))) = fun key =>
          (!useHint || decide (filter.prefixHint.getD [] <+: key)) &&
            filter.matchesBlob key none from funext fun key => Bool.and_comm _ _,
      ← List.filter_filter, hall, List.filter_filter]
    unfold candidates
    cases useHint with
    | true =>
        rw [if_pos rfl, List.filter_filter]
        refine List.filter_congr fun key _ => ?_
        rw [Bool.and_comm]
        rfl
    | false =>
        rw [if_neg (by simp)]
        refine List.filter_congr fun key _ => ?_
        simp
  rw [hselected, hselected, h.2]

end MapState

namespace MapBlobStore

open MapState

variable {P : Key → Prop}

theorem infos_congr {s t : MapState} (h : SameIn P s t) (store : MapBlobStore)
    {filter : ListFilter} (hwithin : filter.Within P) :
    store.infos s filter = store.infos t filter := by
  unfold MapBlobStore.infos
  rw [h.selected store.useHint hwithin]
  refine List.filterMap_congr fun key hkey => ?_
  rw [h.find (hwithin key none (List.mem_filter.mp hkey).2)]

/-- A request that answers from the state and leaves it as it is. -/
theorem confined_read {α : Type} {answer : MapState → Except BlobStorageError α}
    (h : ∀ {s t}, SameIn P s t → answer s = answer t) {x : Fallible (StateM MapState) α}
    (hx : ∀ s, exec x s = (answer s, s)) : Confined SameIn P x where
  result hagrees := by
    rw [hx, hx]
    exact h hagrees
  state hagrees := by
    rw [hx, hx]
    exact hagrees
  frame s := by
    rw [hx]
    exact partition_sameIn.refl _ s

theorem confined_putBlobs {blobs : List BlobInput} (h : ∀ blob ∈ blobs, P blob.key) :
    Confined SameIn P (putBlobs blobs) := by
  induction blobs with
  | nil => exact .pure partition_sameIn []
  | cons blob rest ih =>
      rw [List.forall_mem_cons] at h
      cases hread : blob.data.readToEnd with
      | error e =>
          rw [putBlobs, hread]
          exact .throw partition_sameIn (BlobStorageError.ofIo e)
      | ok content =>
          let others (now : DateTime) : Fallible (StateM MapState) (List BlobMeta) := do
            let infos ← putBlobs rest
            pure (BlobMeta.mk blob.key content.length now none :: infos)
          have hothers : ∀ now, Confined SameIn P (others now) := fun now =>
            .bind partition_sameIn (ih h.2) fun infos _ => .pure partition_sameIn _
          have hexec : ∀ s, exec (putBlobs (blob :: rest)) s =
              exec (others s.clock) (s.write blob.key content) := by
            intro s
            rw [putBlobs, hread]
            rfl
          refine ⟨fun {s t} hagrees => ?_, fun {s t} hagrees => ?_, fun s => ?_⟩
          · rw [hexec, hexec, hagrees.1]
            exact (hothers t.clock).result (hagrees.write h.1 content)
          · rw [hexec, hexec, hagrees.1]
            exact (hothers t.clock).state (hagrees.write h.1 content)
          · rw [hexec]
            exact partition_sameIn.trans (sameIn_outside_write s h.1 content)
              ((hothers s.clock).frame (s.write blob.key content))

theorem confined_eraseAll {keys : List Key} (h : ∀ key ∈ keys, P key) :
    Confined SameIn P (do
      let s ← getState
      setState (keys.foldl MapState.erase s) : Fallible (StateM MapState) Unit) := by
  refine ⟨fun _ => rfl, fun {s t} hagrees => ?_, fun s => ?_⟩
  · show SameIn P (keys.foldl MapState.erase s) (keys.foldl MapState.erase t)
    induction keys generalizing s t with
    | nil => exact hagrees
    | cons key rest ih =>
        rw [List.forall_mem_cons] at h
        exact ih h.2 (hagrees.erase h.1)
  · show SameIn (outside P) s (keys.foldl MapState.erase s)
    induction keys generalizing s with
    | nil => exact partition_sameIn.refl _ s
    | cons key rest ih =>
        rw [List.forall_mem_cons] at h
        exact partition_sameIn.trans (sameIn_outside_erase s h.1) (ih h.2 (s.erase key))

theorem confined_getWithMetadata {key : Key} (h : P key) :
    Confined SameIn P (getWithMetadata key) := by
  refine .bind partition_sameIn (confined_checkKey partition_sameIn key) fun _ _ => ?_
  let answer (s : MapState) : Except BlobStorageError (BlobMeta × Reader) :=
    (s.find key).elim (.error (.notFound key)) fun blob =>
      .ok (blob.info key, Reader.ofBytes blob.content)
  have hsame : ∀ {s t}, SameIn P s t → answer s = answer t := by
    intro s t hagrees
    simp only [answer, hagrees.find h]
  refine confined_read hsame fun s => ?_
  rw [exec_bind_ok (exec_getState s)]
  show _ = (answer s, s)
  cases hfind : s.find key <;> simp [answer, hfind]

/-- The map keeps its keys apart. -/
theorem mapLike (store : MapBlobStore) : MapLike SameIn store.toBlobStore where
  partition := partition_sameIn
  utcNow P := confined_read (fun hagrees => congrArg Except.ok hagrees.1) fun _ => rfl
  put := by
    intro P blobs h
    refine .bind partition_sameIn (confined_checkKeys partition_sameIn _) fun _ _ => ?_
    exact .bind partition_sameIn (confined_putBlobs h) fun infos _ => .pure partition_sameIn _
  get := by
    intro P key h
    exact .bind partition_sameIn (confined_getWithMetadata h) fun _ _ => .pure partition_sameIn _
  delete := by
    intro P keys h
    exact .bind partition_sameIn (confined_checkKeys partition_sameIn keys) fun _ _ =>
      confined_eraseAll h
  existsBlob := by
    intro P key h
    refine .bind partition_sameIn (confined_checkKey partition_sameIn key) fun _ _ => ?_
    exact confined_read (fun hagrees => by rw [hagrees.find h]) fun _ => rfl
  getWithMetadata := confined_getWithMetadata
  list := by
    intro P filter _ hwithin
    exact confined_read (fun hagrees => by rw [hagrees.selected store.useHint hwithin])
      fun _ => rfl
  visit := by
    intro P S filter visitor _ hwithin hvisitor
    have hwalk := confinedLocal_visitEach partition_sameIn hvisitor
    let entries (s : MapState) := (store.infos s filter).map fun info => (info.key, some info)
    have hexec : ∀ l s, execLocal (store.visit filter visitor) l s =
        execLocal (visitEach visitor (entries s)) l s := fun _ _ => rfl
    have hsame : ∀ {s t}, SameIn P s t → entries s = entries t := by
      intro s t hagrees
      show (store.infos s filter).map _ = (store.infos t filter).map _
      rw [infos_congr hagrees store hwithin]
    refine ⟨fun {s t} l hagrees => ?_, fun {s t} l hagrees => ?_, fun l s => ?_⟩
    · show (execLocal (store.visit filter visitor) l s).1 =
        (execLocal (store.visit filter visitor) l t).1
      rw [hexec, hexec, hsame hagrees]
      exact (hwalk (entries t)).result l hagrees
    · show SameIn P (execLocal (store.visit filter visitor) l s).2
        (execLocal (store.visit filter visitor) l t).2
      rw [hexec, hexec, hsame hagrees]
      exact (hwalk (entries t)).state l hagrees
    · exact (hwalk (entries s)).frame l s
  listWithMetadata := by
    intro P filter _ hwithin
    exact confined_read (fun hagrees => by rw [infos_congr hagrees store hwithin]) fun _ => rfl

end MapBlobStore

end BlobStorage
