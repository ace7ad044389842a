import BlobStorage.Backend.Fs.Hints
import BlobStorage.Browsing.Selection

/-!
# What the filesystem backend enumerates

A walk comes by the files below the directory of its hint. They are the stored blobs, except that
a hint with an empty component gives them keys that are no keys.
-/

namespace BlobStorage

open Fallible Posix FileTree

namespace FsBlobStore

/-- A walk for the filter goes to its end: the root is there, and the hint is accepted and leads
to a directory that can be looked for. -/
def Walks (s : FsState) (filter : ListFilter) : Prop :=
  s.rootStat = .ok true ∧ ∀ hint, filter.prefixHint = some hint →
    validatePrefixHint hint = .ok () ∧ ¬Blocked s.tree hint

/-- The records that it comes by. -/
def comesBy (s : FsState) (filter : ListFilter) : List BlobMeta :=
  match filter.prefixHint with
  | none => records s.tree
  | some hint => recordsBelow s.tree (hintDir hint) (meant (hintDir hint))
      (s.tree.below s.tree.isFile (meant (hintDir hint)))

/-- The enumeration of the backend in a state. -/
def enumeration (self : FsBlobStore) (s : FsState) : Enumeration :=
  .ofBackend (self.shown s) (records s.tree) (Walks s) (comesBy s)

variable {self : FsBlobStore} {s : FsState} {filter : ListFilter} {info : BlobMeta}

theorem rootAnswer_of_not_there (hroot : s.rootStat ≠ .ok true) :
    ∃ e, ¬e.IsNotFound ∧ self.rootAnswer s = .error e := by
  unfold rootAnswer ensureRoot
  rw [exec_bind, exec_getState]
  dsimp only
  cases hstat : s.rootStat with
  | ok there =>
      cases there with
      | true => exact absurd hstat hroot
      | false => exact ⟨_, id, rfl⟩
  | error e =>
      dsimp only
      split
      · exact ⟨_, id, rfl⟩
      · exact ⟨_, id, rfl⟩

theorem found_ends_iff : (self.found s filter).2 = none ↔ Walks s filter := by
  change (self.walkedFor s filter).2 = none ↔ _
  unfold Walks
  by_cases hroot : s.rootStat = .ok true
  swap
  · obtain ⟨e, _, he⟩ := @rootAnswer_of_not_there self s hroot
    unfold walkedFor
    rw [he]
    exact iff_of_false nofun fun hwalks => hroot hwalks.1
  cases hhint : filter.prefixHint with
  | none => exact iff_of_true (walkedFor_none hroot hhint).1 ⟨hroot, nofun⟩
  | some hint =>
      cases hvalid : validatePrefixHint hint with
      | error e =>
          rw [walkedFor_rejected hroot hhint hvalid]
          refine iff_of_false nofun fun hwalks => ?_
          rw [(hwalks.2 hint rfl).1] at hvalid
          cases hvalid
      | ok _ =>
          by_cases hblocked : Blocked s.tree hint
          · obtain ⟨e, he⟩ := @walkedFor_blocked self s filter hint hroot hhint hvalid hblocked
            rw [he]
            exact iff_of_false nofun fun hwalks => (hwalks.2 hint rfl).2 hblocked
          · refine iff_of_true (walkedFor_hint hroot hhint hvalid hblocked).1 ⟨hroot, ?_⟩
            rintro other heq
            obtain rfl := Option.some.inj heq
            exact ⟨hvalid, hblocked⟩

theorem found_perm (hwalks : Walks s filter) : (self.found s filter).1.Perm (comesBy s filter) := by
  unfold comesBy
  obtain ⟨hroot, hhints⟩ := hwalks
  cases hhint : filter.prefixHint with
  | none => exact (walkedFor_none hroot hhint).2
  | some hint =>
      obtain ⟨hvalid, hblocked⟩ := hhints hint hhint
      exact (walkedFor_hint hroot hhint hvalid hblocked).2

theorem not_mem_hintDir (hint : Key) : ∀ piece ∈ hintDir hint, separator ∉ piece := by
  intro piece hpiece
  have hsubset : hintDir hint ⊆ ofText hint := by
    unfold hintDir
    split
    · exact List.dropLast_subset _
    · exact fun piece hmem => List.dropLast_subset _ ((List.rdropWhile_prefix _ _).subset hmem)
  exact not_mem_of_mem_ofText (hsubset hpiece)

theorem nodup_comesBy (s : FsState) (filter : ListFilter) :
    ((comesBy s filter).map BlobMeta.key).Nodup := by
  unfold comesBy
  cases filter.prefixHint with
  | none => exact nodup_records s.tree
  | some hint => exact nodup_recordsBelow s.tree (not_mem_hintDir hint)

/-- What a sound hint leaves to be selected lies below the directory of the hint. -/
theorem mem_comesBy_of_stored (hsound : filter.SoundHint) (hinfo : info ∈ records s.tree)
    {record : Option BlobMeta} (hmatch : filter.matchesBlob info.key record = true) :
    info ∈ comesBy s filter := by
  unfold comesBy
  cases hhint : filter.prefixHint with
  | none => exact hinfo
  | some hint =>
      obtain ⟨path, data, hne, hfind, rfl⟩ := mem_recordsBelow.mp hinfo
      rw [List.nil_append] at hfind hmatch
      have hlegal := Volume.legal_of_find hfind
      have hback : ofText (text path) = path :=
        ofText_text hne fun name hname => (hlegal name hname).2.2.2
      have hstart : hint <+: text path := hsound hint hhint _ _ hmatch
      obtain ⟨hdir, hnames⟩ : hintDir hint = (ofText hint).dropLast ∧
          ∀ name ∈ hintDir hint, LegalName name := by
        obtain ⟨rest, hrest⟩ := hstart
        refine @legal_hintDir_of_legal hint rest fun name hname => ?_
        rw [hrest, hback] at hname
        exact hlegal name hname
      obtain ⟨⟨rest, hpath⟩, hnot⟩ := below_hintDir hdir hne hlegal hstart
      dsimp only
      rw [meant_of_legal hnames]
      refine mem_recordsBelow.mpr ⟨rest, data, ?_, ?_, ?_⟩
      · rintro rfl
        exact hnot (hpath.symm.trans (List.append_nil _))
      · rw [hpath, hfind]
      · rw [hpath, List.nil_append]

/-- A record with a valid key is that of the blob. -/
theorem stored_of_mem_comesBy (hinfo : info ∈ comesBy s filter) (hvalid : ValidKey info.key) :
    ∃ data, s.tree.find (ofText info.key) = some (.file data) ∧
      info = ⟨info.key, data.content.length, data.modifiedAt, none⟩ := by
  have hbelow : ∃ spelled names, info ∈ recordsBelow s.tree spelled names
      (s.tree.below s.tree.isFile names) ∧ names = meant spelled ∧
        ∀ piece ∈ spelled, separator ∉ piece := by
    unfold comesBy at hinfo
    cases hhint : filter.prefixHint with
    | none =>
        rw [hhint] at hinfo
        exact ⟨[], [], hinfo, rfl, by simp⟩
    | some hint =>
        rw [hhint] at hinfo
        exact ⟨_, _, hinfo, rfl, not_mem_hintDir hint⟩
  obtain ⟨spelled, names, hmem, rfl, hspelled⟩ := hbelow
  obtain ⟨rest, data, hne, hfind, rfl⟩ := mem_recordsBelow.mp hmem
  have hback : ofText (text (spelled ++ rest)) = spelled ++ rest := by
    refine ofText_text (by simp [hne]) fun piece hpiece => ?_
    obtain hpiece | hpiece := List.mem_append.mp hpiece
    · exact hspelled piece hpiece
    · exact (Volume.legal_of_find hfind piece (List.mem_append_right _ hpiece)).2.2.2
  have hlegal := legal_of_valid hvalid
  dsimp only at hlegal ⊢
  rw [hback] at hlegal ⊢
  rw [meant_of_legal fun piece hpiece => hlegal piece (List.mem_append_left _ hpiece)] at hfind
  exact ⟨data, hfind, rfl⟩

/-- Fetching a record that a walk comes by gives the record, or fails otherwise than because it
is missing. -/
theorem getWithMetadataAnswer_of_mem (self : FsBlobStore) (hinfo : info ∈ comesBy s filter) :
    (∃ reader, self.getWithMetadataAnswer s info.key = .ok (info, reader)) ∨
      ∃ e, ¬e.IsNotFound ∧ self.getWithMetadataAnswer s info.key = .error e := by
  by_cases hroot : s.rootStat = .ok true
  swap
  · obtain ⟨e, he, hanswer⟩ := @rootAnswer_of_not_there self s hroot
    refine .inr ⟨e, he, ?_⟩
    rw [getWithMetadataAnswer, hanswer]
    rfl
  by_cases hvalid : ValidKey info.key
  · obtain ⟨data, hfind, hrecord⟩ := stored_of_mem_comesBy hinfo hvalid
    have hget : self.getAnswer s info.key = .ok (openNode (.file data)) := by
      have hrun := (self.exec_get s info.key).symm.trans (self.exec_get_of_valid hroot hvalid)
      rw [hfind] at hrun
      exact congrArg Prod.fst hrun
    obtain ⟨node, hnode, hmeta⟩ | ⟨hnone, _⟩ | ⟨hrefused, _⟩ := self.metaAnswer_of_valid hvalid
    · rw [hfind] at hnode
      obtain rfl := Option.some.inj hnode
      refine .inl ⟨openNode (.file data), ?_⟩
      rw [getWithMetadataAnswer, rootAnswer_ok hroot, hmeta, hget]
      change Except.ok (_, openNode (.file data)) = _
      rw [hrecord]
      rfl
    · rw [hfind] at hnone
      cases hnone
    · exact absurd hrefused (Volume.not_refused_of_find hfind)
  · obtain ⟨e, he, hpath⟩ := self.keyToPath_of_not_valid hvalid
    refine .inr ⟨e, ?_, ?_⟩
    · cases e with
      | notFound _ => exact absurd he id
      | _ => exact id
    · rw [getWithMetadataAnswer, rootAnswer_ok hroot, metaAnswer, hpath]
      rfl

theorem findsPresent (self : FsBlobStore) (s : FsState) : (self.shown s).FindsPresent := by
  intro key other hexists hget
  change self.existsAnswer s key = .ok true at hexists
  change self.getAnswer s key = .error (.notFound other) at hget
  unfold existsAnswer at hexists
  unfold getAnswer at hget
  cases hroot : self.rootAnswer s with
  | error e =>
      rw [hroot] at hexists
      cases hexists
  | ok _ =>
      cases hpath : self.keyToPath key with
      | error e =>
          rw [hroot, hpath] at hexists
          cases hexists
      | ok path =>
          rw [hroot, hpath] at hexists hget
          have hfile : self.isFile s path = true := Except.ok.inj hexists
          obtain ⟨data, hstat⟩ := isFile_eq_true_iff.mp hfile
          change self.getAt s key path = _ at hget
          rw [getAt, hstat] at hget
          cases hget

/-- The backend shows what it enumerates. -/
theorem enumeration_right (self : FsBlobStore) (s : FsState) : (self.enumeration s).Right := by
  apply Enumeration.Right.ofBackend
  · exact fun filter => found_ends_iff
  · exact fun filter => found_perm
  · exact self.findsPresent s
  · exact nodup_comesBy s
  · exact nodup_records s.tree
  · exact fun filter info record hsound _ hinfo => mem_comesBy_of_stored hsound hinfo
  · intro filter info hinfo other hmissing
    obtain ⟨reader, hanswer⟩ | ⟨e, he, hanswer⟩ := self.getWithMetadataAnswer_of_mem hinfo
    · rw [hanswer] at hmissing
      cases hmissing
    · rw [hanswer] at hmissing
      cases hmissing
      exact he trivial
  · intro filter info hinfo pair hget
    obtain ⟨reader, hanswer⟩ | ⟨e, _, hanswer⟩ := self.getWithMetadataAnswer_of_mem hinfo
    · rw [hanswer] at hget
      obtain rfl := Except.ok.inj hget
      rfl
    · rw [hanswer] at hget
      cases hget

end FsBlobStore

end BlobStorage
