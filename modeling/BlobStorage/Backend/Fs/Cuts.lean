import BlobStorage.Backend.Fs.Calls
import BlobStorage.Backend.Fs.Enumeration
import BlobStorage.Backend.Fs.Writes
import BlobStorage.Browsing.Pullback

/-!
# Hints cut from keys

The beginning of a stored key as a prefix hint. It is accepted wherever the cut falls, unless it
leaves a `.` or a `..` behind, which the check of hints takes for a directory of that name; what is
accepted leads to the key.
-/

namespace BlobStorage

open Fallible Posix FileTree FsBlobStore

/-- Behind the last separator of the hint there is a `.` or a `..`. -/
def EndsInDots (hint : Key) : Prop :=
  (hint.splitOn keySeparator).getLast? = some ['.'] ∨
    (hint.splitOn keySeparator).getLast? = some ['.', '.']

theorem validatePrefixHint_cases (hint : Key) :
    validatePrefixHint hint = .ok () ∨
      ∃ message, validatePrefixHint hint = .error (.invalidInput message) := by
  unfold validatePrefixHint
  split_ifs
  · exact .inr ⟨_, rfl⟩
  · exact .inr ⟨_, rfl⟩
  · exact .inr ⟨_, rfl⟩
  · exact .inl rfl

/-- Up to its last separator, the beginning of a key is made of components of the key. -/
theorem splitOn_of_cut {hint key : Key} (hkey : ValidKey key) (hcut : hint <+: key) :
    ∃ front last, hint.splitOn keySeparator = front ++ [last] ∧
      ∀ piece ∈ front, NormalComponent piece := by
  obtain ⟨rest, rfl⟩ := hcut
  obtain ⟨front, last, first, back, hhint, _, hwhole⟩ :=
    Splitting.splitOn_append keySeparator hint rest
  refine ⟨front, last, hhint, fun piece hpiece => hkey.2 piece ?_⟩
  rw [hwhole]
  exact List.mem_append_left _ hpiece

/-- The check of hints finds fault with the beginning of a key only for the dots it ends in. -/
theorem validatePrefixHint_cut_iff {hint key : Key} (hkey : ValidKey key) (hcut : hint <+: key) :
    validatePrefixHint hint = .ok () ↔ ¬EndsInDots hint := by
  obtain ⟨front, last, hpieces, hfront⟩ := splitOn_of_cut hkey hcut
  have hlast : (hint.splitOn keySeparator).getLast? = some last := by
    rw [hpieces, List.getLast?_concat]
  rw [validatePrefixHint_eq_ok_iff, EndsInDots, hlast, not_or]
  constructor
  · rintro ⟨_, _, hdots⟩
    obtain ⟨hparent, hhere⟩ := hdots last (by
      change last ∈ hint.splitOn keySeparator
      simp [hpieces])
    exact ⟨fun h => hhere (Option.some.inj h), fun h => hparent (Option.some.inj h)⟩
  · rintro ⟨hhere, hparent⟩
    refine ⟨fun hsep => hkey.not_sep_prefix (hsep.trans hcut), fun hback => ?_,
      fun piece hpiece => ?_⟩
    · exact hkey.1 (hcut.subset hback)
    · change piece ∈ hint.splitOn keySeparator at hpiece
      rw [hpieces, List.mem_append, List.mem_singleton] at hpiece
      obtain hmem | rfl := hpiece
      · exact (hfront piece hmem).2
      · exact ⟨fun h => hparent (congrArg some h), fun h => hhere (congrArg some h)⟩

/-- A component of dots with a separator behind it is found wherever it is. -/
theorem validatePrefixHint_dots {front dots rest : Key} (hdots : dots = ['.'] ∨ dots = ['.', '.'])
    (hfront : front = [] ∨ [keySeparator] <:+ front) :
    ∃ message, validatePrefixHint (front ++ dots ++ keySeparator :: rest) =
      .error (.invalidInput message) := by
  obtain hok | herror := validatePrefixHint_cases (front ++ dots ++ keySeparator :: rest)
  · exfalso
    have hpieces := (validatePrefixHint_eq_ok_iff.mp hok).2.2 dots
    have hmem : dots ∈ (front ++ dots ++ keySeparator :: rest).splitOn keySeparator := by
      have hwhole : dots.splitOn keySeparator = [dots] := by
        obtain rfl | rfl := hdots <;> rfl
      obtain rfl | ⟨directory, rfl⟩ := hfront
      · rw [List.nil_append, Splitting.splitOn_append_sep, hwhole]
        exact List.mem_append_left _ (List.mem_singleton_self dots)
      · rw [List.append_assoc, List.append_assoc, List.singleton_append,
          Splitting.splitOn_append_sep, Splitting.splitOn_append_sep, hwhole]
        exact List.mem_append_right _ (List.mem_append_left _ (List.mem_singleton_self dots))
    obtain ⟨hparent, hhere⟩ := hpieces hmem
    exact hdots.elim hhere hparent
  · exact herror

namespace FsBlobStore

variable {self : FsBlobStore} {s t : FsState}

section Put

/-- The loop of `put` does not come to its end when a stream breaks off. -/
theorem healthy_of_putBlobs {blobs : List BlobInput} {infos : List BlobMeta}
    (h : exec (self.putBlobs blobs) s = (.ok infos, t)) :
    ∀ blob ∈ blobs, blob.data.failure = none := by
  induction blobs generalizing s infos with
  | nil => exact List.forall_mem_nil _
  | cons blob rest ih =>
      rw [← treeCalls_putBlobs, FileCalls.putBlobs, treeCalls_putBlobs] at h
      obtain ⟨path, _, _, h⟩ := exec_bind_eq_ok.mp h
      obtain ⟨_, _, _, h⟩ := exec_bind_eq_ok.mp h
      cases hread : blob.data.readToEnd with
      | error e =>
          rw [hread] at h
          obtain ⟨_, _, _, hthrown⟩ := exec_bind_eq_ok.mp h
          cases hthrown
      | ok content =>
          rw [hread] at h
          obtain ⟨_, _, _, h⟩ := exec_bind_eq_ok.mp h
          obtain ⟨_, _, _, h⟩ := exec_bind_eq_ok.mp h
          obtain ⟨others, _, hothers, hdone⟩ := exec_bind_eq_ok.mp h
          cases hdone
          rw [List.forall_mem_cons]
          exact ⟨(Reader.readToEnd_eq_ok_iff.mp hread).1, ih hothers⟩

/-- What a put that succeeds has met. -/
theorem puts_of_put {blobs : List BlobInput} {result : PutResult}
    (h : exec (self.put blobs) s = (.ok result, t)) :
    t.rootStat = .ok true ∧ (∀ blob ∈ blobs, ValidKey blob.key) ∧ Puts s blobs t := by
  obtain ⟨_, u, hcheck, hrest⟩ := exec_bind_eq_ok.mp h
  have hkeys : ∀ key ∈ blobs.map BlobInput.key, ValidKey key := by
    by_contra hnot
    obtain ⟨e, _, he⟩ := exec_checkKeys_of_not_valid s hnot
    rw [he] at hcheck
    cases hcheck
  rw [exec_checkKeys_of_valid s hkeys] at hcheck
  cases hcheck
  obtain ⟨_, v, hready, hrest⟩ := exec_bind_eq_ok.mp hrest
  have hroot : s.rootStat = .ok true := by
    by_contra hnot
    obtain ⟨e, _, he⟩ := @rootAnswer_of_not_there self s hnot
    rw [exec_ensureRoot, he] at hready
    cases hready
  obtain ⟨infos, w, hblobs, _⟩ := exec_bind_eq_ok.mp hrest
  have hvalid : ∀ blob ∈ blobs, ValidKey blob.key := by simpa using hkeys
  obtain ⟨_, u', hexec, hputs⟩ | ⟨_, _, _, _, _, _, _, _, _, e, u', hexec, _⟩ :=
    exec_put_cases hroot hvalid (healthy_of_putBlobs hblobs)
  · rw [h] at hexec
    cases hexec
    exact ⟨hputs.only.rootStat.trans hroot, hvalid, hputs⟩
  · rw [h] at hexec
    cases hexec

end Put

/-- The beginning of a stored key leads to it, and through no other file. -/
theorem not_blocked_of_stored {key hint : Key} {data : FileData} {t : Volume FileData}
    (hstored : Stored t key data) (hkey : ValidKey key) (hcut : hint <+: key) :
    ¬Blocked t hint := by
  obtain ⟨rest, hrest⟩ := hcut
  rw [blocked_iff ⟨rest, by rwa [hrest]⟩]
  rintro (⟨other, data', back, hother, hsplit, _⟩ | hbad)
  · have hway : other ++ ['/'] <+: key := by
      rw [← hrest, hsplit]
      exact ⟨back ++ rest, by simp⟩
    exact Volume.not_throughFile_of_find hstored (throughFile_iff.mpr ⟨other, data', hother, hway⟩)
  · refine Volume.not_unnameable_of_fileName (fun name hname => ?_) hbad
    obtain ⟨front, last, first, others, hpieces, _, hboth⟩ :=
      Splitting.splitOn_append keySeparator hint rest
    refine Volume.fileName_of_find hstored name ?_
    change name ∈ key.splitOn keySeparator
    rw [← hrest, hboth]
    change name ∈ (hint.splitOn keySeparator).dropLast at hname
    rw [hpieces, List.dropLast_concat] at hname
    exact List.mem_append_left _ hname

/-- Every accepted beginning of a stored key finds it. -/
theorem lists_stored (hroot : s.rootStat = .ok true) {key hint : Key} {data : FileData}
    (hstored : Stored s.tree key data) (hkey : ValidKey key) (hcut : hint <+: key)
    (hdots : ¬EndsInDots hint) :
    ∃ keys, exec (self.list (prefixFilter hint)) s = (.ok keys, s) ∧ key ∈ keys := by
  obtain ⟨rest, hrest⟩ := id hcut
  obtain ⟨keys, hlist, _, _, hmem⟩ := self.listsSelected_of_clear hroot rfl
    (prefixFilter_sound hint) ⟨rest, by rwa [hrest]⟩
    ((validatePrefixHint_cut_iff hkey hcut).mpr hdots) (not_blocked_of_stored hstored hkey hcut)
  exact ⟨keys, hlist, (hmem key).mpr ⟨⟨data, hstored⟩, by simpa using hcut⟩⟩

/-- A rejected hint ends a listing before it has looked at anything. -/
theorem list_rejected (hroot : s.rootStat = .ok true) {filter : ListFilter} {hint : Key}
    (hhint : filter.prefixHint = some hint) {e : BlobStorageError}
    (h : validatePrefixHint hint = .error e) : exec (self.list filter) s = (.error e, s) := by
  have hwalked := @walkedFor_rejected self s filter hint hroot hhint e h
  rw [exec_list]
  change ((walkEnd (self.walkedFor s filter).2).map _, s) = _
  rw [hwalked]
  rfl

end FsBlobStore

/-- Behind a separator of the hint, or at its beginning, there is a `.` or a `..` with another
separator after it. -/
def HasDotsBeforeSeparator (hint : Key) : Prop :=
  ∃ front dots rest, hint = front ++ dots ++ keySeparator :: rest ∧
    (dots = ['.'] ∨ dots = ['.', '.']) ∧ (front = [] ∨ [keySeparator] <:+ front)

def dottedBlob : BlobInput := BlobInput.new ['a', '/', '.', '.', 'b'] (Reader.ofBytes [1])

/-- The tree after `a/..b` has been put. -/
def dottedState : FsState := (exec (sampleFs.put [dottedBlob]) emptyRoot).2

end BlobStorage
