import BlobStorage.Backend.Fs.Calls
import BlobStorage.Backend.Fs.KeyPaths
import BlobStorage.Library.Footprint

/-!
# The root is not left

Where the paths lead that the backend makes of keys and hints, whatever is in them, and what the
filesystem is asked for: the backend as a program whose requests are the calls, each with its path.
-/

namespace BlobStorage

open Fallible FileTree Posix FsBlobStore Program

/-- The path goes on from the root by names alone. -/
def LeadsBelow (root path names : Path) : Prop :=
  components path = components root ++ names.map .normal

theorem LeadsBelow.concat {root path names : Path} {name : Name} (h : LeadsBelow root path names)
    (hname : LegalName name) : LeadsBelow root (join path [name]) (names ++ [name]) := by
  unfold LeadsBelow at h ⊢
  rw [components_join_name hname, h, List.map_append, List.append_assoc]
  rfl

namespace FsBlobStore

variable {self : FsBlobStore} {path : Path}

/-- The path of a valid key. -/
def IsKeyPath (self : FsBlobStore) (path : Path) : Prop :=
  ∃ key, ValidKey key ∧ path = self.root.dropLast ++ ofText key

theorem IsKeyPath.leadsBelow (h : self.IsKeyPath path) :
    ∃ names, names ≠ [] ∧ LeadsBelow self.root path names := by
  obtain ⟨key, hvalid, rfl⟩ := h
  exact ⟨ofText key, ofText_ne_nil key, self.components_keyPath hvalid⟩

/-- The parent of a path. -/
theorem LeadsBelow.parent {root front names dir : Path} {last : Name} (hlast : LegalName last)
    (h : LeadsBelow root (front ++ [last]) (names ++ [last]))
    (hparent : Posix.parent (front ++ [last]) = some dir) : LeadsBelow root dir names := by
  have habove := components_of_parent hlast.not_skipped hparent
  unfold LeadsBelow at h ⊢
  rw [h, component?_of_legal hlast, List.map_append, ← List.append_assoc] at habove
  exact (List.append_cancel_right habove).symm

theorem IsKeyPath.parent {dir : Path} (h : self.IsKeyPath path)
    (hparent : Posix.parent path = some dir) : ∃ names, LeadsBelow self.root dir names := by
  obtain ⟨key, hvalid, rfl⟩ := h
  have hpieces := List.dropLast_append_getLast (ofText_ne_nil key)
  have hleads : LeadsBelow self.root (self.root.dropLast ++ ofText key) (ofText key) :=
    self.components_keyPath hvalid
  rw [← hpieces, ← List.append_assoc] at hparent hleads
  exact ⟨_, LeadsBelow.parent (legal_of_valid hvalid _ (List.getLast_mem _)) hleads hparent⟩

section Hint

variable {hint : Key} {filter : ListFilter}

/-- The root with the text of a hint behind it. -/
theorem leadsBelow_hint (self : FsBlobStore) (h : validatePrefixHint hint = .ok ()) :
    LeadsBelow self.root (self.root.dropLast ++ ofText hint) (meant (ofText hint)) := by
  obtain ⟨habsolute, _, hdots⟩ := validatePrefixHint_eq_ok_iff.mp h
  have hparent : ['.', '.'] ∉ ofText hint := fun hmem => (hdots _ hmem).1 rfl
  unfold LeadsBelow
  rw [← filterMap_component?_meant hparent]
  cases hpieces : ofText hint with
  | nil => exact absurd hpieces (ofText_ne_nil hint)
  | cons first rest =>
      by_cases hskipped : skipped first = true
      · -- Only the empty hint begins with an empty piece.
        obtain rfl : first = [] := by
          have hdot := (hdots first (by rw [hpieces]; exact List.mem_cons_self)).2
          simpa [skipped, hdot] using hskipped
        obtain rfl : rest = [] := by
          cases rest with
          | nil => rfl
          | cons second rest => exact absurd rfl (head_ofText habsolute hpieces)
        rw [List.dropLast_append_getLast? [] self.normalised]
        exact (List.append_nil _).symm
      · exact self.spellsDir_root.components first rest (by simpa using hskipped)

/-- The directory that holds what such a text names, if the text does not end in a separator. -/
theorem leadsBelow_hint_parent (self : FsBlobStore) {dir : Path}
    (h : validatePrefixHint hint = .ok ())
    (hends : endsWithSeparator (self.root.dropLast ++ ofText hint) = false)
    (hparent : Posix.parent (self.root.dropLast ++ ofText hint) = some dir) :
    ∃ names, LeadsBelow self.root dir names := by
  obtain ⟨_, _, hdots⟩ := validatePrefixHint_eq_ok_iff.mp h
  have hfull := self.leadsBelow_hint h
  obtain ⟨front, last, hpieces⟩ : ∃ front last, ofText hint = front ++ [last] :=
    ⟨_, _, (List.dropLast_append_getLast (ofText_ne_nil hint)).symm⟩
  have hmem : last ∈ ofText hint := hpieces ▸ List.mem_concat_self
  have hempty : last ≠ [] := by
    rintro rfl
    cases htop : self.root.dropLast ++ front with
    | nil =>
        rw [hpieces, ← List.append_assoc, htop] at hparent
        cases hparent
    | cons first rest =>
        rw [hpieces, ← List.append_assoc, htop, endsWithSeparator, decide_eq_false_iff_not] at hends
        refine hends ⟨?_, List.getLast?_concat⟩
        rw [List.length_append]
        exact Nat.lt_add_of_pos_left (Nat.succ_pos rest.length)
  have hlast : LegalName last :=
    ⟨hempty, (hdots last hmem).2, (hdots last hmem).1, not_mem_of_mem_ofText hmem⟩
  have hmeant : meant (ofText hint) = meant front ++ [last] := by
    rw [hpieces, meant, List.filter_append]
    simp [meant, hlast.not_skipped]
  rw [hmeant, hpieces, ← List.append_assoc] at hfull
  rw [hpieces, ← List.append_assoc] at hparent
  exact ⟨_, LeadsBelow.parent hlast hfull hparent⟩

theorem leadsBelow_prefixSubdir (self : FsBlobStore) (h : self.prefixSubdir filter = .ok path) :
    ∃ names, LeadsBelow self.root path names := by
  unfold prefixSubdir at h
  cases hhint : filter.prefixHint with
  | none =>
      rw [hhint] at h
      cases h
      exact ⟨[], (List.append_nil _).symm⟩
  | some hint =>
      rw [hhint] at h
      dsimp only at h
      cases hvalid : validatePrefixHint hint with
      | error e =>
          rw [hvalid] at h
          cases h
      | ok _ =>
          have habsolute := (validatePrefixHint_eq_ok_iff.mp hvalid).1
          have hjoin : Posix.join self.root (ofText hint) = self.root.dropLast ++ ofText hint := by
            rw [join_of_relative (isAbsolute_ofText habsolute), if_pos self.normalised]
          have hfull := self.leadsBelow_hint hvalid
          rw [hvalid, hjoin] at h
          change (if _ then _ else _) = _ at h
          split_ifs at h with hends
          · cases h
            exact ⟨_, hfull⟩
          · cases hparent : Posix.parent (self.root.dropLast ++ ofText hint) with
            | none =>
                rw [hparent] at h
                cases h
                exact ⟨_, hfull⟩
            | some dir =>
                rw [hparent] at h
                cases h
                exact self.leadsBelow_hint_parent hvalid (Bool.eq_false_iff.mpr hends) hparent

end Hint

end FsBlobStore

/-- What the backend asks of the filesystem, and of a visitor. -/
inductive FileRequest where
  | rootMetadata (path : Path)
  | metadata (path : Path)
  | createDirAll (path : Path)
  | create (path : Path)
  | write (path : Path) (content : Bytes)
  | writePart (path : Path) (content : Bytes)
  | openFile (path : Path)
  | removeFile (path : Path)
  | readDir (path : Path)
  | visit (key : Key) (info : Option BlobMeta)

abbrev FileRequest.Response : FileRequest → Type
  | .rootMetadata _ => Except IoError Bool
  | .metadata _ => Except Errno Metadata
  | .createDirAll _ => Except Errno Unit
  | .create _ => Except Errno Unit
  | .write _ _ => Except Errno Unit
  | .writePart _ _ => Except Errno Unit
  | .openFile _ => Except Errno Reader
  | .removeFile _ => Except Errno Unit
  | .readDir _ => List Name
  | .visit _ _ => Except BlobStorageError Bool

abbrev FileProgram := Program FileRequest.Response

def requestCalls : FileCalls FileProgram where
  rootMetadata path := ask (FileRequest.rootMetadata path)
  metadata path := ask (FileRequest.metadata path)
  createDirAll path := ask (FileRequest.createDirAll path)
  create path := ask (FileRequest.create path)
  write path content := ask (FileRequest.write path content)
  writePart path content := ask (FileRequest.writePart path content)
  openFile path := ask (FileRequest.openFile path)
  removeFile path := ask (FileRequest.removeFile path)
  readDir path := ask (FileRequest.readDir path)

/-- A visitor, of which the backend sees only the answers. -/
def requestVisitor : BlobVisitor FileProgram Unit where
  visit key info := withLocal (ExceptT.mk (ask (FileRequest.visit key info)))

namespace FileRequest

/-- Files lie below the root, and directories there or at the root itself. -/
def InRoot (root : Path) : FileRequest → Prop
  | .rootMetadata path => ∃ names, LeadsBelow root path names
  | .metadata path => ∃ names, LeadsBelow root path names
  | .createDirAll path => ∃ names, LeadsBelow root path names
  | .create path => ∃ names, names ≠ [] ∧ LeadsBelow root path names
  | .write path _ => ∃ names, names ≠ [] ∧ LeadsBelow root path names
  | .writePart path _ => ∃ names, names ≠ [] ∧ LeadsBelow root path names
  | .openFile path => ∃ names, names ≠ [] ∧ LeadsBelow root path names
  | .removeFile path => ∃ names, names ≠ [] ∧ LeadsBelow root path names
  | .readDir path => ∃ names, LeadsBelow root path names
  | .visit _ _ => True

/-- A directory lists the names of its entries, and neither itself nor its parent. -/
def Answers : (q : FileRequest) → q.Response → Prop
  | .readDir _, names => ∀ name ∈ names, LegalName name
  | _, _ => True

end FileRequest

/-- Whatever the filesystem answers, the program asks it for nothing outside the root. -/
def StaysInRoot {α : Type} (root : Path) (x : FileProgram α) : Prop :=
  ∀ es y, Program.Path x es y → (∀ e ∈ es, e.request.Answers e.response) →
    ∀ e ∈ es, e.request.InRoot root

section Stays

open FileCalls

variable {α S : Type} {self : FsBlobStore} {path : Path}

/-- Every call is for something in the root. -/
abbrev Stays (self : FsBlobStore) (post : α → Prop) (x : Fallible FileProgram α) : Prop :=
  TryWithin (FileRequest.InRoot self.root) FileRequest.Answers post x

abbrev StaysLocal (self : FsBlobStore) (post : α → Prop) (x : Fallible (StateT S FileProgram) α) :
    Prop :=
  LocalWithin (FileRequest.InRoot self.root) FileRequest.Answers post x

theorem stays_lift {post : α → Prop} {result : Except BlobStorageError α}
    (h : ∀ a, result = .ok a → post a) : Stays self post (lift result) := by
  cases result with
  | ok a => exact .pure (h a rfl)
  | error e => exact .throw e

theorem stays_keyToPath (key : Key) : Stays self self.IsKeyPath (lift (self.keyToPath key)) :=
  stays_lift fun _ hpath => ⟨key, keyToPath_eq_ok_iff.mp hpath⟩

theorem stays_orFail {x : FileProgram (Except Errno α)}
    (h : Stays self (fun _ => True) (perform x)) : Stays self (fun _ => True) (orFail x) := by
  refine TryWithin.bind h fun result _ => ?_
  cases result with
  | ok a => exact .pure trivial
  | error e => exact .throw _

theorem stays_checkKeys (keys : List Key) :
    Stays self (fun _ => True) (checkKeys keys) := by
  induction keys with
  | nil => exact .pure trivial
  | cons key rest ih =>
      have hkey : Stays self (fun _ => True) (checkKey key) := by
        unfold checkKey
        cases validateBlobKey key with
        | ok _ => exact .pure trivial
        | error e => exact .throw e
      exact hkey.bind fun _ _ => ih

theorem stays_ensureRoot : Stays self (fun _ => True) (requestCalls.ensureRoot self) := by
  refine TryWithin.bind (.ask ⟨[], (List.append_nil _).symm⟩ fun _ _ => trivial) fun result _ => ?_
  cases result with
  | ok there =>
      cases there with
      | true => exact .pure trivial
      | false => exact .throw _
  | error e =>
      dsimp only
      split_ifs
      · exact .throw _
      · exact .throw _

section File

variable (h : self.IsKeyPath path)

include h

theorem stays_metadata : Stays self (fun _ => True) (perform (requestCalls.metadata path)) := by
  obtain ⟨names, _, hleads⟩ := h.leadsBelow
  exact .ask ⟨names, hleads⟩ fun _ _ => trivial

theorem stays_createFile : Stays self (fun _ => True) (requestCalls.createFile path) := by
  have hcreate : Stays self (fun _ => True) (orFail (requestCalls.create path)) :=
    stays_orFail (.ask h.leadsBelow fun _ _ => trivial)
  unfold createFile
  cases hparent : Posix.parent path with
  | none => exact hcreate
  | some dir =>
      have hdir : Stays self (fun _ => True) (orFail (requestCalls.createDirAll dir)) :=
        stays_orFail (.ask (h.parent hparent) fun _ _ => trivial)
      exact hdir.bind fun _ _ => hcreate

end File

theorem stays_putBlobs (blobs : List BlobInput) :
    Stays self (fun _ => True) (requestCalls.putBlobs self blobs) := by
  induction blobs with
  | nil => exact .pure trivial
  | cons blob rest ih =>
      refine (stays_keyToPath blob.key).bind fun path hpath => ?_
      refine (stays_createFile hpath).bind fun _ _ => ?_
      cases blob.data.readToEnd with
      | error e =>
          have hpart : Stays self (fun _ => True)
              (orFail (requestCalls.writePart path blob.data.bytes)) :=
            stays_orFail (.ask hpath.leadsBelow fun _ _ => trivial)
          exact hpart.bind fun _ _ => .throw _
      | ok content =>
          have hwrite : Stays self (fun _ => True) (orFail (requestCalls.write path content)) :=
            stays_orFail (.ask hpath.leadsBelow fun _ _ => trivial)
          refine hwrite.bind fun _ _ => ?_
          refine (stays_orFail (stays_metadata hpath)).bind fun found _ => ?_
          exact ih.bind fun others _ => .pure trivial

theorem stays_put (blobs : List BlobInput) :
    Stays self (fun _ => True) (requestCalls.put self blobs) := by
  refine (stays_checkKeys _).bind fun _ _ => ?_
  refine stays_ensureRoot.bind fun _ _ => ?_
  exact (stays_putBlobs blobs).bind fun infos _ => .pure trivial

theorem stays_get (key : Key) : Stays self (fun _ => True) (requestCalls.get self key) := by
  refine stays_ensureRoot.bind fun _ _ => ?_
  refine (stays_keyToPath key).bind fun path hpath => ?_
  refine (stays_metadata hpath).bind fun found _ => ?_
  cases found with
  | ok _ => exact stays_orFail (.ask hpath.leadsBelow fun _ _ => trivial)
  | error _ => exact .throw _

theorem stays_deleteEach (keys : List Key) :
    Stays self (fun _ => True) (requestCalls.deleteEach self keys) := by
  induction keys with
  | nil => exact .pure trivial
  | cons key rest ih =>
      refine (stays_keyToPath key).bind fun path hpath => ?_
      have hremove : Stays self (fun _ => True) (perform (requestCalls.removeFile path)) :=
        .ask hpath.leadsBelow fun _ _ => trivial
      refine hremove.bind fun result _ => ?_
      cases result with
      | ok _ => exact ih.bind fun _ _ => .pure trivial
      | error e => cases e <;> exact ih.bind fun _ _ => .pure trivial

theorem stays_delete (keys : List Key) :
    Stays self (fun _ => True) (requestCalls.delete self keys) := by
  refine (stays_checkKeys keys).bind fun _ _ => ?_
  refine stays_ensureRoot.bind fun _ _ => ?_
  refine (stays_deleteEach keys).bind fun result _ => ?_
  dsimp only
  split_ifs
  · exact .pure trivial
  · exact .throw _

theorem stays_existsBlob (key : Key) :
    Stays self (fun _ => True) (requestCalls.existsBlob self key) := by
  refine stays_ensureRoot.bind fun _ _ => ?_
  refine (stays_keyToPath key).bind fun path hpath => ?_
  exact (stays_metadata hpath).bind fun found _ => .pure trivial

theorem stays_fileMeta (key : Key) :
    Stays self (fun _ => True) (requestCalls.fileMeta self key) := by
  refine (stays_keyToPath key).bind fun path hpath => ?_
  refine (stays_metadata hpath).bind fun found _ => ?_
  cases found with
  | ok found => exact .pure trivial
  | error e => cases e <;> exact .throw _

theorem stays_getWithMetadata (key : Key) :
    Stays self (fun _ => True) (requestCalls.getWithMetadata self key) := by
  refine stays_ensureRoot.bind fun _ _ => ?_
  refine (stays_fileMeta key).bind fun info _ => ?_
  exact (stays_get key).bind fun reader _ => .pure trivial

section Walk

-- What a walk does with the files it finds may do anything that stays in the root.
variable {onFile : Path → Key → Fallible (StateT S FileProgram) Bool}
  (honFile : ∀ path names key, names ≠ [] → LeadsBelow self.root path names →
    StaysLocal self (fun _ => True) (onFile path key))

theorem stays_dirExists (h : ∃ names, LeadsBelow self.root path names) :
    Stays self (fun _ => True) (requestCalls.dirExists path) := by
  have hmeta : Stays self (fun _ => True) (perform (requestCalls.metadata path)) :=
    .ask h fun _ _ => trivial
  refine hmeta.bind fun found _ => ?_
  cases found with
  | ok found => exact .pure trivial
  | error e =>
      cases e with
      | noEntry => exact .pure trivial
      | notDirectory | isDirectory | alreadyExists | nameTooLong | invalidInput => exact .throw _

include honFile

theorem stays_walkEntries {dir names : Path} {entries : List Name}
    (hdir : LeadsBelow self.root dir names) (hentries : ∀ name ∈ entries, LegalName name) :
    StaysLocal self (fun result => ∀ dir ∈ result.2, ∃ names, LeadsBelow self.root dir names)
      (requestCalls.walkEntries self onFile dir entries) := by
  induction entries with
  | nil => exact .pure (List.forall_mem_nil _)
  | cons name rest ih =>
      rw [List.forall_mem_cons] at hentries
      have hpath := hdir.concat hentries.1
      have hmeta : StaysLocal self (fun _ => True)
          (performLocal (requestCalls.metadata (join dir [name])) :
            Fallible (StateT S FileProgram) _) :=
        .ask ⟨_, hpath⟩ fun _ _ => trivial
      refine hmeta.bind fun found _ => ?_
      split_ifs
      · cases stripPrefix self.root (join dir [name]) with
        | none => exact ih hentries.2
        | some relative =>
            have hfile := honFile _ _ (text relative) (List.concat_ne_nil _ _) hpath
            refine hfile.bind fun more _ => ?_
            split_ifs
            · exact ih hentries.2
            · exact .pure (List.forall_mem_nil _)
      · refine hmeta.bind fun again _ => ?_
        split_ifs
        · refine (ih hentries.2).bind fun result hresult => ?_
          exact .pure (List.forall_mem_cons.mpr ⟨⟨_, hpath⟩, hresult⟩)
        · exact ih hentries.2

/-- All directories that wait to be walked are below the root. -/
theorem stays_walkDirs (fuel : Nat) {queue : List Path}
    (h : ∀ dir ∈ queue, ∃ names, LeadsBelow self.root dir names) :
    StaysLocal self (fun _ => True) (requestCalls.walkDirs self onFile fuel queue) := by
  induction fuel generalizing queue with
  | zero =>
      cases queue with
      | nil => exact .pure trivial
      | cons dir queue => exact .throw _
  | succ fuel ih =>
      cases queue with
      | nil => exact .pure trivial
      | cons dir queue =>
          rw [List.forall_mem_cons] at h
          obtain ⟨⟨names, hdir⟩, hqueue⟩ := h
          refine (LocalWithin.withLocal (stays_dirExists ⟨names, hdir⟩)).bind fun there _ => ?_
          split_ifs
          · have hread : StaysLocal self (fun entries => ∀ name ∈ entries, LegalName name)
                (performLocal (requestCalls.readDir dir) :
                  Fallible (StateT S FileProgram) (List Name)) :=
              .ask ⟨names, hdir⟩ fun _ hanswer => hanswer
            refine hread.bind fun entries hentries => ?_
            refine (stays_walkEntries honFile hdir hentries).bind fun result hdirs => ?_
            dsimp only
            split_ifs
            · exact ih (List.forall_mem_append.mpr ⟨hqueue, hdirs⟩)
            · exact .pure trivial
          · exact ih hqueue

theorem stays_walk (fuel : Nat) (filter : ListFilter) :
    StaysLocal self (fun _ => True) (requestCalls.walk self fuel filter onFile) := by
  refine (LocalWithin.withLocal stays_ensureRoot).bind fun _ _ => ?_
  cases hstart : self.prefixSubdir filter with
  | error e => exact .throw e
  | ok start =>
      exact stays_walkDirs honFile fuel
        (List.forall_mem_singleton.mpr (self.leadsBelow_prefixSubdir hstart))

omit honFile

theorem stays_list (fuel : Nat) (filter : ListFilter) :
    Stays self (fun _ => True) (requestCalls.list self fuel filter) := by
  refine (TryWithin.scopeLocal (stays_walk (fun path names key _ _ => ?_) fuel filter) []).bind
    fun _ _ => .pure trivial
  split_ifs
  · exact LocalWithin.getLocal.bind fun keys _ =>
      (LocalWithin.setLocal _).bind fun _ _ => .pure trivial
  · exact .pure trivial

theorem stays_walkedMeta (h : ∃ names, LeadsBelow self.root path names) (key : Key) :
    StaysLocal self (fun _ => True)
      (requestCalls.walkedMeta path key : Fallible (StateT S FileProgram) BlobMeta) := by
  have hmeta : StaysLocal self (fun _ => True)
      (performLocal (requestCalls.metadata path) : Fallible (StateT S FileProgram) _) :=
    .ask h fun _ _ => trivial
  refine hmeta.bind fun found _ => ?_
  cases found with
  | ok found => exact .pure trivial
  | error e => exact .throw _

theorem stays_visit (fuel : Nat) (filter : ListFilter) :
    StaysLocal self (fun _ => True) (requestCalls.visit self fuel filter requestVisitor) := by
  refine stays_walk (fun path names key _ hpath => ?_) fuel filter
  split_ifs
  · refine (stays_walkedMeta ⟨names, hpath⟩ key).bind fun info _ => ?_
    exact .withLocal ⟨trivial, fun _ _ _ _ => trivial⟩
  · exact .pure trivial

theorem stays_listWithMetadata (fuel : Nat) (filter : ListFilter) :
    Stays self (fun _ => True) (requestCalls.listWithMetadata self fuel filter) := by
  refine (TryWithin.scopeLocal (stays_walk (fun path names key _ hpath => ?_) fuel filter) []).bind
    fun _ _ => .pure trivial
  split_ifs
  · refine (stays_walkedMeta ⟨names, hpath⟩ key).bind fun info _ => ?_
    exact LocalWithin.getLocal.bind fun infos _ =>
      (LocalWithin.setLocal _).bind fun _ _ => .pure trivial
  · exact .pure trivial

end Walk

end Stays

theorem inRoot_new (root : Path) :
    FileRequest.InRoot (FsBlobStore.new root).root = FileRequest.InRoot root := by
  funext q
  cases q <;> simp only [FileRequest.InRoot, LeadsBelow, components_new]

theorem staysInRoot_of_within {α : Type} {root : Path} {post : α → Prop} {x : FileProgram α}
    (h : Within (FileRequest.InRoot (FsBlobStore.new root).root) FileRequest.Answers post x) :
    StaysInRoot root x := by
  rw [inRoot_new] at h
  exact fun es y hpath hanswers => h.path hpath hanswers

/-- Whatever the key, its path is the root with names behind it, and the directory of a hint is the
root with or without such names; and whatever the filesystem answers, no operation asks it for
anything that is not the root or below it, or for a file that is not below it. -/
theorem FsBlobStore.never_leaves_root (root : Path) :
    (∀ key path, (FsBlobStore.new root).keyToPath key = .ok path →
      ∃ names, names ≠ [] ∧ LeadsBelow root path names) ∧
    (∀ filter path, (FsBlobStore.new root).prefixSubdir filter = .ok path →
      ∃ names, LeadsBelow root path names) ∧
    (∀ blobs, StaysInRoot root (requestCalls.put (FsBlobStore.new root) blobs).run) ∧
    (∀ key, StaysInRoot root (requestCalls.get (FsBlobStore.new root) key).run) ∧
    (∀ key, StaysInRoot root (requestCalls.getWithMetadata (FsBlobStore.new root) key).run) ∧
    (∀ key, StaysInRoot root (requestCalls.existsBlob (FsBlobStore.new root) key).run) ∧
    (∀ keys, StaysInRoot root (requestCalls.delete (FsBlobStore.new root) keys).run) ∧
    (∀ fuel filter, StaysInRoot root (requestCalls.list (FsBlobStore.new root) fuel filter).run) ∧
    (∀ fuel filter, StaysInRoot root
      ((requestCalls.visit (FsBlobStore.new root) fuel filter requestVisitor).run.run ())) ∧
    ∀ fuel filter, StaysInRoot root
      (requestCalls.listWithMetadata (FsBlobStore.new root) fuel filter).run := by
  have hbelow : LeadsBelow (FsBlobStore.new root).root = LeadsBelow root := by
    funext path names
    simp only [LeadsBelow, components_new]
  refine ⟨fun key path hkey => ?_, fun filter path hhint => ?_,
    fun blobs => staysInRoot_of_within (stays_put blobs),
    fun key => staysInRoot_of_within (stays_get key),
    fun key => staysInRoot_of_within (stays_getWithMetadata key),
    fun key => staysInRoot_of_within (stays_existsBlob key),
    fun keys => staysInRoot_of_within (stays_delete keys),
    fun fuel filter => staysInRoot_of_within (stays_list fuel filter),
    fun fuel filter => staysInRoot_of_within (stays_visit fuel filter ()),
    fun fuel filter => staysInRoot_of_within (stays_listWithMetadata fuel filter)⟩
  · obtain ⟨hvalid, hpath⟩ := keyToPath_eq_ok_iff.mp hkey
    rw [← hbelow]
    exact IsKeyPath.leadsBelow ⟨key, hvalid, hpath⟩
  · rw [← hbelow]
    exact leadsBelow_prefixSubdir _ hhint

theorem FsBlobStore.never_leaves_root_hint : ∃ path names,
    (FsBlobStore.new [[], ['d']]).prefixSubdir (prefixFilter ['a', '/', '/', 'b']) = .ok path ∧
      LeadsBelow [[], ['d']] path names := by
  obtain ⟨names, hnames⟩ := (FsBlobStore.never_leaves_root [[], ['d']]).2.1
    (prefixFilter ['a', '/', '/', 'b']) _ rfl
  exact ⟨_, names, rfl, hnames⟩

end BlobStorage
