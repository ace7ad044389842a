import BlobStorage.Backend.Fs.Paths
import BlobStorage.Browsing.Loop

/-!
# The walk of the filesystem backend

The three listing operations share one loop. Over a tree that stays as it is, the loop
hands the files that `walked` names to a callback, one after another, until the callback
ends it, so that what the backend shows of itself is a plain function of the tree.
-/

namespace BlobStorage

open Fallible Posix FileTree

namespace FsBlobStore

variable {S : Type} {self : FsBlobStore} {s : FsState}

section Walked

variable (self : FsBlobStore) (s : FsState)

/-- The file at a path, with the record that the backend makes of it. -/
def fileFound (path : Path) : Option (Path × BlobMeta) :=
  match self.stat s path, stripPrefix self.root path with
  | .ok (.file data), some relative =>
      some (path, { key := text relative, storedSize := data.content.length,
                    modifiedAt := data.modifiedAt, etag := none })
  | _, _ => none

def filesFound (dir : Path) (found : List Name) : List (Path × BlobMeta) :=
  found.filterMap fun name => self.fileFound s (join dir [name])

def dirsFound (dir : Path) (found : List Name) : List Path :=
  (found.map fun name => join dir [name]).filter (self.isDir s)

/-- The files that the loop comes by, and the error that it ends in. -/
def walked : Nat → List Path → List (Path × BlobMeta) × Option BlobStorageError
  | _, [] => ([], none)
  | 0, _ :: _ => ([], some (.storage "directory walk did not end" none))
  | fuel + 1, dir :: queue =>
      match self.dirExists s dir with
      | .error e => ([], some e)
      | .ok false => walked fuel queue
      | .ok true =>
          let found := s.tree.readDir (self.names dir)
          let later := walked fuel (queue ++ self.dirsFound s dir found)
          (self.filesFound s dir found ++ later.1, later.2)

/-- What `ensure_root` says. -/
def rootAnswer : Except BlobStorageError Unit := (exec self.ensureRoot s).1

/-- The walk that a filter asks for. -/
def walkedFor (filter : ListFilter) : List (Path × BlobMeta) × Option BlobStorageError :=
  match self.rootAnswer s, self.prefixSubdir filter with
  | .error e, _ => ([], some e)
  | .ok _, .error e => ([], some e)
  | .ok _, .ok start => self.walked s (s.tree.nodes.keys.length + 1) [start]

end Walked

/-- The callback of a walk, for a file that the walk came by. -/
def onWalked (onFile : OnFile S) : OnItem FsState S (Path × BlobMeta) :=
  fun file => onFile file.1 file.2.key

section Loop

theorem isFile_eq_true_iff {path : Path} :
    self.isFile s path = true ↔ ∃ data, self.stat s path = .ok (.file data) := by
  unfold isFile
  split
  · next data h => simp [h]
  · next h => simpa using h

theorem isDir_eq_true_iff {path : Path} :
    self.isDir s path = true ↔ self.stat s path = .ok .dir := by
  unfold isDir
  split
  · next h => simp [h]
  · next h => simpa using h

/-- The loop over the entries: the files are handed over, the subdirectories come after. -/
theorem execLocal_walkEntries {onFile : OnFile S}
    (hquiet : ∀ path key l, (execLocal (onFile path key) l s).2 = s) (dir : Path)
    (found : List Name) {after : Bool × List Path → Fallible (StateT S (StateM FsState)) Unit}
    (hstop : ∀ dirs, after (false, dirs) = pure ()) (l : S) :
    execLocal (self.walkEntries onFile dir found >>= after) l s =
      execLocal (handEach (onWalked onFile) (after (true, self.dirsFound s dir found))
        (self.filesFound s dir found)) l s := by
  induction found generalizing after l with
  | nil => rfl
  | cons name rest ih =>
      rw [walkEntries, bind_assoc, execLocal_getState_bind]
      dsimp only
      rw [filesFound, List.filterMap_cons, dirsFound, List.map_cons, List.filter_cons]
      by_cases hfile : self.isFile s (join dir [name]) = true
      · obtain ⟨data, hstat⟩ := isFile_eq_true_iff.mp hfile
        have hdir : ¬self.isDir s (join dir [name]) = true := by
          rw [isDir_eq_true_iff, hstat]
          simp
        rw [if_pos hfile, if_neg hdir, fileFound, hstat]
        cases stripPrefix self.root (join dir [name]) with
        | none => exact ih hstop l
        | some relative =>
            dsimp only
            rw [handEach, bind_assoc]
            apply execLocal_ifMore_congr (hquiet _ _ l)
            intro more k
            cases more with
            | false =>
                change execLocal (pure (false, []) >>= after) k _ = _
                rw [pure_bind, hstop]
                rfl
            | true => exact ih hstop k
      · have hnone : self.fileFound s (join dir [name]) = none := by
          unfold fileFound
          split
          · next data _ hstat _ => exact absurd (isFile_eq_true_iff.mpr ⟨data, hstat⟩) hfile
          · rfl
        rw [if_neg hfile, hnone]
        by_cases hdir : self.isDir s (join dir [name]) = true
        · rw [if_pos hdir, if_pos hdir, bind_assoc]
          have hskip := @ih (fun result : Bool × List Path =>
            after (result.1, join dir [name] :: result.2)) (fun dirs => hstop _) l
          exact hskip
        · rw [if_neg hdir, if_neg hdir]
          exact ih hstop l

theorem execLocal_walkDirs {onFile : OnFile S}
    (hquiet : ∀ path key l, (execLocal (onFile path key) l s).2 = s) (fuel : Nat)
    (queue : List Path) (l : S) :
    execLocal (self.walkDirs onFile fuel queue) l s =
      execLocal (handEach (onWalked onFile) (ending (self.walked s fuel queue).2)
        (self.walked s fuel queue).1) l s := by
  induction fuel generalizing queue l with
  | zero => cases queue <;> rfl
  | succ fuel ih =>
      cases queue with
      | nil => rfl
      | cons dir queue =>
          have hrun : execLocal (self.walkDirs onFile (fuel + 1) (dir :: queue)) l s =
              execLocal (lift (self.dirExists s dir) >>= fun there =>
                if there then
                  self.walkEntries onFile dir (s.tree.readDir (self.names dir)) >>= fun result =>
                    if result.1 then self.walkDirs onFile fuel (queue ++ result.2) else pure ()
                else self.walkDirs onFile fuel queue) l s := by
            rw [walkDirs, execLocal_bind]
            rfl
          rw [hrun, walked]
          cases self.dirExists s dir with
          | error e => rfl
          | ok there =>
              cases there with
              | false => exact ih queue l
              | true =>
                  dsimp only
                  rw [handEach_append]
                  refine (execLocal_walkEntries hquiet dir _ (fun _ => rfl) l).trans ?_
                  have hfiles : (onWalked onFile).QuietAt s := fun file => hquiet file.1 file.2.key
                  apply execLocal_handEach_congr hfiles
                  intro k
                  exact ih _ k

theorem exec_ensureRoot (self : FsBlobStore) (s : FsState) :
    exec self.ensureRoot s = (self.rootAnswer s, s) := by
  unfold rootAnswer ensureRoot
  rw [exec_bind, exec_getState]
  dsimp only
  split
  · rfl
  · rfl
  · split <;> rfl

/-- The walk of a filter, for a callback that leaves the state alone. -/
theorem execLocal_walk {onFile : OnFile S}
    (hquiet : ∀ path key l, (execLocal (onFile path key) l s).2 = s) (filter : ListFilter)
    (l : S) :
    execLocal (self.walk filter onFile) l s =
      execLocal (handEach (onWalked onFile) (ending (self.walkedFor s filter).2)
        (self.walkedFor s filter).1) l s := by
  unfold walk walkedFor
  rw [execLocal_bind, execLocal_withLocal, exec_ensureRoot]
  cases self.rootAnswer s with
  | error e => rfl
  | ok _ =>
      dsimp only
      cases self.prefixSubdir filter with
      | error e => rfl
      | ok start => exact execLocal_walkDirs hquiet _ _ l

end Loop

section Answers

theorem exec_lift {α : Type} (result : Except BlobStorageError α) :
    exec (lift result : Fallible (StateM FsState) α) s = (result, s) := by
  cases result <;> rfl

theorem exec_call {α : Type} (result : Except Errno α) :
    exec (call result : Fallible (StateM FsState) α) s =
      (result.mapError fun e => .ofIo (ioError e), s) := by
  cases result <;> rfl

/-- What `get` and `file_meta` make of a path, once they have it. -/
def getAt (self : FsBlobStore) (s : FsState) (key : Key) (path : Path) :
    Except BlobStorageError Reader :=
  match self.stat s path with
  | .ok node => .ok (openNode node)
  | .error _ => .error (.notFound key)

def metaAt (self : FsBlobStore) (s : FsState) (key : Key) (path : Path) :
    Except BlobStorageError BlobMeta :=
  match self.stat s path with
  | .ok node => .ok { key, storedSize := (self.nodeStat s path node).1,
                      modifiedAt := (self.nodeStat s path node).2, etag := none }
  | .error .noEntry => .error (.notFound key)
  | .error e => .error (.storage s!"stat failed for '{String.ofList key}'" (some (.io (ioError e))))

variable (self : FsBlobStore) (s : FsState) (key : Key)

def existsAnswer : Except BlobStorageError Bool := do
  self.rootAnswer s
  let path ← self.keyToPath key
  pure (self.isFile s path)

def getAnswer : Except BlobStorageError Reader := do
  self.rootAnswer s
  let path ← self.keyToPath key
  self.getAt s key path

def metaAnswer : Except BlobStorageError BlobMeta := do
  let path ← self.keyToPath key
  self.metaAt s key path

def getWithMetadataAnswer : Except BlobStorageError (BlobMeta × Reader) := do
  self.rootAnswer s
  let info ← self.metaAnswer s key
  let reader ← self.getAnswer s key
  pure (info, reader)

theorem exec_existsBlob : exec (self.existsBlob key) s = (self.existsAnswer s key, s) :=
  exec_bind_answer (exec_ensureRoot self s) fun _ =>
    exec_bind_answer (exec_lift _) fun _ => rfl

theorem exec_get : exec (self.get key) s = (self.getAnswer s key, s) := by
  apply exec_bind_answer (exec_ensureRoot self s)
  intro _
  apply exec_bind_answer (exec_lift _)
  intro path
  rw [exec_bind, exec_getState]
  unfold pathExists getAt
  dsimp only
  cases self.stat s path with
  | ok node => rfl
  | error e => rfl

theorem exec_fileMeta : exec (self.fileMeta key) s = (self.metaAnswer s key, s) := by
  apply exec_bind_answer (exec_lift _)
  intro path
  rw [exec_bind, exec_getState]
  unfold metaAt
  dsimp only
  cases self.stat s path with
  | ok node => rfl
  | error e => cases e <;> rfl

theorem exec_getWithMetadata :
    exec (self.getWithMetadata key) s = (self.getWithMetadataAnswer s key, s) :=
  exec_bind_answer (exec_ensureRoot self s) fun _ =>
    exec_bind_answer (exec_fileMeta self s key) fun _ =>
      exec_bind_answer (exec_get self s key) fun _ => rfl

end Answers

section Shown

/-- What the walk of a filter comes by. -/
def found (self : FsBlobStore) (s : FsState) (filter : ListFilter) :
    List BlobMeta × Option BlobStorageError :=
  ((self.walkedFor s filter).1.map Prod.snd, (self.walkedFor s filter).2)

/-- What the backend shows in the state `s`. -/
def shown (self : FsBlobStore) (s : FsState) : Shown :=
  .enumerating (self.getAnswer s) (self.existsAnswer s) (self.getWithMetadataAnswer s)
    (self.found s)

/-- The record of a file that the walk came by is the one that `stat` gives again. -/
theorem walkedMeta_of_fileFound {path : Path} {file : Path × BlobMeta}
    (h : self.fileFound s path = some file) (l : S) :
    execLocal (self.walkedMeta file.1 file.2.key) l s = ((.ok file.2, l), s) := by
  unfold fileFound at h
  split at h
  · next data relative hstat _ =>
      cases h
      unfold walkedMeta
      rw [execLocal_bind, execLocal_withLocal, exec_getState]
      dsimp only
      rw [hstat]
      rfl
  · cases h

theorem fileFound_of_mem_walked {fuel : Nat} {queue : List Path} {file : Path × BlobMeta}
    (h : file ∈ (self.walked s fuel queue).1) : ∃ path, self.fileFound s path = some file := by
  induction fuel generalizing queue with
  | zero => cases queue <;> cases h
  | succ fuel ih =>
      cases queue with
      | nil => cases h
      | cons dir queue =>
          rw [walked] at h
          split at h
          · cases h
          · exact ih h
          · obtain hfile | hlater := List.mem_append.mp h
            · obtain ⟨name, _, hname⟩ := List.mem_filterMap.mp hfile
              exact ⟨_, hname⟩
            · exact ih hlater

theorem walkedMeta_of_mem {filter : ListFilter} {file : Path × BlobMeta}
    (h : file ∈ (self.walkedFor s filter).1) (l : S) :
    execLocal (self.walkedMeta file.1 file.2.key) l s = ((.ok file.2, l), s) := by
  unfold walkedFor at h
  split at h
  · cases h
  · cases h
  · obtain ⟨path, hpath⟩ := fileFound_of_mem_walked h
    exact walkedMeta_of_fileFound hpath l

/-- What `visit` and `list_with_metadata` do with a file. -/
def onSelected (self : FsBlobStore) (filter : ListFilter)
    (next : Key → BlobMeta → Fallible (StateT S (StateM FsState)) Bool) : OnFile S :=
  fun path key => do
    if filter.matchesBlob key none then do
      let info ← self.walkedMeta path key
      next key info
    else pure true

variable {filter : ListFilter}
  {next : Key → BlobMeta → Fallible (StateT S (StateM FsState)) Bool}

theorem execLocal_onSelected_of_mem {file : Path × BlobMeta}
    (h : file ∈ (self.walkedFor s filter).1) (l : S) :
    execLocal (self.onSelected filter next file.1 file.2.key) l s =
      if filter.matchesBlob file.2.key none then execLocal (next file.2.key file.2) l s
      else ((.ok true, l), s) := by
  unfold onSelected
  split
  · rw [execLocal_bind, walkedMeta_of_mem h l]
  · rfl

theorem onSelected_quiet (h : ∀ key info l, (execLocal (next key info) l s).2 = s) :
    ∀ path key l, (execLocal (self.onSelected filter next path key) l s).2 = s := by
  intro path key l
  have hstay : (execLocal (self.walkedMeta path key) l s).2 = s := by
    unfold walkedMeta
    rw [execLocal_bind, execLocal_withLocal, exec_getState]
    dsimp only
    split <;> rfl
  unfold onSelected
  split
  · rw [execLocal_bind]
    cases hcall : execLocal (self.walkedMeta path key) l s with
    | mk result t =>
        rw [hcall] at hstay
        obtain rfl : t = s := hstay
        obtain ⟨answer, k⟩ := result
        cases answer with
        | error e => rfl
        | ok info => exact h key info k
  · rfl

theorem exec_list (filter : ListFilter) :
    exec (self.list filter) s = ((self.shown s).list filter, s) := by
  apply exec_scopeLocal_walkEnd
  rw [execLocal_walk, @execLocal_handEach_gather _ _ s Key _ filter Prod.snd BlobMeta.key]
  · rfl
  · intro file _ l
    unfold onWalked
    dsimp only
    split <;> rfl
  · intro path key l
    split <;> rfl

theorem exec_listWithMetadata (filter : ListFilter) :
    exec (self.listWithMetadata filter) s = ((self.shown s).listWithMetadata filter, s) := by
  apply exec_scopeLocal_walkEnd
  change execLocal (self.walk filter (self.onSelected filter fun _ info => do
    let infos ← getLocal
    setLocal (infos ++ [info])
    pure true)) [] s = _
  rw [execLocal_walk, @execLocal_handEach_gather _ _ s BlobMeta _ filter Prod.snd id]
  · rw [List.nil_append, List.map_id]
    rfl
  · intro file hfile l
    unfold onWalked
    rw [execLocal_onSelected_of_mem hfile]
    split <;> rfl
  · exact onSelected_quiet fun _ _ _ => rfl

theorem execLocal_visit (filter : ListFilter) {visitor : BlobVisitor (StateM FsState) S}
    (hquiet : visitor.QuietAt s) (l : S) :
    execLocal (self.visit filter visitor) l s =
      execLocal (walkEach visitor ((self.shown s).walk filter).2 ((self.shown s).walk filter).1) l
        s := by
  refine (execLocal_walk (onSelected_quiet fun key info => hquiet key (some info)) filter l).trans ?_
  apply @execLocal_handEach_visit _ _ _ s _ filter Prod.snd _ hquiet
  intro file hfile l
  unfold onWalked
  rw [execLocal_onSelected_of_mem hfile]

/-- The filesystem backend enumerates the files of its tree, and shows them so. -/
theorem browses (self : FsBlobStore) (s : FsState) : Browses self.toBlobStore s (self.shown s) where
  existsBlob := self.exec_existsBlob s
  list := exec_list
  visit filter _ l hquiet := execLocal_visit filter hquiet l
  get := self.exec_get s
  getWithMetadata := self.exec_getWithMetadata s
  listWithMetadata := exec_listWithMetadata

end Shown

end FsBlobStore

end BlobStorage
