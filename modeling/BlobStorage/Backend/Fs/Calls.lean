import BlobStorage.Backend.Fs.Walk

/-!
# The filesystem backend, call by call

`fs.rs` and `fs/store.rs` once more, over whatever the calls of the filesystem do: each operation
makes them one after another, with the paths that it makes itself. Over the tree of
`Backend.Fs` these are the operations defined there.
-/

namespace BlobStorage

open Fallible Posix FileTree FsBlobStore

/-- What `fs::metadata` says of a file or a directory. -/
structure Metadata where
  isDir : Bool
  len : Nat
  modified : DateTime
  deriving DecidableEq, Repr

/-- The calls that the backend makes of the filesystem. -/
structure FileCalls (m : Type → Type) where
  /-- `fs::metadata` of the root, which can fail in any way: whether it is a directory. -/
  rootMetadata : Path → m (Except IoError Bool)
  /-- `fs::metadata`, which `exists`, `is_file` and `is_dir` are made of too. -/
  metadata : Path → m (Except Errno Metadata)
  createDirAll : Path → m (Except Errno Unit)
  /-- `File::create`. -/
  create : Path → m (Except Errno Unit)
  /-- What is then copied to the file. -/
  write : Path → Bytes → m (Except Errno Unit)
  /-- The same, of a stream that breaks off after these bytes. -/
  writePart : Path → Bytes → m (Except Errno Unit)
  /-- `File::open`. -/
  openFile : Path → m (Except Errno Reader)
  removeFile : Path → m (Except Errno Unit)
  /-- The names of the entries. -/
  readDir : Path → m (List Name)

namespace FileCalls

/-- `Path::is_file`. -/
def isFile : Except Errno Metadata → Bool
  | .ok found => !found.isDir
  | .error _ => false

/-- `Path::is_dir`. -/
def isDir : Except Errno Metadata → Bool
  | .ok found => found.isDir
  | .error _ => false

def blobMeta (key : Key) (found : Metadata) : BlobMeta :=
  { key, storedSize := found.len, modifiedAt := found.modified, etag := none }

variable {m : Type → Type} [Monad m] (fs : FileCalls m) (self : FsBlobStore)

/-- A call with `?` behind it. -/
def orFail {α : Type} (x : m (Except Errno α)) : Fallible m α := do
  let result ← perform x
  call result

/-- `ensure_root`. -/
def ensureRoot : Fallible m Unit := do
  match ← perform (fs.rootMetadata self.root) with
  | .ok true => pure ()
  | .ok false => throw (.backendMisconfigured
      s!"FS root '{debugPath self.root}' is not a directory")
  | .error e =>
      if e.kind = .notFound then throw (.backendMisconfigured
        s!"FS root directory '{debugPath self.root}' does not exist")
      else throw (.storage s!"cannot stat FS root '{debugPath self.root}'" (some (.io e)))

/-- The parent of the file and the file itself. -/
def createFile (path : Path) : Fallible m Unit := do
  match parent path with
  | some dir => orFail (fs.createDirAll dir)
  | none => pure ()
  orFail (fs.create path)

/-- The loop of `put`. -/
def putBlobs : List BlobInput → Fallible m (List BlobMeta)
  | [] => pure []
  | blob :: rest => do
      let path ← lift (self.keyToPath blob.key)
      fs.createFile path
      match blob.data.readToEnd with
      | .error e => do
          orFail (fs.writePart path blob.data.bytes)
          throw (.ofIo e)
      | .ok content => do
          orFail (fs.write path content)
          let found ← orFail (fs.metadata path)
          let others ← putBlobs rest
          pure (blobMeta blob.key found :: others)

def put (blobs : List BlobInput) : Fallible m PutResult := do
  checkKeys (blobs.map BlobInput.key)
  fs.ensureRoot self
  let infos ← fs.putBlobs self blobs
  pure { blobs := infos }

def get (key : Key) : Fallible m Reader := do
  fs.ensureRoot self
  let path ← lift (self.keyToPath key)
  match ← perform (fs.metadata path) with
  | .ok _ => orFail (fs.openFile path)
  | .error _ => throw (.notFound key)

/-- The loop of `delete`. -/
def deleteEach : List Key → Fallible m (List Key × List KeyError)
  | [] => pure ([], [])
  | key :: rest => do
      let path ← lift (self.keyToPath key)
      match ← perform (fs.removeFile path) with
      | .ok _ => do
          let (succeeded, errors) ← deleteEach rest
          pure (key :: succeeded, errors)
      | .error .noEntry => do
          let (succeeded, errors) ← deleteEach rest
          pure (key :: succeeded, errors)
      | .error e => do
          let (succeeded, errors) ← deleteEach rest
          pure (succeeded, { key, error := mapIoErrorToPerKey (ioError e) } :: errors)

def delete (keys : List Key) : Fallible m Unit := do
  checkKeys keys
  fs.ensureRoot self
  let (succeeded, errors) ← fs.deleteEach self keys
  if errors = [] then pure () else throw (.batch { succeeded, errors })

def existsBlob (key : Key) : Fallible m Bool := do
  fs.ensureRoot self
  let path ← lift (self.keyToPath key)
  let found ← perform (fs.metadata path)
  pure (isFile found)

/-- The error of a failed `stat` of a blob. -/
def statFailed (key : Key) (e : Errno) : BlobStorageError :=
  .storage s!"stat failed for '{String.ofList key}'" (some (.io (ioError e)))

/-- `file_meta`. -/
def fileMeta (key : Key) : Fallible m BlobMeta := do
  let path ← lift (self.keyToPath key)
  match ← perform (fs.metadata path) with
  | .ok found => pure (blobMeta key found)
  | .error .noEntry => throw (.notFound key)
  | .error e => throw (statFailed key e)

def getWithMetadata (key : Key) : Fallible m (BlobMeta × Reader) := do
  fs.ensureRoot self
  let info ← fs.fileMeta self key
  let reader ← fs.get self key
  pure (info, reader)

/-- `dir_exists`. -/
def dirExists (path : Path) : Fallible m Bool := do
  match ← perform (fs.metadata path) with
  | .ok found => pure found.isDir
  | .error .noEntry => pure false
  | .error e => throw (.ofIo (ioError e))

section Walk

variable {S : Type}

/-- The loop over the entries of a directory. It returns whether to go on, and the
subdirectories it met. -/
def walkEntries (onFile : Path → Key → Fallible (StateT S m) Bool) (dir : Path) :
    List Name → Fallible (StateT S m) (Bool × List Path)
  | [] => pure (true, [])
  | name :: rest => do
      let path := join dir [name]
      let found ← performLocal (fs.metadata path)
      if isFile found then
        match stripPrefix self.root path with
        | some relative => do
            let more ← onFile path (text relative)
            if more then walkEntries onFile dir rest else pure (false, [])
        | none => walkEntries onFile dir rest
      else do
        let again ← performLocal (fs.metadata path)
        if isDir again then do
          let (more, dirs) ← walkEntries onFile dir rest
          pure (more, path :: dirs)
        else walkEntries onFile dir rest

/-- The loop that `list`, `visit` and `list_with_metadata` share, for at most `fuel`
directories. -/
def walkDirs (onFile : Path → Key → Fallible (StateT S m) Bool) :
    Nat → List Path → Fallible (StateT S m) Unit
  | _, [] => pure ()
  | 0, _ :: _ => throw (.storage "directory walk did not end" none)
  | fuel + 1, dir :: queue => do
      let there ← withLocal (fs.dirExists dir)
      if there then do
        let entries ← performLocal (fs.readDir dir)
        let (more, dirs) ← fs.walkEntries self onFile dir entries
        if more then walkDirs onFile fuel (queue ++ dirs) else pure ()
      else walkDirs onFile fuel queue

def walk (fuel : Nat) (filter : ListFilter)
    (onFile : Path → Key → Fallible (StateT S m) Bool) : Fallible (StateT S m) Unit := do
  withLocal (fs.ensureRoot self)
  let start ← lift (self.prefixSubdir filter)
  fs.walkDirs self onFile fuel [start]

def list (fuel : Nat) (filter : ListFilter) : Fallible m (List Key) := do
  let (_, keys) ← scopeLocal [] (fs.walk self fuel filter fun _ key => do
    if filter.matchesBlob key none then do
      let keys ← getLocal
      setLocal (keys ++ [key])
      pure true
    else pure true)
  pure (sortKeys keys)

/-- The record of a file that a walk came by. -/
def walkedMeta (path : Path) (key : Key) : Fallible (StateT S m) BlobMeta := do
  match ← performLocal (fs.metadata path) with
  | .ok found => pure (blobMeta key found)
  | .error e => throw (statFailed key e)

def visit (fuel : Nat) (filter : ListFilter) (visitor : BlobVisitor m S) :
    Fallible (StateT S m) Unit :=
  fs.walk self fuel filter fun path key => do
    if filter.matchesBlob key none then do
      let info ← fs.walkedMeta path key
      visitor.visit key (some info)
    else pure true

def listWithMetadata (fuel : Nat) (filter : ListFilter) : Fallible m (List BlobMeta) := do
  let (_, infos) ← scopeLocal [] (fs.walk self fuel filter fun path key => do
    if filter.matchesBlob key none then do
      let info ← fs.walkedMeta path key
      let infos ← getLocal
      setLocal (infos ++ [info])
      pure true
    else pure true)
  pure (sortByKey infos)

end Walk

end FileCalls

namespace FsBlobStore

variable (self : FsBlobStore)

/-- Writing a whole file of the tree. -/
def writeCall (path : Path) (content : Bytes) : StateM FsState (Except Errno Unit) := fun s =>
  let names := self.names path
  match s.tree.write names.dropLast (names.getLast?.getD []) { content, modifiedAt := s.clock } with
  | .ok tree => (.ok (), { s with tree })
  | .error e => (.error e, s)

/-- What `stat` says of a node. -/
def nodeMetadata (s : FsState) (path : Path) (node : Node FileData) : Metadata where
  isDir := match node with
    | .dir => true
    | .file _ => false
  len := (self.nodeStat s path node).1
  modified := (self.nodeStat s path node).2

/-- The calls, as they are over the tree. -/
def treeCalls : FileCalls (StateM FsState) where
  rootMetadata _ := fun s => (s.rootStat, s)
  metadata path := fun s => ((self.stat s path).map (self.nodeMetadata s path), s)
  createDirAll path := fun s =>
    let made := s.tree.createDirAll (self.names path).reverse
    (made.1, { s with tree := made.2 })
  create path := self.writeCall path []
  write := self.writeCall
  writePart path content := fun s => self.writeCall path (content.take (s.flushed content)) s
  openFile path := fun s => ((self.stat s path).map openNode, s)
  removeFile path := fun s =>
    match s.tree.unlink (self.names path) with
    | .ok tree => (.ok (), { s with tree })
    | .error e => (.error e, s)
  readDir path := fun s => (s.tree.readDir (self.names path), s)

section Calls

open FileCalls

variable {self} {s : FsState}

theorem exec_orFail {α : Type} (x : StateM FsState (Except Errno α)) :
    exec (orFail x) s = ((x s).1.mapError fun e => .ofIo (ioError e), (x s).2) := by
  rw [orFail, exec_bind, exec_perform]
  exact exec_call _

theorem orFail_createDirAll (path : Path) :
    orFail (self.treeCalls.createDirAll path) = self.createDirAll path := by
  apply exec_ext
  intro s
  rw [exec_orFail, createDirAll, exec_bind_ok (exec_getState s), exec_bind_ok (exec_setState s _),
    exec_call]
  rfl

theorem orFail_writeCall (path : Path) (content : Bytes) :
    orFail (self.writeCall path content) = self.writeFile path content := by
  apply exec_ext
  intro s
  rw [exec_orFail, writeFile, exec_bind_ok (exec_getState s), writeCall]
  dsimp only
  cases s.tree.write (self.names path).dropLast ((self.names path).getLast?.getD [])
    { content, modifiedAt := s.clock } with
  | error e => rfl
  | ok tree => rfl

theorem treeCalls_ensureRoot : self.treeCalls.ensureRoot self = self.ensureRoot := by
  apply exec_ext
  intro s
  rw [FileCalls.ensureRoot, ensureRoot, exec_bind, exec_perform, exec_bind_ok (exec_getState s)]
  rfl

/-- `writePart`, followed by the error of the stream. -/
theorem orFail_writePart (path : Path) (content : Bytes) :
    orFail (self.treeCalls.writePart path content) = (do
      let s ← getState
      self.writeFile path (content.take (s.flushed content))) := by
  apply exec_ext
  intro s
  rw [exec_bind_ok (exec_getState s), ← orFail_writeCall, exec_orFail, exec_orFail]
  rfl

theorem orFail_metadata {α : Type} (path : Path) (f : Metadata → Fallible (StateM FsState) α) :
    orFail (self.treeCalls.metadata path) >>= f = (do
      let s ← getState
      let node ← call (self.stat s path)
      f (self.nodeMetadata s path node)) := by
  apply exec_ext
  intro s
  rw [exec_bind_ok (exec_getState s), exec_bind, exec_bind, exec_orFail, exec_call, treeCalls]
  dsimp only
  cases self.stat s path with
  | error e => rfl
  | ok node => rfl

theorem treeCalls_putBlobs (blobs : List BlobInput) :
    self.treeCalls.putBlobs self blobs = self.putBlobs blobs := by
  induction blobs with
  | nil => rfl
  | cons blob rest ih =>
      rw [FileCalls.putBlobs, putBlobs, ih]
      congr 1
      funext path
      have hcreate : orFail (self.treeCalls.create path) = self.writeFile path [] :=
        orFail_writeCall path []
      have hwrite : ∀ content, orFail (self.treeCalls.write path content) =
          self.writeFile path content := orFail_writeCall path
      rw [createFile]
      simp only [orFail_createDirAll, hcreate, hwrite, orFail_writePart, orFail_metadata]
      cases parent path with
      | none => cases blob.data.readToEnd <;> simp [bind_assoc, blobMeta, nodeMetadata]
      | some dir => cases blob.data.readToEnd <;> simp [bind_assoc, blobMeta, nodeMetadata]

theorem treeCalls_put (blobs : List BlobInput) :
    self.treeCalls.put self blobs = self.put blobs := by
  rw [FileCalls.put, treeCalls_ensureRoot, treeCalls_putBlobs, put]

theorem treeCalls_get (key : Key) : self.treeCalls.get self key = self.get key := by
  rw [FileCalls.get, treeCalls_ensureRoot, get]
  congr 1
  funext _
  congr 1
  funext path
  apply exec_ext
  intro s
  rw [exec_bind_ok (exec_getState s), exec_bind, exec_perform, treeCalls, pathExists]
  dsimp only
  cases hstat : self.stat s path with
  | error e => rfl
  | ok node =>
      refine (exec_orFail _).trans ?_
      rw [hstat]
      rfl

theorem treeCalls_deleteEach (keys : List Key) :
    self.treeCalls.deleteEach self keys = self.deleteEach keys := by
  induction keys with
  | nil => rfl
  | cons key rest ih =>
      rw [FileCalls.deleteEach, deleteEach, ih]
      congr 1
      funext path
      apply exec_ext
      intro s
      rw [exec_bind_ok (exec_getState s), exec_bind, exec_perform, treeCalls]
      dsimp only
      cases s.tree.unlink (self.names path) with
      | ok tree => rfl
      | error e => cases e <;> rfl

theorem treeCalls_delete (keys : List Key) :
    self.treeCalls.delete self keys = self.delete keys := by
  rw [FileCalls.delete, treeCalls_ensureRoot, treeCalls_deleteEach, delete]

theorem isFile_metadata (s : FsState) (path : Path) :
    FileCalls.isFile ((self.stat s path).map (self.nodeMetadata s path)) = self.isFile s path := by
  unfold isFile
  cases self.stat s path with
  | error e => rfl
  | ok node => cases node <;> rfl

theorem isDir_metadata (s : FsState) (path : Path) :
    FileCalls.isDir ((self.stat s path).map (self.nodeMetadata s path)) = self.isDir s path := by
  unfold isDir
  cases self.stat s path with
  | error e => rfl
  | ok node => cases node <;> rfl

theorem treeCalls_existsBlob (key : Key) :
    self.treeCalls.existsBlob self key = self.existsBlob key := by
  rw [FileCalls.existsBlob, treeCalls_ensureRoot, existsBlob]
  congr 1
  funext _
  congr 1
  funext path
  apply exec_ext
  intro s
  rw [exec_bind_ok (exec_getState s), ← isFile_metadata]
  rfl

theorem treeCalls_fileMeta (key : Key) : self.treeCalls.fileMeta self key = self.fileMeta key := by
  rw [FileCalls.fileMeta, fileMeta]
  congr 1
  funext path
  apply exec_ext
  intro s
  rw [exec_bind_ok (exec_getState s), exec_bind, exec_perform, treeCalls]
  dsimp only
  cases self.stat s path with
  | ok node => rfl
  | error e => cases e <;> rfl

theorem treeCalls_getWithMetadata (key : Key) :
    self.treeCalls.getWithMetadata self key = self.getWithMetadata key := by
  rw [FileCalls.getWithMetadata, treeCalls_ensureRoot, treeCalls_fileMeta, treeCalls_get,
    getWithMetadata]

section Walk

variable {S : Type} {onFile : OnFile S}

theorem treeCalls_dirExists (path : Path) :
    self.treeCalls.dirExists path = (do
      let s ← getState
      lift (self.dirExists s path)) := by
  apply exec_ext
  intro s
  rw [exec_bind_ok (exec_getState s), exec_lift, dirExists, FileCalls.dirExists, exec_bind,
    exec_perform, treeCalls]
  dsimp only
  cases self.stat s path with
  | ok node => cases node <;> rfl
  | error e => cases e <;> rfl

theorem treeCalls_walkEntries (dir : Path) (entries : List Name) :
    self.treeCalls.walkEntries self onFile dir entries = self.walkEntries onFile dir entries := by
  induction entries with
  | nil => rfl
  | cons name rest ih =>
      apply execLocal_ext
      intro l s
      have hmeta : self.treeCalls.metadata (join dir [name]) s =
          ((self.stat s (join dir [name])).map (self.nodeMetadata s (join dir [name])), s) := rfl
      rw [FileCalls.walkEntries, walkEntries, ih, execLocal_getState_bind,
        execLocal_performLocal_bind, hmeta]
      dsimp only
      rw [isFile_metadata]
      by_cases hfile : self.isFile s (join dir [name]) = true
      · rewrite [if_pos hfile, if_pos hfile]
        cases stripPrefix self.root (join dir [name]) <;> rfl
      · rw [if_neg hfile, if_neg hfile, execLocal_performLocal_bind, hmeta]
        dsimp only
        rw [isDir_metadata]

theorem treeCalls_walkDirs (fuel : Nat) (queue : List Path) :
    self.treeCalls.walkDirs self onFile fuel queue = self.walkDirs onFile fuel queue := by
  induction fuel generalizing queue with
  | zero => cases queue <;> rfl
  | succ fuel ih =>
      cases queue with
      | nil => rfl
      | cons dir queue =>
          apply execLocal_ext
          intro l s
          rw [FileCalls.walkDirs, walkDirs, execLocal_getState_bind, execLocal_bind,
            execLocal_withLocal, treeCalls_dirExists, exec_bind_ok (exec_getState s), exec_lift]
          cases self.dirExists s dir with
          | error e => rfl
          | ok there =>
              cases there with
              | false => exact congrArg (execLocal · l s) (ih queue)
              | true =>
                  dsimp only
                  rw [if_pos rfl, execLocal_performLocal_bind, treeCalls_walkEntries]
                  simp only [ih]
                  rfl

/-- The walk over the calls is the walk over the tree, with as much fuel as that takes. -/
theorem treeCalls_walk (filter : ListFilter) (l : S) (s : FsState) :
    execLocal (self.treeCalls.walk self (s.tree.nodes.keys.length + 1) filter onFile) l s =
      execLocal (self.walk filter onFile) l s := by
  rw [FileCalls.walk, walk, treeCalls_ensureRoot, execLocal_bind, execLocal_bind,
    execLocal_withLocal, exec_ensureRoot]
  cases self.rootAnswer s with
  | error e => rfl
  | ok _ =>
      dsimp only
      cases self.prefixSubdir filter with
      | error e => rfl
      | ok start =>
          have hdirs := congrArg (execLocal · l s)
            (@treeCalls_walkDirs self S onFile (s.tree.nodes.keys.length + 1) [start])
          exact hdirs

theorem treeCalls_list (filter : ListFilter) (s : FsState) :
    exec (self.treeCalls.list self (s.tree.nodes.keys.length + 1) filter) s =
      exec (self.list filter) s := by
  rw [FileCalls.list, list, exec_bind, exec_bind, exec_scopeLocal, exec_scopeLocal, treeCalls_walk]

theorem treeCalls_walkedMeta (path : Path) (key : Key) :
    (self.treeCalls.walkedMeta path key : Fallible (StateT S (StateM FsState)) BlobMeta) =
      self.walkedMeta path key := by
  apply execLocal_ext
  intro l s
  rw [FileCalls.walkedMeta, walkedMeta, execLocal_getState_bind, execLocal_performLocal_bind,
    treeCalls]
  dsimp only
  cases self.stat s path with
  | error e => rfl
  | ok node => rfl

theorem treeCalls_visit (filter : ListFilter) (visitor : BlobVisitor (StateM FsState) S) (l : S)
    (s : FsState) :
    execLocal (self.treeCalls.visit self (s.tree.nodes.keys.length + 1) filter visitor) l s =
      execLocal (self.visit filter visitor) l s := by
  rw [FileCalls.visit, visit, treeCalls_walk]
  simp only [treeCalls_walkedMeta]

theorem treeCalls_listWithMetadata (filter : ListFilter) (s : FsState) :
    exec (self.treeCalls.listWithMetadata self (s.tree.nodes.keys.length + 1) filter) s =
      exec (self.listWithMetadata filter) s := by
  rw [FileCalls.listWithMetadata, listWithMetadata, exec_bind, exec_bind, exec_scopeLocal,
    exec_scopeLocal, treeCalls_walk]
  simp only [treeCalls_walkedMeta]

end Walk

end Calls

end FsBlobStore

end BlobStorage
