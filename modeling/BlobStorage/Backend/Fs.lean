import BlobStorage.Store
import BlobStorage.Library.FileTree

/-!
# The filesystem backend

`fs.rs` and `fs/store.rs`. A blob is a file below the root, at the path that its key spells.
The filesystem is a tree of files below the root, what `stat` says of the root itself, and
the few answers that POSIX leaves open. A path may be of any length (there is no `PATH_MAX`),
but its names may not.
-/

namespace BlobStorage

open Fallible Posix FileTree

/-- The contents of a file and its modification time. -/
structure FileData where
  content : Bytes
  modifiedAt : DateTime
  deriving DecidableEq, Repr

structure FsState where
  /-- What `stat` says of the root: whether it is a directory, or an error. -/
  rootStat : Except IoError Bool
  tree : Volume FileData
  clock : DateTime
  /-- The length and the modification time that `stat` reports of a directory. -/
  dirStat : Path → Nat × DateTime
  /-- How much of a stream that breaks off reaches the disk. -/
  flushed : Bytes → Nat

instance : Clock (StateM FsState) where
  utcNow := fun s => (s.clock, s)

/-- The error that `std::io` makes of a failed call. -/
def ioError : Errno → IoError
  | .noEntry => { kind := .notFound, message := "No such file or directory (os error 2)" }
  | .notDirectory => { kind := .notADirectory, message := "Not a directory (os error 20)" }
  | .isDirectory => { kind := .isADirectory, message := "Is a directory (os error 21)" }
  | .alreadyExists => { kind := .alreadyExists, message := "File exists (os error 17)" }
  | .nameTooLong => { kind := .invalidFilename, message := "File name too long (os error 36)" }
  | .invalidInput =>
      { kind := .invalidInput, message := "file name contained an unexpected NUL byte" }

/-- `map_io_error_to_per_key`. -/
def mapIoErrorToPerKey (e : IoError) : PerKeyError :=
  match e.kind with
  | .permissionDenied => .permissionDenied e.message
  | _ => .unknown e.message

/-- `validate_prefix_hint`. -/
def validatePrefixHint (hint : Key) : Except BlobStorageError Unit :=
  if ['/'] <+: hint then
    .error (.invalidInput s!"prefix hint must not be absolute: '{String.ofList hint}'")
  else if '\\' ∈ hint then
    .error (.invalidInput s!"prefix hint must not contain backslash: '{String.ofList hint}'")
  else if ['.', '.'] ∈ hint.splitOn keySeparator ∨ ['.'] ∈ hint.splitOn keySeparator then
    .error (.invalidInput
      s!"prefix hint must not contain '..' or '.' components: '{String.ofList hint}'")
  else .ok ()

/-- The root ends with a separator, as `FsBlobStore::new` normalises it. -/
structure FsBlobStore where
  root : Path
  normalised : root.getLast? = some []

namespace FsBlobStore

/-- The normalisation of `FsBlobStore::new`. -/
def new (root : Path) : FsBlobStore where
  root := join root [[]]
  normalised := by
    rw [join_of_relative (isAbsolute_singleton [])]
    simp

/-- `{:?}` of a path, apart from the characters it escapes. -/
def debugPath (path : Path) : String := "\"" ++ String.ofList (text path) ++ "\""

/-- `key_to_path`. -/
def keyToPath (self : FsBlobStore) (key : Key) : Except BlobStorageError Path := do
  validateBlobKey key
  pure ((key.splitOn keySeparator).foldl (fun path component => join path (ofText component))
    self.root)

/-- `prefix_subdir`. -/
def prefixSubdir (self : FsBlobStore) (filter : ListFilter) : Except BlobStorageError Path :=
  match filter.prefixHint with
  | some hint => do
      validatePrefixHint hint
      let full := join self.root (ofText hint)
      if endsWithSeparator full then pure full
      else
        match parent full with
        | some dir => pure dir
        | none => pure full
  | none => pure self.root

/-- The name of a normal component. -/
def normalName : Component → Option Name
  | .normal name => some name
  | _ => none

/-- Where below the root a path leads. -/
def names (self : FsBlobStore) (path : Path) : Path :=
  ((components path).drop (components self.root).length).filterMap normalName

section Filesystem

variable (self : FsBlobStore) (s : FsState)

/-- `stat`. A path that ends in a separator must be a directory. -/
def stat (path : Path) : Except Errno (Node FileData) := do
  match ← s.tree.resolve (self.names path) with
  | .file data => if endsWithSeparator path then .error .notDirectory else .ok (.file data)
  | .dir => .ok .dir

def pathExists (path : Path) : Bool :=
  match self.stat s path with
  | .ok _ => true
  | .error _ => false

def isFile (path : Path) : Bool :=
  match self.stat s path with
  | .ok (.file _) => true
  | _ => false

def isDir (path : Path) : Bool :=
  match self.stat s path with
  | .ok .dir => true
  | _ => false

/-- `dir_exists`. -/
def dirExists (path : Path) : Except BlobStorageError Bool :=
  match self.stat s path with
  | .ok .dir => .ok true
  | .ok (.file _) => .ok false
  | .error .noEntry => .ok false
  | .error e => .error (.ofIo (ioError e))

/-- `len()` and `modified()` of the metadata of a node. -/
def nodeStat (path : Path) : Node FileData → Nat × DateTime
  | .file data => (data.content.length, data.modifiedAt)
  | .dir => s.dirStat (self.names path)

/-- A file opened for reading. A directory can be opened too, but not read. -/
def openNode : Node FileData → Reader
  | .file data => Reader.ofBytes data.content
  | .dir => { bytes := [], failure := some (ioError .isDirectory) }

end Filesystem

/-- A value or the error of a plain function. -/
def lift {m : Type → Type} [Monad m] {α : Type} : Except BlobStorageError α → Fallible m α
  | .ok a => pure a
  | .error e => throw e

/-- `?` on the result of a system call. -/
def call {m : Type → Type} [Monad m] {α : Type} : Except Errno α → Fallible m α
  | .ok a => pure a
  | .error e => throw (.ofIo (ioError e))

variable (self : FsBlobStore)

/-- `ensure_root`. -/
def ensureRoot : Fallible (StateM FsState) Unit := do
  let s ← getState
  match s.rootStat with
  | .ok true => pure ()
  | .ok false => throw (.backendMisconfigured
      s!"FS root '{debugPath self.root}' is not a directory")
  | .error e =>
      if e.kind = .notFound then throw (.backendMisconfigured
        s!"FS root directory '{debugPath self.root}' does not exist")
      else throw (.storage s!"cannot stat FS root '{debugPath self.root}'" (some (.io e)))

/-- `fs::create_dir_all`. -/
def createDirAll (path : Path) : Fallible (StateM FsState) Unit := do
  let s ← getState
  let made := s.tree.createDirAll (self.names path).reverse
  setState { s with tree := made.2 }
  call made.1

/-- `File::create`, and what is then written to the file. -/
def writeFile (path : Path) (content : Bytes) : Fallible (StateM FsState) Unit := do
  let s ← getState
  let names := self.names path
  let tree ← call (s.tree.write names.dropLast (names.getLast?.getD [])
    { content, modifiedAt := s.clock })
  setState { s with tree }

/-- The loop of `put`. A stream that breaks off leaves a file with part of it. -/
def putBlobs : List BlobInput → Fallible (StateM FsState) (List BlobMeta)
  | [] => pure []
  | blob :: rest => do
      let path ← lift (self.keyToPath blob.key)
      match parent path with
      | some dir => self.createDirAll dir
      | none => pure ()
      self.writeFile path []
      match blob.data.readToEnd with
      | .error e => do
          let s ← getState
          self.writeFile path (blob.data.bytes.take (s.flushed blob.data.bytes))
          throw (.ofIo e)
      | .ok content => do
          self.writeFile path content
          let s ← getState
          let node ← call (self.stat s path)
          let (len, modified) := self.nodeStat s path node
          let others ← putBlobs rest
          pure ({ key := blob.key, storedSize := len, modifiedAt := modified, etag := none } ::
            others)

def put (blobs : List BlobInput) : Fallible (StateM FsState) PutResult := do
  checkKeys (blobs.map BlobInput.key)
  self.ensureRoot
  let infos ← self.putBlobs blobs
  pure { blobs := infos }

def get (key : Key) : Fallible (StateM FsState) Reader := do
  self.ensureRoot
  let path ← lift (self.keyToPath key)
  let s ← getState
  if self.pathExists s path then do
    let node ← call (self.stat s path)
    pure (openNode node)
  else throw (.notFound key)

/-- The loop of `delete`. -/
def deleteEach : List Key → Fallible (StateM FsState) (List Key × List KeyError)
  | [] => pure ([], [])
  | key :: rest => do
      let path ← lift (self.keyToPath key)
      let s ← getState
      match s.tree.unlink (self.names path) with
      | .ok tree => do
          setState { s with tree }
          let (succeeded, errors) ← deleteEach rest
          pure (key :: succeeded, errors)
      | .error .noEntry => do
          let (succeeded, errors) ← deleteEach rest
          pure (key :: succeeded, errors)
      | .error e => do
          let (succeeded, errors) ← deleteEach rest
          pure (succeeded, { key, error := mapIoErrorToPerKey (ioError e) } :: errors)

def delete (keys : List Key) : Fallible (StateM FsState) Unit := do
  checkKeys keys
  self.ensureRoot
  let (succeeded, errors) ← self.deleteEach keys
  if errors = [] then pure () else throw (.batch { succeeded, errors })

def existsBlob (key : Key) : Fallible (StateM FsState) Bool := do
  self.ensureRoot
  let path ← lift (self.keyToPath key)
  let s ← getState
  pure (self.isFile s path)

/-- `file_meta`. -/
def fileMeta (key : Key) : Fallible (StateM FsState) BlobMeta := do
  let path ← lift (self.keyToPath key)
  let s ← getState
  match self.stat s path with
  | .ok node =>
      let (len, modified) := self.nodeStat s path node
      pure { key, storedSize := len, modifiedAt := modified, etag := none }
  | .error .noEntry => throw (.notFound key)
  | .error e => throw (.storage s!"stat failed for '{String.ofList key}'" (some (.io (ioError e))))

def getWithMetadata (key : Key) : Fallible (StateM FsState) (BlobMeta × Reader) := do
  self.ensureRoot
  let info ← self.fileMeta key
  let reader ← self.get key
  pure (info, reader)

section Walk

variable {S : Type}

/-- What a walk does with a file, given its path and its key. With `false` it ends the walk. -/
abbrev OnFile (S : Type) := Path → Key → Fallible (StateT S (StateM FsState)) Bool

/-- The loop over the entries of a directory. It returns whether to go on, and the
subdirectories it met. -/
def walkEntries (onFile : OnFile S) (dir : Path) :
    List Name → Fallible (StateT S (StateM FsState)) (Bool × List Path)
  | [] => pure (true, [])
  | name :: rest => do
      let path := join dir [name]
      let s ← withLocal getState
      if self.isFile s path then
        match stripPrefix self.root path with
        | some relative => do
            let more ← onFile path (text relative)
            if more then walkEntries onFile dir rest else pure (false, [])
        | none => walkEntries onFile dir rest
      else if self.isDir s path then do
        let (more, dirs) ← walkEntries onFile dir rest
        pure (more, path :: dirs)
      else walkEntries onFile dir rest

/-- The loop that `list`, `visit` and `list_with_metadata` share, for at most `fuel`
directories. -/
def walkDirs (onFile : OnFile S) : Nat → List Path → Fallible (StateT S (StateM FsState)) Unit
  | _, [] => pure ()
  | 0, _ :: _ => throw (.storage "directory walk did not end" none)
  | fuel + 1, dir :: queue => do
      let s ← withLocal getState
      let there ← lift (self.dirExists s dir)
      if there then do
        let (more, dirs) ← self.walkEntries onFile dir (s.tree.readDir (self.names dir))
        if more then walkDirs onFile fuel (queue ++ dirs) else pure ()
      else walkDirs onFile fuel queue

/-- The walk from the directory that the filter's hint leads to. There are not more
directories to walk than the tree has nodes, unless the walk itself makes new ones. -/
def walk (filter : ListFilter) (onFile : OnFile S) :
    Fallible (StateT S (StateM FsState)) Unit := do
  withLocal self.ensureRoot
  let start ← lift (self.prefixSubdir filter)
  let s ← withLocal getState
  self.walkDirs onFile (s.tree.nodes.keys.length + 1) [start]

def list (filter : ListFilter) : Fallible (StateM FsState) (List Key) := do
  let (_, keys) ← scopeLocal [] (self.walk filter fun _ key => do
    if filter.matchesBlob key none then do
      let keys ← getLocal
      setLocal (keys ++ [key])
      pure true
    else pure true)
  pure (sortKeys keys)

/-- The record of a file that a walk came by. -/
def walkedMeta (path : Path) (key : Key) : Fallible (StateT S (StateM FsState)) BlobMeta := do
  let s ← withLocal getState
  match self.stat s path with
  | .ok node =>
      let (len, modified) := self.nodeStat s path node
      pure { key, storedSize := len, modifiedAt := modified, etag := none }
  | .error e => throw (.storage s!"stat failed for '{String.ofList key}'" (some (.io (ioError e))))

def visit (filter : ListFilter) (visitor : BlobVisitor (StateM FsState) S) :
    Fallible (StateT S (StateM FsState)) Unit :=
  self.walk filter fun path key => do
    if filter.matchesBlob key none then do
      let info ← self.walkedMeta path key
      visitor.visit key (some info)
    else pure true

def listWithMetadata (filter : ListFilter) : Fallible (StateM FsState) (List BlobMeta) := do
  let (_, infos) ← scopeLocal [] (self.walk filter fun path key => do
    if filter.matchesBlob key none then do
      let info ← self.walkedMeta path key
      let infos ← getLocal
      setLocal (infos ++ [info])
      pure true
    else pure true)
  pure (sortByKey infos)

end Walk

/-- `impl BlobStore for FsBlobStore`. -/
def toBlobStore : BlobStore (StateM FsState) where
  put := self.put
  get := self.get
  delete := self.delete
  list := self.list
  existsBlob := self.existsBlob
  getWithMetadata := self.getWithMetadata
  visit := self.visit
  listWithMetadata := self.listWithMetadata

end FsBlobStore

end BlobStorage
