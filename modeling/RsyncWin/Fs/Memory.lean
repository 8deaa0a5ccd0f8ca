import RsyncWin.Lib.PathBuf
import Mathlib.Data.List.Sort

/-!
# The in-memory file system (`rsync-fs/src/walk.rs`, `metadata.rs`)

`MemoryFileSystem` as an implementation of `PortableFileSystem`: nodes filed
under keys, in the order of the keys. Reading never follows a symlink in the
middle of a path, writing resolves them first. An operation may fail after it
has changed something (`rename_file` makes the parent of its target before it
looks for its source), so each returns the file system beside its result.
-/

namespace RsyncWin.Fs

open ByteString

inductive FileType where
  | file | directory | symlink | hardlink | device | special | other
deriving DecidableEq, Repr

structure HardlinkId where
  volume : Nat
  file : Nat
deriving DecidableEq, Repr

/-- Times are nanoseconds since the epoch. -/
structure PortableMetadata where
  fileType : FileType
  len : Nat := 0
  modified : Option Int := none
  symlinkTarget : Option PathBuf := none
  hardlinkId : Option HardlinkId := none
  hardlinkCount : Option Nat := none
deriving DecidableEq, Repr

/-- `stackOverflow` is the end of a recursion that the source does not bound. -/
inductive FsError where
  | invalidPortablePath (path : PathBuf)
  | notFound (path : PathBuf)
  | notDirectory (path : PathBuf)
  | destinationInsideSource
  | destinationPathPreflight (message : String)
  | maxDeleteExceeded (limit : Nat)
  | unsupported (message : String)
  | stackOverflow
deriving DecidableEq, Repr

inductive FileWriteMode where
  | atomic | inPlace
deriving DecidableEq, Repr

structure WalkEntry where
  path : PathBuf
  metadata : PortableMetadata
deriving DecidableEq, Repr

structure MemoryNode where
  metadata : PortableMetadata
  bytes : Bytes := []
deriving DecidableEq, Repr

def MemoryNode.isDirectory (node : MemoryNode) : Bool := node.metadata.fileType = .directory

def directoryNode : MemoryNode := { metadata := { fileType := .directory } }

def fileNode (bytes : Bytes) : MemoryNode :=
  { metadata := { fileType := .file, len := bytes.length }, bytes }

structure MemoryFileSystem where
  nodes : Std.TreeMap Key MemoryNode := (∅ : Std.TreeMap Key MemoryNode).insert [] directoryNode
  nextHardlinkFile : Nat := 1

def normalizePortablePath (path : PathBuf) : Except FsError Key :=
  match path.names with
  | some key => .ok key
  | none => .error (.invalidPortablePath path)

/-- As above, with `..` taking back the name before it. -/
def normalizeMemoryResolvedPath (whole : PathBuf) : Key → PathBuf → Except FsError Key
  | out, [] => .ok out
  | out, .curDir :: rest => normalizeMemoryResolvedPath whole out rest
  | out, .normal name :: rest => normalizeMemoryResolvedPath whole (out ++ [name]) rest
  | out, .parentDir :: rest =>
      if out = [] then .error (.invalidPortablePath whole)
      else normalizeMemoryResolvedPath whole out.dropLast rest
  | _, .rootDir :: _ => .error (.invalidPortablePath whole)

def resolveMemorySymlinkTarget (link : Key) (metadata : PortableMetadata) : Except FsError Key :=
  match metadata.symlinkTarget with
  | none => .error (.invalidPortablePath link.path)
  | some target =>
      let resolved :=
        if target.isAbsolute then target
        else match PathBuf.parent link.path with
          | some parent => parent.join target
          | none => target
      normalizeMemoryResolvedPath resolved [] resolved

namespace MemoryFileSystem

def get (fs : MemoryFileSystem) (key : Key) : Option MemoryNode := fs.nodes[key]?

def insert (fs : MemoryFileSystem) (key : Key) (node : MemoryNode) : MemoryFileSystem :=
  { fs with nodes := fs.nodes.insert key node }

def erase (fs : MemoryFileSystem) (key : Key) : MemoryFileSystem :=
  { fs with nodes := fs.nodes.erase key }

/-! ## Reading -/

def metadata (fs : MemoryFileSystem) (path : PathBuf) : Except FsError PortableMetadata := do
  let key ← normalizePortablePath path
  match fs.get key with
  | some node => pure node.metadata
  | none => throw (.notFound key.path)

def existsAt (fs : MemoryFileSystem) (path : PathBuf) : Bool := (fs.metadata path).isOk

def metadataFollow (fs : MemoryFileSystem) (path : PathBuf) : Except FsError PortableMetadata := do
  let key ← normalizePortablePath path
  match fs.get key with
  | none => throw (.notFound key.path)
  | some node =>
      if node.metadata.fileType ≠ .symlink then pure node.metadata
      else
        let target ← resolveMemorySymlinkTarget key node.metadata
        fs.metadata target.path

/-- `fuel` counts the links that are followed. -/
def readFileAt (fs : MemoryFileSystem) : Nat → Key → Except FsError Bytes
  | 0, _ => .error .stackOverflow
  | fuel + 1, key =>
      match fs.get key with
      | none => .error (.notFound key.path)
      | some node =>
          if node.metadata.fileType = .symlink then do
            let target ← resolveMemorySymlinkTarget key node.metadata
            fs.readFileAt fuel target
          else if node.metadata.fileType ≠ .file then
            .error (.unsupported "reading non-file memory nodes")
          else .ok node.bytes

/-- Of more links than there are nodes, one comes twice. -/
def readFile (fs : MemoryFileSystem) (path : PathBuf) : Except FsError Bytes := do
  let key ← normalizePortablePath path
  fs.readFileAt (fs.nodes.size + 1) key

def filesEqual (fs : MemoryFileSystem) (left right : PathBuf) : Except FsError Bool := do
  let leftMetadata ← fs.metadata left
  let rightMetadata ← fs.metadata right
  if leftMetadata.len ≠ rightMetadata.len then pure false
  else
    let leftBytes ← fs.readFile left
    let rightBytes ← fs.readFile right
    pure (leftBytes = rightBytes)

def filePrefixMatches (fs : MemoryFileSystem) (path pref : PathBuf) : Except FsError Bool := do
  let pathBytes ← fs.readFile path
  let prefixBytes ← fs.readFile pref
  pure (prefixBytes.isPrefixOf pathBytes)

/-- The default of the trait, which `MemoryFileSystem` keeps. -/
def sameFileSystem (_ : MemoryFileSystem) (_root _path : PathBuf) : Except FsError Bool := .ok true

/-- Whether `key` is directly in the directory `dir`. -/
def isChild (dir key : Key) : Bool := key ≠ [] && key ≠ dir && key.dropLast = dir

def list (fs : MemoryFileSystem) (path : PathBuf) : Except FsError (List WalkEntry) := do
  let key ← normalizePortablePath path
  let metadata ← fs.metadata key.path
  if metadata.fileType ≠ .directory then throw (.notDirectory key.path)
  else
    pure <| (fs.nodes.toList.filter fun entry => isChild key entry.1).map fun entry =>
      ⟨Key.path entry.1, entry.2.metadata⟩

/-! ## Symlinks on the way of a write -/

/-- The first symlink among the prefixes of a path, and what comes behind it. -/
def firstSymlink (fs : MemoryFileSystem) : Key → Key → Option (Key × PortableMetadata × Key)
  | _, [] => none
  | resolved, name :: rest =>
      match fs.get (resolved ++ [name]) with
      | none => fs.firstSymlink (resolved ++ [name]) rest
      | some node =>
          if node.metadata.fileType = .symlink then
            some (resolved ++ [name], node.metadata, rest)
          else fs.firstSymlink (resolved ++ [name]) rest

def resolveMemoryPathPrefixAt (fs : MemoryFileSystem) : Nat → Key → Except FsError Key
  | limit, path =>
      match fs.firstSymlink [] path with
      | none => .ok path
      | some (link, metadata, rest) =>
          match limit with
          | 0 => .error (.unsupported "too many nested memory symlinks")
          | limit + 1 => do
              let target ← resolveMemorySymlinkTarget link metadata
              fs.resolveMemoryPathPrefixAt limit (target ++ rest)

def resolveWritePath (fs : MemoryFileSystem) (path : PathBuf) : Except FsError Key := do
  let key ← normalizePortablePath path
  fs.resolveMemoryPathPrefixAt 32 key

/-! ## Changing -/

/-- What a changing operation returns, and the file system it leaves. -/
abbrev Outcome := Except FsError Unit × MemoryFileSystem

def Outcome.andThen (r : Outcome) (k : MemoryFileSystem → Outcome) : Outcome :=
  match r with
  | (.ok (), fs) => k fs
  | (.error e, fs) => (.error e, fs)

/-- The directories of a path that are not there yet. -/
def createDirs (fs : MemoryFileSystem) (key : Key) : MemoryFileSystem :=
  { fs with nodes := key.inits.foldl (fun nodes k => nodes.insertIfNew k directoryNode) fs.nodes }

def createDirAll (fs : MemoryFileSystem) (path : PathBuf) : Outcome :=
  match fs.resolveWritePath path with
  | .error e => (.error e, fs)
  | .ok key => (.ok (), fs.createDirs key)

def createParent (fs : MemoryFileSystem) (key : Key) : Outcome :=
  match PathBuf.parent key.path with
  | some parent => fs.createDirAll parent
  | none => (.ok (), fs)

def writeFileAtomic (fs : MemoryFileSystem) (path : PathBuf) (bytes : Bytes) : Outcome :=
  match fs.resolveWritePath path with
  | .error e => (.error e, fs)
  | .ok key =>
      (fs.createParent key).andThen fun fs => (.ok (), fs.insert key (fileNode bytes))

def writeFileWithOptions (fs : MemoryFileSystem) (path : PathBuf) (bytes : Bytes) :
    FileWriteMode → Outcome
  | .atomic => fs.writeFileAtomic path bytes
  | .inPlace => fs.writeFileAtomic path bytes

def copyFileWithOptions (fs : MemoryFileSystem) (source dest : PathBuf) (mode : FileWriteMode) :
    Outcome :=
  match fs.readFile source with
  | .error e => (.error e, fs)
  | .ok bytes => fs.writeFileWithOptions dest bytes mode

def appendFile (fs : MemoryFileSystem) (path : PathBuf) (bytes : Bytes) : Outcome :=
  match fs.resolveWritePath path with
  | .error e => (.error e, fs)
  | .ok key =>
      match fs.get key with
      | none => (.error (.notFound key.path), fs)
      | some node =>
          if node.metadata.fileType ≠ .file then
            (.error (.unsupported "append_file on non-file memory nodes"), fs)
          else
            let bytes := node.bytes ++ bytes
            (.ok (), fs.insert key ⟨{ node.metadata with len := bytes.length }, bytes⟩)

def appendFileFrom (fs : MemoryFileSystem) (path source : PathBuf) (offset : Nat) : Outcome :=
  match fs.readFile source with
  | .error e => (.error e, fs)
  | .ok bytes =>
      if offset > bytes.length then
        (.error (.unsupported "append offset exceeds source file length"), fs)
      else fs.appendFile path (bytes.drop offset)

def renameFile (fs : MemoryFileSystem) (source dest : PathBuf) : Outcome :=
  match normalizePortablePath source with
  | .error e => (.error e, fs)
  | .ok source =>
      match fs.resolveWritePath dest with
      | .error e => (.error e, fs)
      | .ok dest =>
          (fs.createParent dest).andThen fun fs =>
            match fs.get source with
            | none => (.error (.notFound source.path), fs)
            | some node => (.ok (), (fs.erase source).insert dest node)

def createSymlink (fs : MemoryFileSystem) (path target : PathBuf) : Outcome :=
  match normalizePortablePath path with
  | .error e => (.error e, fs)
  | .ok key =>
      (fs.createParent key).andThen fun fs =>
        (.ok (), fs.insert key
          { metadata := { fileType := .symlink, symlinkTarget := some target } })

/-- The identity a file is linked under; a file that has none gets the next one. -/
def ensureHardlinkId (fs : MemoryFileSystem) (key : Key) :
    Except FsError (HardlinkId × MemoryFileSystem) :=
  match fs.get key with
  | none => .error (.notFound key.path)
  | some existing =>
      if existing.metadata.fileType ≠ .file then
        .error (.unsupported "hard link source is not a file")
      else
        match existing.metadata.hardlinkId with
        | some id => .ok (id, fs)
        | none =>
            let id : HardlinkId := ⟨0, fs.nextHardlinkFile⟩
            let metadata :=
              { existing.metadata with hardlinkId := some id, hardlinkCount := some 1 }
            .ok (id, { fs.insert key { existing with metadata } with
              nextHardlinkFile := fs.nextHardlinkFile + 1 })

def refreshHardlinkCount (fs : MemoryFileSystem) (id : HardlinkId) : MemoryFileSystem :=
  let count := (fs.nodes.toList.filter fun entry =>
    entry.2.metadata.hardlinkId = some id).length
  { fs with nodes := fs.nodes.map fun _ node =>
      if node.metadata.hardlinkId = some id then
        { node with metadata := { node.metadata with hardlinkCount := some count } }
      else node }

def createHardLink (fs : MemoryFileSystem) (existing link : PathBuf) : Outcome :=
  match fs.resolveWritePath existing with
  | .error e => (.error e, fs)
  | .ok existing =>
      match fs.resolveWritePath link with
      | .error e => (.error e, fs)
      | .ok link =>
          match fs.ensureHardlinkId existing with
          | .error e => (.error e, fs)
          | .ok (id, fs) =>
              match fs.get existing with
              | none => (.error (.notFound existing.path), fs)
              | some node =>
                  let metadata :=
                    { node.metadata with hardlinkId := some id, hardlinkCount := some 1 }
                  (fs.createParent link).andThen fun fs =>
                    (.ok (), (fs.insert link { node with metadata }).refreshHardlinkCount id)

def removeFile (fs : MemoryFileSystem) (path : PathBuf) : Outcome :=
  match normalizePortablePath path with
  | .error e => (.error e, fs)
  | .ok key =>
      match fs.get key with
      | none => (.error (.notFound key.path), fs)
      | some node =>
          if node.metadata.fileType = .directory then
            (.error (.unsupported "remove_file on directory"), fs)
          else (.ok (), fs.erase key)

/-- The keys at or below a directory, taken out one by one. -/
def eraseBelow (fs : MemoryFileSystem) (key : Key) : MemoryFileSystem :=
  (fs.nodes.keys.filter fun candidate => key.isPrefixOf candidate).foldl erase fs

def removeDirAll (fs : MemoryFileSystem) (path : PathBuf) : Outcome :=
  match normalizePortablePath path with
  | .error e => (.error e, fs)
  | .ok key =>
      if key = [] then (.error (.unsupported "remove root directory"), fs)
      else if fs.nodes.keys.any fun candidate => key.isPrefixOf candidate then
        (.ok (), fs.eraseBelow key)
      else (.error (.notFound key.path), fs)

def setMtime (fs : MemoryFileSystem) (path : PathBuf) (modified : Int) : Outcome :=
  match normalizePortablePath path with
  | .error e => (.error e, fs)
  | .ok key =>
      match fs.get key with
      | none => (.error (.notFound key.path), fs)
      | some node =>
          (.ok (), fs.insert key
            { node with metadata := { node.metadata with modified := some modified } })

end MemoryFileSystem

/-- A file system with these files in it. -/
def withFiles (files : List (Key × Bytes)) : MemoryFileSystem :=
  files.foldl (fun fs file => (fs.writeFileAtomic (Key.path file.1) file.2).2) {}

end RsyncWin.Fs
