import RsyncWin.Filter.Rule
import RsyncWin.Fs.Memory
import RsyncWin.Lib.SortBy

/-!
# Options, reports and deletion planning of a local sync (`rsync-fs/src/sync.rs`)

The options that `sync_tree` reads with their defaults, the actions it reports,
and the receiver state that decides which destination entries go. A relative
path is a `Key` throughout: a walk joins names only.
-/

namespace RsyncWin.Fs

open ByteString

inductive UpdateMode where
  | quickCheck | checksum | sizeOnly | ignoreTimes
deriving DecidableEq, Repr

inductive DeleteMode where
  | none | before | during | delay | after
deriving DecidableEq, Repr

inductive SymlinkMode where
  | skip | preserve | copyAll | copyDirLinks | copyUnsafe | safeOnly | munge
deriving DecidableEq, Repr

/-- `stopDeadline` counts the deadline checks that the clock lets pass. -/
structure SyncOptions where
  recursive : Bool := true
  delete : Bool := false
  deleteMode : DeleteMode := .none
  preserveMtime : Bool := true
  omitDirTimes : Bool := false
  dryRun : Bool := true
  filterRules : RuleSet := {}
  destinationPathPreflight : Option (List PathBuf → Except FsError Unit) := none
  updateMode : UpdateMode := .quickCheck
  filesFrom : Option (List PathBuf) := none
  fileWriteMode : FileWriteMode := .atomic
  keepPartial : Bool := false
  partialDir : Option PathBuf := none
  tempDir : Option PathBuf := none
  delayUpdates : Bool := false
  appendVerify : Bool := false
  symlinkMode : SymlinkMode := .skip
  transferDirs : Bool := false
  mkpath : Bool := false
  relativePaths : Bool := false
  impliedDirs : Bool := true
  oneFileSystem : Bool := false
  skipNewerReceiver : Bool := false
  existingOnly : Bool := false
  ignoreExisting : Bool := false
  maxSize : Option Nat := none
  minSize : Option Nat := none
  modifyWindow : Int := 0
  ignoreMissingArgs : Bool := false
  deleteMissingArgs : Bool := false
  deleteExcluded : Bool := false
  ignoreErrors : Bool := false
  forceDelete : Bool := false
  maxDelete : Option Nat := none
  backup : Bool := false
  backupDir : Option PathBuf := none
  backupSuffix : Bytes := [0x7e]
  preserveHardLinks : Bool := false
  keepDirlinks : Bool := false
  preserveDevices : Bool := false
  preserveSpecials : Bool := false
  failOnMetadataLoss : Bool := false
  compareDest : List PathBuf := []
  copyDest : List PathBuf := []
  linkDest : List PathBuf := []
  fuzzy : Bool := false
  stopDeadline : Option Nat := none

def SyncOptions.effectiveDeleteMode (options : SyncOptions) : DeleteMode :=
  if options.deleteMode ≠ .none then options.deleteMode
  else if options.delete then .during
  else .none

/-- The message of a warning, by what it reports. -/
inductive WarnMessage where
  | recursiveDisabled
  | hardLinkFallback (err : FsError)
  | compareDestMatch
  | linkDestFallback (err : FsError)
  | fuzzyBasis (basis : PathBuf)
  | symlinkWithoutTarget
  | notCopied (fileType : FileType)
  | cannotPreserve (label : String)
  | skipping (label : String)
deriving DecidableEq, Repr

inductive SyncAction where
  | createDir (path : PathBuf)
  | writeFile (path : PathBuf) (len : Nat)
  | writeFileInPlace (path : PathBuf) (len : Nat)
  | appendFile (path : PathBuf) (len : Nat)
  | backupFile (source dest : PathBuf)
  | preserveMtime (path : PathBuf)
  | deleteFile (path : PathBuf)
  | deleteDir (path : PathBuf)
  | protectDelete (path : PathBuf)
  | createSymlink (path target : PathBuf)
  | createHardLink (source dest : PathBuf)
  | warn (path : PathBuf) (message : WarnMessage)
deriving DecidableEq, Repr

/-! ## Rules on relative paths -/

def entryKind (fileType : FileType) : EntryKind :=
  if fileType = .directory then .directory else .file

/-- `filter_path`: the names, decoded lossily, joined by slashes. -/
def filterPath (relative : Key) : Text :=
  ['/'].intercalate (relative.map fun name => decodeLossy name.length name)

/-- The paths that a rule check asks about: each ancestor as a directory, and
then the path itself. -/
def checkedPaths (relative : Key) (fileType : FileType) : List (Key × EntryKind) :=
  relative.inits.tail.map fun current =>
    (current, if current = relative then entryKind fileType else .directory)

def senderPathIsFiltered (rules : RuleSet) (relative : Key) (fileType : FileType) : Bool :=
  (checkedPaths relative fileType).any fun (current, kind) =>
    let action := rules.decideForSide (filterPath current) kind .sender
    action = .exclude || action = .hide

def deleteIsProtected (rules : RuleSet) (relative : Key) (fileType : FileType)
    (deleteExcluded : Bool) : Bool :=
  (checkedPaths relative fileType).any fun (current, kind) =>
    let action := rules.decideForSide (filterPath current) kind .receiver
    action = .protect || (action = .exclude && !deleteExcluded)

def filesFromMatches (relative : Key) (filesFrom : List PathBuf) : Bool :=
  filesFrom.any fun selected =>
    relative.path = selected || relative.path.startsWith selected ||
      selected.startsWith relative.path

/-! ## The receiver's deletion plan -/

structure IncrementalSourceEntry where
  path : PathBuf
  fileType : FileType
deriving DecidableEq, Repr

inductive IncrementalDeleteDecision where
  | deleteFile (path : Key)
  | deleteDir (path : Key)
  | protectDelete (path : Key)
deriving DecidableEq, Repr

namespace IncrementalDeleteDecision

def relative : IncrementalDeleteDecision → Key
  | .deleteFile path => path
  | .deleteDir path => path
  | .protectDelete path => path

def isProtected : IncrementalDeleteDecision → Bool
  | .deleteFile _ => false
  | .deleteDir _ => false
  | .protectDelete _ => true

end IncrementalDeleteDecision

/-- The sets of the source are lists here. -/
structure IncrementalReceiverState where
  deleteMode : DeleteMode
  sourceRelatives : List Key := []
  pendingDirectories : List Key := []
  pendingDeletes : List IncrementalDeleteDecision := []
  completedFileIndexes : List Nat := []
  nextIndex : Nat := 0
  finalSeen : Bool := false
deriving DecidableEq, Repr

def normalizeIncrementalRelativePath (path : PathBuf) : Except FsError Key :=
  match path.names with
  | some key => if key = [] then .error (.invalidPortablePath path) else .ok key
  | none => .error (.invalidPortablePath path)

namespace IncrementalReceiverState

def deleteReady (state : IncrementalReceiverState) : Bool :=
  state.deleteMode ≠ .none && state.finalSeen

/-- The entries of a batch, one after the other; those before a bad path stay. -/
def observeEntries (state : IncrementalReceiverState) :
    Nat → List IncrementalSourceEntry → Except FsError Unit × IncrementalReceiverState
  | _, [] => (.ok (), state)
  | index, entry :: entries =>
      match normalizeIncrementalRelativePath entry.path with
      | .error e => (.error e, state)
      | .ok relative =>
          observeEntries
            { state with
              sourceRelatives := state.sourceRelatives.insert relative
              completedFileIndexes := state.completedFileIndexes.insert index
              pendingDirectories :=
                if entry.fileType = .directory then state.pendingDirectories.insert relative
                else state.pendingDirectories
              nextIndex := index + 1 }
            (index + 1) entries

def observeBatch (state : IncrementalReceiverState) (baseIndex : Nat)
    (entries : List IncrementalSourceEntry) (isFinal : Bool) :
    Except FsError Unit × IncrementalReceiverState :=
  if state.finalSeen then
    (.error (.unsupported "incremental receiver batch arrived after final batch"), state)
  else if baseIndex ≠ state.nextIndex then
    (.error (.unsupported "incremental receiver batch index gap"), state)
  else
    match state.observeEntries baseIndex entries with
    | (.error e, state) => (.error e, state)
    | (.ok (), state) =>
        (.ok (), if isFinal then { state with finalSeen := true } else state)

/-- Deeper paths come first, and of equally deep ones the greater. -/
def deleteOrder (left right : Key × FileType) : Ordering :=
  (compare right.1.length left.1.length).then (compare right.1 left.1)

def decideDelete (filterRules : RuleSet) (filesFrom : Option (List PathBuf))
    (deleteExcluded : Bool) (entry : Key × FileType) : IncrementalDeleteDecision :=
  if filesFrom.any (fun filesFrom => !filesFromMatches entry.1 filesFrom) ||
      deleteIsProtected filterRules entry.1 entry.2 deleteExcluded then
    .protectDelete entry.1
  else if entry.2 = .directory then .deleteDir entry.1
  else .deleteFile entry.1

def planDeletes (state : IncrementalReceiverState) (existingEntries : List (Key × FileType))
    (filterRules : RuleSet) (filesFrom : Option (List PathBuf)) (deleteExcluded : Bool) :
    List IncrementalDeleteDecision × IncrementalReceiverState :=
  if state.deleteReady then
    let deleteEntries := existingEntries.filter fun entry => entry.1 ∉ state.sourceRelatives
    let decisions := (sortBy deleteOrder deleteEntries).map
      (decideDelete filterRules filesFrom deleteExcluded)
    (decisions, { state with pendingDeletes := decisions })
  else ([], { state with pendingDeletes := [] })

end IncrementalReceiverState

end RsyncWin.Fs
