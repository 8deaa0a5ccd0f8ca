import RsyncWin.Fs.Transfer

/-!
# A local sync (`sync_tree`, `rsync-fs/src/sync.rs`)

Both trees are walked before anything changes. Deletions run over the snapshot
of the destination, before the transfer of the source entries or after it, and
the transfer goes through the source entries in the order of their paths.
-/

namespace RsyncWin.Fs

open ByteString

/-! ## Deletions -/

def deleteReceiverEntry (destRoot path : PathBuf) (relative : Key) (fileType : FileType)
    (options : SyncOptions) : SyncProg Unit := do
  if fileType = .directory then
    report (.deleteDir path)
    actUnlessDry options (.removeDirAll path)
  else
    backupReceiverFile destRoot path relative.path options
    report (.deleteFile path)
    actUnlessDry options (.removeFile path)

/-- The decisions that a state plans which has seen all of the source. -/
def planReceiverDeletes (sourceEntries destEntries : Entries) (options : SyncOptions) :
    Except FsError (List IncrementalDeleteDecision) :=
  let state : IncrementalReceiverState := { deleteMode := options.effectiveDeleteMode }
  let batch := sourceEntries.toList.map fun entry =>
    (⟨entry.1.path, entry.2.metadata.fileType⟩ : IncrementalSourceEntry)
  match state.observeBatch 0 batch true with
  | (.error e, _) => .error e
  | (.ok (), state) =>
      let existing := destEntries.toList.map fun entry => (entry.1, entry.2.metadata.fileType)
      .ok (state.planDeletes existing options.filterRules options.filesFrom
        options.deleteExcluded).1

/-- The decisions one by one, with the count of the deletions so far. -/
def applyDecisions (dest : PathBuf) (destEntries : Entries) (options : SyncOptions) :
    Nat → List IncrementalDeleteDecision → SyncProg Unit
  | _, [] => pure ()
  | deleted, decision :: decisions => do
      match destEntries[decision.relative]? with
      | none => applyDecisions dest destEntries options deleted decisions
      | some entry =>
          let fs ← look
          if !fs.existsAt entry.path then
            applyDecisions dest destEntries options deleted decisions
          else if decision.isProtected then
            report (.protectDelete entry.path)
            applyDecisions dest destEntries options deleted decisions
          else
            match options.maxDelete.filter (· ≤ deleted) with
            | some limit => throw (.maxDeleteExceeded limit)
            | none =>
                deleteReceiverEntry dest entry.path decision.relative entry.metadata.fileType
                  options
                applyDecisions dest destEntries options (deleted + 1) decisions

def applyReceiverDeletes (dest : PathBuf) (sourceEntries destEntries : Entries)
    (options : SyncOptions) : SyncProg Unit := do
  if options.effectiveDeleteMode = .none then pure ()
  else
    let decisions ← Prog.ofExcept (planReceiverDeletes sourceEntries destEntries options)
    applyDecisions dest destEntries options 0 decisions

/-! ## Delayed updates and directory times -/

def finishDelayedUpdates (destRoot : PathBuf) (options : SyncOptions) :
    List DelayedTransfer → SyncProg Unit
  | [] => pure ()
  | transfer :: transfers => do
      backupReceiverFile destRoot transfer.target transfer.relative options
      act (.renameFile transfer.temp transfer.target)
      preserveTransferredMtime transfer.target transfer.entry options
      finishDelayedUpdates destRoot options transfers

def removeStaged : List DelayedTransfer → SyncProg Unit
  | [] => pure ()
  | transfer :: transfers => do
      let _ ← tryAct (.removeFile transfer.temp)
      removeStaged transfers

def cleanupDelayedUpdates (transfers : List DelayedTransfer) (options : SyncOptions) :
    SyncProg Unit :=
  if options.keepPartial || options.partialDir.isSome then pure () else removeStaged transfers

def preserveDirectoryMtimes (options : SyncOptions) : List (PathBuf × WalkEntry) → SyncProg Unit
  | [] => pure ()
  | (target, entry) :: directories => do
      preserveTransferredMtime target entry options
      preserveDirectoryMtimes options directories

/-! ## The transfer loop -/

def checkSyncDeadline (deadline : Option Nat) (check : Nat) : Except FsError Unit :=
  if deadline.any (· ≤ check) then .error (.unsupported "transfer stop deadline reached")
  else .ok ()

/-- What one run works on. -/
structure SyncRun where
  dest : PathBuf
  sourceEntries : Entries
  destEntries : Entries
  options : SyncOptions

namespace SyncRun

variable (run : SyncRun)

/-- Deletions, if the mode is one of those given. -/
def deletesWhen (modes : List DeleteMode) : SyncProg Unit :=
  if run.options.effectiveDeleteMode ∈ modes then
    applyReceiverDeletes run.dest run.sourceEntries run.destEntries run.options
  else pure ()

/-- What follows the failure of a transfer: staged files go, and deletions still
happen where errors are ignored. -/
def afterFailure (state : TransferState) (err : FsError) : SyncProg TransferState := do
  cleanupDelayedUpdates state.delayedTransfers run.options
  if run.options.ignoreErrors then run.deletesWhen [.delay, .after] else pure ()
  throw err

def orCleanUp (state : TransferState) (transfer : SyncProg TransferState) :
    SyncProg TransferState := do
  match ← transfer.attempt with
  | .ok state => pure state
  | .error err => run.afterFailure state err

def syncDirectory (relative : Key) (entry : WalkEntry) (state : TransferState) :
    SyncProg TransferState := do
  let target := run.dest.join relative.path
  if !run.options.recursive && !run.options.transferDirs then
    report (.warn entry.path .recursiveDisabled)
    pure state
  else if ← removeConflictingTarget run.dest target relative.path .directory run.options then
    report (.createDir target)
    actUnlessDry run.options (.createDirAll target)
    pure { state with directoryMtimes := state.directoryMtimes ++ [(target, entry)] }
  else pure state

def syncFile (relative : Key) (entry : WalkEntry) (state : TransferState) :
    SyncProg TransferState := do
  let target := run.dest.join relative.path
  if ← removeConflictingTarget run.dest target relative.path .file run.options then
    let fs ← look
    if ← Prog.ofExcept (fileNeedsUpdate fs entry target run.options) then
      run.orCleanUp state
        (transferFile run.dest target relative.path entry run.options state)
    else
      preserveExistingFileMtime target entry run.options
      pure (rememberHardlinkTarget entry target run.options.preserveHardLinks state)
  else pure state

def syncEntry (relative : Key) (entry : WalkEntry) (state : TransferState) :
    SyncProg TransferState :=
  let target := run.dest.join relative.path
  match entry.metadata.fileType with
  | .directory => run.syncDirectory relative entry state
  | .file => run.syncFile relative entry state
  | .symlink => run.orCleanUp state do
      transferSymlink run.dest target relative.path entry run.options
      pure state
  | .hardlink | .device | .special | .other => run.orCleanUp state do
      handleNonRegularEntry entry run.options
      pure state

def syncEntries : Nat → List (Key × WalkEntry) → TransferState → SyncProg TransferState
  | _, [], state => pure state
  | check, (relative, entry) :: entries, state => do
      Prog.ofExcept (checkSyncDeadline run.options.stopDeadline check)
      let state ← run.syncEntry relative entry state
      syncEntries (check + 1) entries state

/-- The staged files go to their places; if one cannot, what is staged is removed. -/
def finish (state : TransferState) : SyncProg Unit := do
  match ← (finishDelayedUpdates run.dest run.options state.delayedTransfers).attempt with
  | .ok () => pure ()
  | .error err =>
      cleanupDelayedUpdates state.delayedTransfers run.options
      throw err

/-- Everything after the walks and checks. -/
def execute : SyncProg Unit := do
  let fs ← look
  if !fs.existsAt run.dest then
    report (.createDir run.dest)
    actUnlessDry run.options (.createDirAll run.dest)
  else pure ()
  run.deletesWhen [.before, .during]
  let state ← run.syncEntries 0 run.sourceEntries.toList {}
  run.finish state
  run.deletesWhen [.delay, .after]
  preserveDirectoryMtimes run.options state.directoryMtimes.reverse

end SyncRun

/-! ## Checks, single files, the whole -/

def nonEmptyParent (path : PathBuf) : Option PathBuf := path.parent.filter (· ≠ [])

def ensureMissingDestinationParentAllowed (fs : MemoryFileSystem) (path : PathBuf)
    (mkpath : Bool) : Except FsError Unit :=
  if mkpath || fs.existsAt path then .ok ()
  else
    match nonEmptyParent path with
    | none => .ok ()
    | some parent => do
        let metadata ← fs.metadata parent
        if metadata.fileType ≠ .directory then throw (.notDirectory parent) else pure ()

def destinationPreflightPath (target : PathBuf) : PathBuf :=
  let names := target.filter fun component =>
    match component with
    | .normal _ => true
    | _ => false
  if names = [] then target else names

def preflight (options : SyncOptions) (paths : List PathBuf) : Except FsError Unit :=
  match options.destinationPathPreflight with
  | some check => check paths
  | none => .ok ()

/-- Where a single file goes: into a directory under its own name. -/
def singleFileTarget (fs : MemoryFileSystem) (source dest : PathBuf) : Except FsError PathBuf :=
  match fs.metadata dest with
  | .ok metadata =>
      if metadata.fileType = .directory then
        match source.fileName with
        | some name => .ok (dest.join [.normal name])
        | none => .error (.invalidPortablePath source)
      else .ok dest
  | .error _ => .ok dest

def singleFileRelative (target : PathBuf) : PathBuf :=
  match target.fileName with
  | some name => [.normal name]
  | none => destinationPreflightPath target

def singleFileRoot (target : PathBuf) : PathBuf := target.parent.getD []

def syncSingleFile (source : PathBuf) (metadata : PortableMetadata) (dest : PathBuf)
    (options : SyncOptions) : SyncProg Unit := do
  let fs ← look
  let target ← Prog.ofExcept (singleFileTarget fs source dest)
  let entry : WalkEntry := ⟨source, metadata⟩
  Prog.ofExcept (ensureMissingDestinationParentAllowed fs target options.mkpath)
  Prog.ofExcept (preflight options [destinationPreflightPath target])
  let relative := singleFileRelative target
  let destRoot := singleFileRoot target
  if ← removeConflictingTarget destRoot target relative .file options then
    let fs ← look
    if ← Prog.ofExcept (fileNeedsUpdate fs entry target options) then
      let state ← transferFile destRoot target relative entry options {}
      finishDelayedUpdates destRoot options state.delayedTransfers
    else preserveExistingFileMtime target entry options
  else pure ()

def sourceEntriesOf (stack : Nat) (fs : MemoryFileSystem) (source : PathBuf)
    (options : SyncOptions) : Except FsError Entries := do
  let entries ← relativeEntries stack fs source
    { filterRules := some options.filterRules
      recursive := options.recursive
      symlinkMode := options.symlinkMode
      oneFileSystem := options.oneFileSystem }
  pure (match options.filesFrom with
    | some filesFrom => retainFilesFromEntries entries filesFrom
    | none => entries)

def destEntriesOf (stack : Nat) (fs : MemoryFileSystem) (dest : PathBuf)
    (options : SyncOptions) : Except FsError Entries :=
  if fs.existsAt dest then
    relativeEntries stack fs dest
      { filterRules := none
        recursive := options.recursive
        symlinkMode := .preserve
        oneFileSystem := options.oneFileSystem }
  else .ok ∅

/-- The walks and checks of a sync that is not of a single file. -/
def prepare (stack : Nat) (fs : MemoryFileSystem) (source dest : PathBuf) (options : SyncOptions) :
    Except FsError SyncRun := do
  let sourceEntries ← sourceEntriesOf stack fs source options
  preflight options (sourceEntries.keys.map Key.path)
  let destEntries ← destEntriesOf stack fs dest options
  ensureMissingDestinationParentAllowed fs dest options.mkpath
  pure ⟨dest, sourceEntries, destEntries, options⟩

/-- The check of the two roots, and the metadata of the source. -/
def checkRoots (fs : MemoryFileSystem) (source dest : PathBuf) :
    Except FsError PortableMetadata := do
  let sourceRoot ← normalizePortablePath source
  let destRoot ← normalizePortablePath dest
  if sourceRoot.isPrefixOf destRoot then throw .destinationInsideSource
  else fs.metadata source

def syncTree (stack : Nat) (source dest : PathBuf) (options : SyncOptions) : SyncProg Unit := do
  let fs ← look
  let metadata ← Prog.ofExcept (checkRoots fs source dest)
  if metadata.fileType = .file then syncSingleFile source metadata dest options
  else
    let run ← Prog.ofExcept (prepare stack fs source dest options)
    run.execute

end RsyncWin.Fs
