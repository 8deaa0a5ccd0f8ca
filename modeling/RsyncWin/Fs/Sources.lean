import RsyncWin.Fs.Sync

/-!
# Several sources (`sync_sources`, `rsync-fs/src/sync.rs`)

The operands of a command line, one after the other. Sources that are missing may
be skipped, or what they name at the destination may be deleted. One source is
synced as it is; of several, each goes to a target of its own below the
destination, by a `sync_tree` of its own.
-/

namespace RsyncWin.Fs

open ByteString

def isNormal : Component → Bool
  | .normal _ => true
  | _ => false

def relativeOperandPath (path : PathBuf) : Except FsError PathBuf :=
  let out := path.filter isNormal
  if out = [] then .error (.invalidPortablePath path) else .ok out

def batchTargetPath (source dest : PathBuf) : Except FsError PathBuf :=
  match source.fileName with
  | some fileName => .ok (dest.join [.normal fileName])
  | none => .error (.invalidPortablePath source)

/-! ## Missing sources -/

/-- `delete_receiver_entry` at a relative path that need not be of names only. -/
def deleteReceiverPath (destRoot path relative : PathBuf) (fileType : FileType)
    (options : SyncOptions) : SyncProg Unit := do
  if fileType = .directory then
    report (.deleteDir path)
    actUnlessDry options (.removeDirAll path)
  else
    backupReceiverFile destRoot path relative options
    report (.deleteFile path)
    actUnlessDry options (.removeFile path)

def isDirectoryAt (fs : MemoryFileSystem) (path : PathBuf) : Bool :=
  match fs.metadata path with
  | .ok metadata => metadata.fileType = .directory
  | .error _ => false

def missingArgTarget (fs : MemoryFileSystem) (source dest : PathBuf) (sourceCount : Nat) :
    Except FsError PathBuf :=
  if sourceCount > 1 || isDirectoryAt fs dest then batchTargetPath source dest else .ok dest

def deleteMissingArg (source dest : PathBuf) (sourceCount : Nat) (options : SyncOptions) :
    SyncProg Unit := do
  let fs ← look
  let target ← Prog.ofExcept (missingArgTarget fs source dest sourceCount)
  match fs.metadata target with
  | .error _ => pure ()
  | .ok metadata =>
      let relative := singleFileRelative target
      if metadata.fileType = .directory then
        if ← Prog.ofExcept (keepsDirectory fs target options) then report (.protectDelete target)
        else deleteReceiverPath dest target relative metadata.fileType options
      else deleteReceiverPath dest target relative metadata.fileType options

/-- The sources that are there; what the others name is deleted where that is asked for. -/
def presentSources (dest : PathBuf) (sourceCount : Nat) (options : SyncOptions) :
    Nat → List PathBuf → SyncProg (List PathBuf)
  | _, [] => pure []
  | check, source :: sources => do
      Prog.ofExcept (checkSyncDeadline options.stopDeadline check)
      let fs ← look
      match fs.metadata source with
      | .ok _ => do
          let present ← presentSources dest sourceCount options (check + 1) sources
          pure (source :: present)
      | .error (.notFound path) =>
          if options.deleteMissingArgs then do
            deleteMissingArg source dest sourceCount options
            presentSources dest sourceCount options (check + 1) sources
          else if options.ignoreMissingArgs then
            presentSources dest sourceCount options (check + 1) sources
          else throw (.notFound path)
      | .error e => throw e

/-! ## Implied directories -/

def ensureImpliedDir (dest : PathBuf) (options : SyncOptions) (relative : PathBuf) :
    SyncProg Unit := do
  let target := dest.join relative
  let fs ← look
  match fs.metadata target with
  | .ok metadata =>
      if metadata.fileType = .directory then pure ()
      else if ← removeConflictingTarget dest target relative .directory options then
        report (.createDir target)
        actUnlessDry options (.createDirAll target)
      else pure ()
  | .error (.notFound _) =>
      report (.createDir target)
      actUnlessDry options (.createDirAll target)
  | .error e => throw e

def ensureImpliedDirs (dest : PathBuf) (options : SyncOptions) : List PathBuf → SyncProg Unit
  | [] => pure ()
  | relative :: relatives => do
      ensureImpliedDir dest options relative
      ensureImpliedDirs dest options relatives

/-- The directories above what a source names. -/
def impliedDirs (relative : PathBuf) : List PathBuf := relative.inits.tail.dropLast

def ensureImpliedRelativeDirs (dest : PathBuf) (options : SyncOptions) :
    List PathBuf → SyncProg Unit
  | [] => pure ()
  | source :: sources => do
      let relative ← Prog.ofExcept (relativeOperandPath source)
      ensureImpliedDirs dest options (impliedDirs relative)
      ensureImpliedRelativeDirs dest options sources

/-! ## The sources one by one -/

/-- The options of the `n`-th `sync_tree`: `clock` says how many of its deadline checks
the clock lets pass. -/
def childOptions (clock : Nat → Nat) (n : Nat) (options : SyncOptions) : SyncOptions :=
  { options with
    mkpath := options.mkpath || options.relativePaths
    stopDeadline := options.stopDeadline.map fun _ => clock n }

def sourceTarget (source dest : PathBuf) (options : SyncOptions) : Except FsError PathBuf :=
  if options.relativePaths then (relativeOperandPath source).map fun relative => dest.join relative
  else batchTargetPath source dest

/-- The targets of the sources, none of which may be inside its source. -/
def sourceTargets (dest : PathBuf) (options : SyncOptions) :
    List PathBuf → Except FsError (List PathBuf)
  | [] => .ok []
  | source :: sources => do
      let target ← sourceTarget source dest options
      let sourceRoot ← normalizePortablePath source
      let targetRoot ← normalizePortablePath target
      if sourceRoot.isPrefixOf targetRoot then throw .destinationInsideSource
      else
        let targets ← sourceTargets dest options sources
        pure (target :: targets)

def syncEach (stack : Nat) (clock : Nat → Nat) (options : SyncOptions) :
    Nat → List (PathBuf × PathBuf) → SyncProg Unit
  | _, [] => pure ()
  | n, (source, target) :: rest => do
      syncTree stack source target (childOptions clock n options)
      syncEach stack clock options (n + 1) rest

def syncMultipleSources (stack : Nat) (clock : Nat → Nat) (sources : List PathBuf) (dest : PathBuf)
    (options : SyncOptions) : SyncProg Unit := do
  let fs ← look
  if (fs.metadata dest).toOption.any fun metadata => metadata.fileType ≠ .directory then
    throw (.notDirectory dest)
  else
    let targets ← Prog.ofExcept (sourceTargets dest options sources)
    Prog.ofExcept (preflight options (targets.map destinationPreflightPath))
    Prog.ofExcept (ensureMissingDestinationParentAllowed fs dest options.mkpath)
    if !fs.existsAt dest then
      report (.createDir dest)
      actUnlessDry options (.createDirAll dest)
    else pure ()
    syncEach stack clock options 0 (sources.zip targets)

def syncOneSource (stack : Nat) (clock : Nat → Nat) (source dest : PathBuf)
    (options : SyncOptions) : SyncProg Unit :=
  if options.relativePaths then do
    let fs ← look
    Prog.ofExcept (ensureMissingDestinationParentAllowed fs dest options.mkpath)
    let relative ← Prog.ofExcept (relativeOperandPath source)
    syncTree stack source (dest.join relative) (childOptions clock 0 options)
  else syncTree stack source dest (childOptions clock 0 options)

def syncChildren (stack : Nat) (clock : Nat → Nat) (dest : PathBuf) (options : SyncOptions) :
    List PathBuf → SyncProg Unit
  | [source] => syncOneSource stack clock source dest options
  | present => syncMultipleSources stack clock present dest options

/-- What is left of `sync_sources` once the sources have been looked at. -/
def syncPresent (stack : Nat) (clock : Nat → Nat) (dest : PathBuf) (options : SyncOptions)
    (present : List PathBuf) : SyncProg Unit := do
  if options.relativePaths && options.impliedDirs then
    ensureImpliedRelativeDirs dest options present
  else pure ()
  syncChildren stack clock dest options present

def syncSources (stack : Nat) (clock : Nat → Nat) (sources : List PathBuf) (dest : PathBuf)
    (options : SyncOptions) : SyncProg Unit :=
  if sources = [] then throw (.unsupported "sync requires at least one source")
  else do
    let present ← presentSources dest sources.length options 0 sources
    if present = [] then pure () else syncPresent stack clock dest options present

end RsyncWin.Fs
