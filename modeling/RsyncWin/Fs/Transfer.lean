import RsyncWin.Lib.Prog
import RsyncWin.Fs.Entries

/-!
# Bringing one entry to the destination (`rsync-fs/src/sync.rs`)

The steps of a local sync as programs over a file system and a report. A
program looks at the file system, changes it by one `FsAct` at a time, and
pushes actions to its report; a change that fails may still have changed
something. Dry runs push the same actions and change nothing.
-/

namespace RsyncWin.Fs

open ByteString

/-! ## The effects -/

inductive FsAct where
  | createDirAll (path : PathBuf)
  | removeFile (path : PathBuf)
  | removeDirAll (path : PathBuf)
  | copyFile (source dest : PathBuf) (mode : FileWriteMode)
  | renameFile (source dest : PathBuf)
  | appendFileFrom (path source : PathBuf) (offset : Nat)
  | createSymlink (path target : PathBuf)
  | createHardLink (existing link : PathBuf)
  | setMtime (path : PathBuf) (modified : Int)
deriving DecidableEq, Repr

def FsAct.run (fs : MemoryFileSystem) : FsAct → MemoryFileSystem.Outcome
  | .createDirAll path => fs.createDirAll path
  | .removeFile path => fs.removeFile path
  | .removeDirAll path => fs.removeDirAll path
  | .copyFile source dest mode => fs.copyFileWithOptions source dest mode
  | .renameFile source dest => fs.renameFile source dest
  | .appendFileFrom path source offset => fs.appendFileFrom path source offset
  | .createSymlink path target => fs.createSymlink path target
  | .createHardLink existing link => fs.createHardLink existing link
  | .setMtime path modified => fs.setMtime path modified

inductive SyncOp where
  | look
  | act (change : FsAct)
  | push (action : SyncAction)

def SyncOp.Ret : SyncOp → Type
  | .look => MemoryFileSystem
  | .act _ => Except FsError Unit
  | .push _ => Unit

abbrev SyncSig : Sig := ⟨SyncOp, SyncOp.Ret⟩

structure World where
  fs : MemoryFileSystem
  report : List SyncAction := []

def syncHandler : Handler SyncSig World
  | .look, w => some (w.fs, w)
  | .act change, w => some ((change.run w.fs).1, { w with fs := (change.run w.fs).2 })
  | .push action, w => some ((), { w with report := w.report ++ [action] })

abbrev SyncProg (α : Type) := Prog SyncSig FsError α

def look : SyncProg MemoryFileSystem := Prog.op (S := SyncSig) .look

/-- One change, whose error is the reply. -/
def tryAct (change : FsAct) : SyncProg (Except FsError Unit) := Prog.op (S := SyncSig) (.act change)

def act (change : FsAct) : SyncProg Unit := tryAct change >>= Prog.ofExcept

def report (action : SyncAction) : SyncProg Unit := Prog.op (S := SyncSig) (.push action)

/-- A change that a dry run leaves out. -/
def actUnlessDry (options : SyncOptions) (change : FsAct) : SyncProg Unit :=
  if options.dryRun then pure () else act change

/-! ## Backups -/

def appendSuffix (path : PathBuf) (suffix : Bytes) : PathBuf :=
  if suffix = [] then path else path.withFileName ((path.fileName).getD [] ++ suffix)

def backupPathFor (destRoot target relative : PathBuf) (options : SyncOptions) : PathBuf :=
  let base :=
    match options.backupDir with
    | some backupDir =>
        if backupDir.isAbsolute then backupDir.join relative
        else (destRoot.join backupDir).join relative
    | none => target
  appendSuffix base options.backupSuffix

/-- `backup_receiver_file`: only regular files have backups. -/
def backupReceiverFile (destRoot target relative : PathBuf) (options : SyncOptions) :
    SyncProg Unit := do
  if options.backup then
    let fs ← look
    match fs.metadata target with
    | .error _ => pure ()
    | .ok metadata =>
        if metadata.fileType ≠ .file then pure ()
        else
          let backupPath := backupPathFor destRoot target relative options
          report (.backupFile target backupPath)
          actUnlessDry options (.copyFile target backupPath .atomic)
  else pure ()

/-! ## Making way -/

/-- Whether a directory that a file is to replace has to stay: nothing allows
deletions and it is not empty. -/
def keepsDirectory (fs : MemoryFileSystem) (target : PathBuf) (options : SyncOptions) :
    Except FsError Bool :=
  if !options.forceDelete && options.effectiveDeleteMode = .none then do
    let listed ← fs.list target
    pure (!listed.isEmpty)
  else pure false

/-- A directory symlink that `keep_dirlinks` takes for the directory. -/
def isKeptDirlink (fs : MemoryFileSystem) (target : PathBuf) (targetType sourceType : FileType)
    (options : SyncOptions) : Bool :=
  options.keepDirlinks && sourceType = .directory && targetType = .symlink &&
    match fs.metadataFollow target with
    | .ok metadata => metadata.fileType = .directory
    | .error _ => false

/-- `false`: the target stays as it is. -/
def removeConflictingTarget (destRoot target relative : PathBuf) (sourceType : FileType)
    (options : SyncOptions) : SyncProg Bool := do
  let fs ← look
  match fs.metadata target with
  | .error _ => pure true
  | .ok metadata =>
      if isKeptDirlink fs target metadata.fileType sourceType options then pure true
      else if metadata.fileType = sourceType then pure true
      else if metadata.fileType = .directory then
        if ← Prog.ofExcept (keepsDirectory fs target options) then
          report (.protectDelete target)
          pure false
        else
          report (.deleteDir target)
          actUnlessDry options (.removeDirAll target)
          pure true
      else
        backupReceiverFile destRoot target relative options
        report (.deleteFile target)
        actUnlessDry options (.removeFile target)
        pure true

def removeExistingFileBeforeHardlink (target : PathBuf) : SyncProg Unit := do
  let fs ← look
  match fs.metadata target with
  | .ok metadata => if metadata.fileType ≠ .directory then act (.removeFile target) else pure ()
  | .error (.notFound _) => pure ()
  | .error e => throw e

/-! ## Times -/

def preserveTransferredMtime (target : PathBuf) (source : WalkEntry) (options : SyncOptions) :
    SyncProg Unit := do
  if !options.preserveMtime then pure ()
  else if options.omitDirTimes && source.metadata.fileType = .directory then pure ()
  else
    match source.metadata.modified with
    | none => pure ()
    | some modified =>
        report (.preserveMtime target)
        actUnlessDry options (.setMtime target modified)

def preserveExistingFileMtime (target : PathBuf) (source : WalkEntry) (options : SyncOptions) :
    SyncProg Unit := do
  if !options.preserveMtime then pure ()
  else
    match source.metadata.modified with
    | none => pure ()
    | some modified =>
        let fs ← look
        match fs.metadata target with
        | .error _ => pure ()
        | .ok metadata =>
            if metadata.modified = some modified then pure ()
            else
              report (.preserveMtime target)
              actUnlessDry options (.setMtime target modified)

def nanosPerSecond : Int := 1000000000

/-- Whole seconds between the two, compared with the window. -/
def mtimesEqual (left right window : Int) : Bool :=
  if window < 0 then left = right
  else ((left - right).natAbs : Int) / nanosPerSecond ≤ window

def mtimesDiffer (options : SyncOptions) (source target : Option Int) : Bool :=
  match source, target with
  | some source, some target => !mtimesEqual source target options.modifyWindow
  | _, _ => true

def isNewer (source target : Option Int) : Bool :=
  match source, target with
  | some source, some target => source < target
  | _, _ => false

def fileNeedsUpdate (fs : MemoryFileSystem) (source : WalkEntry) (target : PathBuf)
    (options : SyncOptions) : Except FsError Bool :=
  let len := source.metadata.len
  if options.maxSize.any (· < len) then .ok false
  else if options.minSize.any (len < ·) then .ok false
  else
    match fs.metadata target with
    | .error _ => .ok (!options.existingOnly)
    | .ok metadata =>
        if metadata.fileType ≠ .file then .ok true
        else if options.ignoreExisting then .ok false
        else if options.skipNewerReceiver && isNewer source.metadata.modified metadata.modified then
          .ok false
        else
          match options.updateMode with
          | .ignoreTimes => .ok true
          | .sizeOnly => .ok (len ≠ metadata.len)
          | .quickCheck =>
              .ok (len ≠ metadata.len ||
                mtimesDiffer options source.metadata.modified metadata.modified)
          | .checksum => do
              let equal ← fs.filesEqual source.path target
              pure (!equal)

/-! ## Alternate basis files -/

inductive BasisMatchAction where
  | skip
  | copyFrom (basis : PathBuf)
  | linkFrom (basis : PathBuf)
deriving DecidableEq, Repr

def basisFilePath (destRoot basisDir relative : PathBuf) : PathBuf :=
  if basisDir.isAbsolute then basisDir.join relative
  else (destRoot.join basisDir).join relative

def basisFilesMatch (source : WalkEntry) (basis : PortableMetadata) : Bool :=
  basis.fileType = .file && basis.len = source.metadata.len &&
    match source.metadata.modified, basis.modified with
    | some source, some basis => source = basis
    | _, _ => true

def findBasis (fs : MemoryFileSystem) (destRoot relative : PathBuf) (source : WalkEntry)
    (dirs : List PathBuf) : Option PathBuf :=
  (dirs.map fun dir => basisFilePath destRoot dir relative).find? fun path =>
    match fs.metadata path with
    | .ok metadata => basisFilesMatch source metadata
    | .error _ => false

/-- Links first, then copies, then plain comparison. -/
def checkBasisDirs (fs : MemoryFileSystem) (destRoot relative : PathBuf) (source : WalkEntry)
    (options : SyncOptions) : Option BasisMatchAction :=
  match findBasis fs destRoot relative source options.linkDest with
  | some basis => some (.linkFrom basis)
  | none =>
      match findBasis fs destRoot relative source options.copyDest with
      | some basis => some (.copyFrom basis)
      | none =>
          match findBasis fs destRoot relative source options.compareDest with
          | some _ => some .skip
          | none => none

def commonPrefixLength (a b : List Char) : Nat :=
  ((a.zip b).takeWhile fun pair => pair.1 = pair.2).length

def nameSimilarityScore (a b : List Char) : Nat :=
  commonPrefixLength a b + commonPrefixLength a.reverse b.reverse

/-- The entry with the best score above zero, the first of equals. -/
def bestBasis (sourceName : List Char) :
    List WalkEntry → Option (PathBuf × Nat) → Option (PathBuf × Nat)
  | [], best => best
  | entry :: entries, best =>
      if entry.metadata.fileType ≠ .file then bestBasis sourceName entries best
      else
        match entry.path.fileName.bind utf8Chars with
        | none => bestBasis sourceName entries best
        | some candidate =>
            let score := nameSimilarityScore sourceName candidate
            if 0 < score ∧ best.all (·.2 < score) then
              bestBasis sourceName entries (some (entry.path, score))
            else bestBasis sourceName entries best

def findFuzzyBasis (fs : MemoryFileSystem) (source : WalkEntry) (dest : PathBuf) :
    Option PathBuf := do
  let sourceName ← source.path.fileName.bind utf8Chars
  let parent ← dest.parent
  let entries ← (fs.list parent).toOption
  let (path, _) ← bestBasis sourceName entries none
  if path ≠ source.path then some path else none

/-! ## Regular files -/

structure DelayedTransfer where
  temp : PathBuf
  target : PathBuf
  relative : PathBuf
  entry : WalkEntry
deriving DecidableEq, Repr

/-- What the transfer of one entry leaves for later ones. -/
structure TransferState where
  delayedTransfers : List DelayedTransfer := []
  hardlinkTargets : List (HardlinkId × PathBuf) := []
  directoryMtimes : List (PathBuf × WalkEntry) := []

def TransferState.hardlinkTarget (state : TransferState) (id : HardlinkId) : Option PathBuf :=
  (state.hardlinkTargets.find? fun entry => entry.1 = id).map (·.2)

def rememberHardlinkTarget (entry : WalkEntry) (target : PathBuf) (preserveHardLinks : Bool)
    (state : TransferState) : TransferState :=
  match entry.metadata.hardlinkId with
  | none => state
  | some id =>
      if preserveHardLinks && (state.hardlinkTarget id).isNone then
        { state with hardlinkTargets := state.hardlinkTargets ++ [(id, target)] }
      else state

def appendVerifyOffset (fs : MemoryFileSystem) (source target : PathBuf) (sourceLen : Nat) :
    Except FsError (Option Nat) :=
  match fs.metadata target with
  | .error _ => .ok none
  | .ok metadata =>
      if metadata.fileType ≠ .file ∨ sourceLen < metadata.len then .ok none
      else do
        let isPrefix ← fs.filePrefixMatches source target
        pure (if isPrefix then some metadata.len else none)

/-- `.~tmp~`. -/
def delayedDirName : Bytes := [0x2e, 0x7e, 0x74, 0x6d, 0x70, 0x7e]

def delayedUpdatePath (destRoot relative : PathBuf) (options : SyncOptions) : PathBuf :=
  let root :=
    match options.tempDir with
    | some tempDir => if tempDir.isAbsolute then tempDir else destRoot.join tempDir
    | none => destRoot.join [.normal delayedDirName]
  root.join relative

/-- The link to an earlier target with the same identity. `true`: the file is done. -/
def transferHardLink (destRoot target relative : PathBuf) (entry : WalkEntry)
    (options : SyncOptions) (state : TransferState) : SyncProg Bool := do
  match if options.preserveHardLinks then entry.metadata.hardlinkId.bind state.hardlinkTarget
    else none with
  | none => pure false
  | some existing =>
      report (.createHardLink existing target)
      if options.dryRun then pure true
      else
        backupReceiverFile destRoot target relative options
        removeExistingFileBeforeHardlink target
        match ← tryAct (.createHardLink existing target) with
        | .ok () =>
            preserveTransferredMtime target entry options
            pure true
        | .error err =>
            report (.warn target (.hardLinkFallback err))
            pure false

/-- The file from a basis directory. `true`: the file is done. -/
def transferBasis (destRoot target relative : PathBuf) (entry : WalkEntry)
    (options : SyncOptions) : SyncProg Bool := do
  let fs ← look
  match checkBasisDirs fs destRoot relative entry options with
  | none => pure false
  | some .skip =>
      report (.warn target .compareDestMatch)
      pure true
  | some (.copyFrom basis) =>
      report (.writeFile target entry.metadata.len)
      if options.dryRun then pure ()
      else
        backupReceiverFile destRoot target relative options
        removeExistingFileBeforeHardlink target
        act (.copyFile basis target options.fileWriteMode)
      preserveTransferredMtime target entry options
      pure true
  | some (.linkFrom basis) =>
      report (.createHardLink basis target)
      if options.dryRun then pure ()
      else
        backupReceiverFile destRoot target relative options
        removeExistingFileBeforeHardlink target
        match ← tryAct (.createHardLink basis target) with
        | .ok () => pure ()
        | .error err =>
            report (.warn target (.linkDestFallback err))
            act (.copyFile basis target options.fileWriteMode)
      preserveTransferredMtime target entry options
      pure true

def transferFuzzy (target : PathBuf) (entry : WalkEntry) (options : SyncOptions) :
    SyncProg Unit := do
  if options.fuzzy && !options.dryRun then
    let fs ← look
    if fs.existsAt target then pure ()
    else
      match findFuzzyBasis fs entry target with
      | none => pure ()
      | some basis =>
          report (.warn target (.fuzzyBasis basis))
          act (.copyFile basis target options.fileWriteMode)
  else pure ()

/-- What the source has beyond the target. `true`: the file is done. -/
def transferAppend (target : PathBuf) (entry : WalkEntry) (options : SyncOptions) :
    SyncProg Bool := do
  if options.appendVerify then
    let fs ← look
    match ← Prog.ofExcept (appendVerifyOffset fs entry.path target entry.metadata.len) with
    | none => pure false
    | some offset =>
        let suffixLen := entry.metadata.len - offset
        if 0 < suffixLen then
          report (.appendFile target suffixLen)
          actUnlessDry options (.appendFileFrom target entry.path offset)
        else pure ()
        preserveTransferredMtime target entry options
        pure true
  else pure false

def writeAction (target : PathBuf) (entry : WalkEntry) : FileWriteMode → SyncAction
  | .atomic => .writeFile target entry.metadata.len
  | .inPlace => .writeFileInPlace target entry.metadata.len

def transferWhole (destRoot target relative : PathBuf) (entry : WalkEntry)
    (options : SyncOptions) (state : TransferState) : SyncProg TransferState := do
  report (writeAction target entry options.fileWriteMode)
  if !options.dryRun && options.delayUpdates then
    let temp := delayedUpdatePath destRoot relative options
    act (.copyFile entry.path temp .atomic)
    pure { state with
      delayedTransfers := state.delayedTransfers ++ [⟨temp, target, relative, entry⟩] }
  else
    if options.dryRun then pure ()
    else
      backupReceiverFile destRoot target relative options
      act (.copyFile entry.path target options.fileWriteMode)
    preserveTransferredMtime target entry options
    pure (rememberHardlinkTarget entry target options.preserveHardLinks state)

def transferFile (destRoot target relative : PathBuf) (entry : WalkEntry)
    (options : SyncOptions) (state : TransferState) : SyncProg TransferState := do
  if ← transferHardLink destRoot target relative entry options state then pure state
  else if ← transferBasis destRoot target relative entry options then pure state
  else
    transferFuzzy target entry options
    if ← transferAppend target entry options then pure state
    else transferWhole destRoot target relative entry options state

/-! ## Symlinks and what is not copied -/

/-- `/rsyncd-munged/` before the text of the target. -/
def mungeSymlinkTarget (target : PathBuf) : PathBuf :=
  [.rootDir, .normal [0x72, 0x73, 0x79, 0x6e, 0x63, 0x64, 0x2d, 0x6d, 0x75, 0x6e, 0x67, 0x65, 0x64]]
    ++ target.filterMap fun component =>
      match component with
      | .normal name => some (.normal (lossyBytes name))
      | .parentDir => some .parentDir
      | .curDir => none
      | .rootDir => none

def storedLinkTarget (linkTarget : PathBuf) (options : SyncOptions) : PathBuf :=
  if options.symlinkMode = .munge then mungeSymlinkTarget linkTarget else linkTarget

def isNonDirectory (fs : MemoryFileSystem) (target : PathBuf) : Bool :=
  match fs.metadata target with
  | .ok metadata => metadata.fileType ≠ .directory
  | .error _ => false

/-- The link in the place of whatever is there that is no directory. -/
def placeSymlink (target linkTarget : PathBuf) : SyncProg Unit := do
  let fs ← look
  if isNonDirectory fs target then
    let _ ← tryAct (.removeFile target)
    act (.createSymlink target linkTarget)
  else act (.createSymlink target linkTarget)

def transferSymlink (destRoot target relative : PathBuf) (entry : WalkEntry)
    (options : SyncOptions) : SyncProg Unit := do
  match entry.metadata.symlinkTarget with
  | none => report (.warn entry.path .symlinkWithoutTarget)
  | some linkTarget =>
      if ← removeConflictingTarget destRoot target relative .symlink options then
        report (.createSymlink target (storedLinkTarget linkTarget options))
        if options.dryRun then pure ()
        else placeSymlink target (storedLinkTarget linkTarget options)
        preserveTransferredMtime target entry options
      else pure ()

def nonRegularWarning (label : String) (requested : Bool) : WarnMessage :=
  if requested then .cannotPreserve label else .skipping label

def handleNonRegularEntry (entry : WalkEntry) (options : SyncOptions) : SyncProg Unit :=
  match entry.metadata.fileType with
  | .device =>
      if options.preserveDevices && options.failOnMetadataLoss then
        throw (.unsupported "device metadata cannot be preserved by portable sync")
      else report (.warn entry.path (nonRegularWarning "device" options.preserveDevices))
  | .special =>
      if options.preserveSpecials && options.failOnMetadataLoss then
        throw (.unsupported "special file metadata cannot be preserved by portable sync")
      else report (.warn entry.path (nonRegularWarning "special file" options.preserveSpecials))
  | fileType => report (.warn entry.path (.notCopied fileType))

end RsyncWin.Fs
