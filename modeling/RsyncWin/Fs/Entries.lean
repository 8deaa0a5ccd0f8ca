import RsyncWin.Fs.Options

/-!
# The walk over a tree (`relative_entries`, `rsync-fs/src/sync.rs`)

A walk lists a directory, applies the symlink mode and the filter rules to each
entry and goes down into directories, with the rules that a merge file of the
directory adds. The recursion of the source is bounded by its stack only;
`stack` is how many calls fit.
-/

namespace RsyncWin.Fs

open ByteString

abbrev Entries := Std.TreeMap Key WalkEntry

structure RelativeEntryOptions where
  filterRules : Option RuleSet
  recursive : Bool
  symlinkMode : SymlinkMode
  oneFileSystem : Bool

def isUnsafeSymlinkTarget (target : PathBuf) : Bool :=
  target.isAbsolute || target.contains .parentDir

def followedFileMetadataOrOther (fs : MemoryFileSystem) (path : PathBuf) :
    Except FsError PortableMetadata := do
  let metadata ← fs.metadataFollow path
  let fileType :=
    if metadata.fileType = .file || metadata.fileType = .directory then metadata.fileType
    else .other
  pure { metadata with fileType, symlinkTarget := none }

def followedEntry (fs : MemoryFileSystem) (entry : WalkEntry) : Except FsError WalkEntry := do
  let metadata ← followedFileMetadataOrOther fs entry.path
  pure { entry with
    metadata := { metadata with symlinkTarget := entry.metadata.symlinkTarget } }

def applySymlinkMode (fs : MemoryFileSystem) (entry : WalkEntry) (symlinkMode : SymlinkMode) :
    Except FsError (Option WalkEntry) :=
  if entry.metadata.fileType ≠ .symlink then .ok (some entry)
  else
    let isUnsafe := entry.metadata.symlinkTarget.any isUnsafeSymlinkTarget
    match symlinkMode with
    | .skip => .ok none
    | .preserve => .ok (some entry)
    | .munge => .ok (some entry)
    | .safeOnly => .ok (if isUnsafe then none else some entry)
    | .copyAll => do
        let followed ← followedEntry fs entry
        pure (some followed)
    | .copyDirLinks => do
        let followed ← followedEntry fs entry
        pure (some (if followed.metadata.fileType = .directory then followed else entry))
    | .copyUnsafe =>
        if isUnsafe then do
          let followed ← followedEntry fs entry
          pure (some followed)
        else .ok (some entry)

def resolveSymlinkTarget (linkPath target : PathBuf) : PathBuf :=
  if target.isAbsolute then target
  else match linkPath.parent with
    | some parent => parent.join target
    | none => target

def followedDirectoryWalkPath (entry : WalkEntry) (symlinkMode : SymlinkMode) : Option PathBuf :=
  if entry.metadata.fileType ≠ .directory then none
  else
    match entry.metadata.symlinkTarget with
    | none => none
    | some target =>
        let shouldFollow :=
          match symlinkMode with
          | .copyAll | .copyDirLinks => true
          | .copyUnsafe => isUnsafeSymlinkTarget target
          | .skip | .preserve | .safeOnly | .munge => false
        if shouldFollow then some (resolveSymlinkTarget entry.path target) else none

/-- The path that a rule's pattern names, in UTF-8. -/
def patternPath (pattern : Option Pattern) : PathBuf :=
  match pattern with
  | some pattern => components (String.ofList pattern.raw).toUTF8.toList
  | none => []

/-- The rules of the merge files that one directory has, after the ones inherited. -/
def mergeRules (fs : MemoryFileSystem) (current : PathBuf) :
    List Rule → RuleSet × Bool → Except FsError (RuleSet × Bool)
  | [], merged => .ok merged
  | rule :: rules, (merged, loadedAny) =>
      if rule.action ≠ .dirMerge then mergeRules fs current rules (merged, loadedAny)
      else
        match fs.readFile (current.join (patternPath rule.pattern)) with
        | .error (.notFound _) => mergeRules fs current rules (merged, loadedAny)
        | .error e => .error e
        | .ok bytes =>
            match Rule.parseFilterFile bytes false .exclude with
            | .error _ => .error (.unsupported "invalid dir-merge filter file")
            | .ok parsed =>
                mergeRules fs current rules (parsed.foldl RuleSet.push merged, true)

def loadDirMergeRules (fs : MemoryFileSystem) (current : PathBuf) :
    Option RuleSet → Except FsError (Option RuleSet)
  | none => .ok none
  | some inherited => do
      let (merged, loadedAny) ← mergeRules fs current inherited.rules (inherited, false)
      pure (if loadedAny then some merged else none)

def onSameFileSystem (fs : MemoryFileSystem) (root : PathBuf) (options : RelativeEntryOptions)
    (path : PathBuf) : Except FsError Bool :=
  if options.oneFileSystem then fs.sameFileSystem root path else .ok true

/-- What becomes of one listed entry: whether the walk takes it in, and the
directory it then goes down into. -/
def visitEntry (fs : MemoryFileSystem) (root : PathBuf) (options : RelativeEntryOptions)
    (relative : Key) (original : WalkEntry) :
    Except FsError (Option (WalkEntry × Option PathBuf)) := do
  match ← applySymlinkMode fs original options.symlinkMode with
  | none => pure none
  | some entry =>
      let sameFileSystem ← onSameFileSystem fs root options entry.path
      if !sameFileSystem then pure none
      else if options.filterRules.any fun rules =>
          senderPathIsFiltered rules relative entry.metadata.fileType then pure none
      else if options.recursive && entry.metadata.fileType = .directory then
        let childRoot := (followedDirectoryWalkPath entry options.symlinkMode).getD entry.path
        pure (some (entry, some childRoot))
      else pure (some (entry, none))

section Collect

variable (fs : MemoryFileSystem) (root : PathBuf) (relativeRoot : Key)
  (options : RelativeEntryOptions) (descend : PathBuf → Key → Entries → Except FsError Entries)

/-- One listed entry; `descend` is the walk below it. -/
def collectEntry (original : WalkEntry) (entries : Entries) : Except FsError Entries :=
  match original.path.fileName with
  | none => .error (.invalidPortablePath original.path)
  | some name =>
      let relative := relativeRoot ++ [name]
      match visitEntry fs root options relative original with
      | .error e => .error e
      | .ok none => .ok entries
      | .ok (some (entry, none)) => .ok (entries.insert relative entry)
      | .ok (some (entry, some childRoot)) =>
          descend childRoot relative (entries.insert relative entry)

def collectListed : List WalkEntry → Entries → Except FsError Entries
  | [], entries => .ok entries
  | original :: listed, entries => do
      let entries ← collectEntry fs root relativeRoot options descend original entries
      collectListed listed entries

end Collect

def collectRelativeEntries (fs : MemoryFileSystem) (root : PathBuf) :
    Nat → PathBuf → Key → RelativeEntryOptions → Entries → Except FsError Entries
  | 0, _, _, _, _ => .error .stackOverflow
  | stack + 1, current, relativeRoot, options, entries => do
      let directoryRules ← loadDirMergeRules fs current options.filterRules
      let options := { options with filterRules := directoryRules.or options.filterRules }
      let listed ← fs.list current
      collectListed fs root relativeRoot options
        (fun childRoot relative => collectRelativeEntries fs root stack childRoot relative options)
        listed entries

def relativeEntries (stack : Nat) (fs : MemoryFileSystem) (root : PathBuf)
    (options : RelativeEntryOptions) : Except FsError Entries :=
  collectRelativeEntries fs root stack root [] options ∅

def retainFilesFromEntries (entries : Entries) (filesFrom : List PathBuf) : Entries :=
  entries.filter fun relative _ => filesFromMatches relative filesFrom

end RsyncWin.Fs
