import RsyncWin.Daemon.Transfer

/-!
# What a client asks (`rsync-cli/src/plan/remote_args.rs`, `rsync-protocol/src/session.rs`)

From the options of the command line two things are made: the arguments for the
other side, and the plan by which the client itself encodes and decodes. The long
options are a table here, in the order they are appended. Filter rules are those
of the command line alone: files of rules and the CVS patterns are left out.
-/

namespace RsyncWin

inductive RemoteDeleteMode where
  | none | before | during | delay | after
deriving DecidableEq, Repr

/-! ## The command line -/

/-- The options that the arguments and the plan of a daemon transfer are made of. -/
structure Cli where
  archive : Bool := false
  recursive : Bool := false
  noRecursive : Bool := false
  incRecursive : Bool := false
  noIncRecursive : Bool := false
  preserveTimes : Bool := false
  noTimes : Bool := false
  rsyncPath : Option Text := none
  secludedArgs : Bool := false
  delete : Bool := false
  deleteMode : Fs.DeleteMode := .none
  dryRun : Bool := false
  wholeFile : Bool := false
  verbosity : Nat := 0
  preservePermissions : Bool := false
  noPermissions : Bool := false
  checksum : Bool := false
  checksumChoice : Option Text := none
  checksumSeed : Option Int := none
  sizeOnly : Bool := false
  ignoreTimes : Bool := false
  partialMode : Bool := false
  partialDir : Option Text := none
  inplace : Bool := false
  appendVerify : Bool := false
  executability : Bool := false
  preserveOwner : Bool := false
  noOwner : Bool := false
  preserveGroup : Bool := false
  noGroup : Bool := false
  numericIds : Bool := false
  userMaps : List Text := []
  groupMaps : List Text := []
  chown : Option Text := none
  chmod : Option Text := none
  acls : Bool := false
  xattrs : Bool := false
  fakeSuper : Bool := false
  atimes : Bool := false
  crtimes : Bool := false
  omitDirTimes : Bool := false
  omitLinkTimes : Bool := false
  links : Bool := false
  noLinks : Bool := false
  copyLinks : Bool := false
  copyDirlinks : Bool := false
  keepDirlinks : Bool := false
  safeLinks : Bool := false
  copyUnsafeLinks : Bool := false
  mungeLinks : Bool := false
  hardLinks : Bool := false
  devices : Bool := false
  noDevices : Bool := false
  specials : Bool := false
  noSpecials : Bool := false
  copyDevices : Bool := false
  writeDevices : Bool := false
  blockSize : Option Nat := none
  compress : Bool := false
  compressChoice : Option Text := none
  compressLevel : Option Nat := none
  compressThreads : Option Nat := none
  skipCompress : List Text := []
  outbuf : Option Text := none
  remoteOptions : List Text := []
  includes : List Text := []
  excludes : List Text := []
  filters : List Text := []

def incrementalRecursionFromCli (cli : Cli) (recursive : Bool) : Bool :=
  recursive && cli.incRecursive && !cli.noIncRecursive

def cliPreservePermissions (cli : Cli) : Bool :=
  (cli.preservePermissions || cli.archive) && !cli.noPermissions

def cliPreserveOwner (cli : Cli) : Bool := cli.preserveOwner || (cli.archive && !cli.noOwner)

def cliPreserveGroup (cli : Cli) : Bool := cli.preserveGroup || (cli.archive && !cli.noGroup)

def remoteDeleteMode (delete : Bool) (deleteMode : Fs.DeleteMode) : RemoteDeleteMode :=
  match if deleteMode ≠ .none then deleteMode else if delete then .during else .none with
  | .none => .none
  | .before => .before
  | .during => .during
  | .delay => .delay
  | .after => .after

def remoteDeleteModeFromCli (cli : Cli) : RemoteDeleteMode :=
  remoteDeleteMode cli.delete cli.deleteMode

def updateModeFromCli (cli : Cli) : Fs.UpdateMode :=
  if cli.ignoreTimes then .ignoreTimes
  else if cli.checksum then .checksum
  else if cli.sizeOnly then .sizeOnly
  else .quickCheck

def symlinkModeFromCli (cli : Cli) : Fs.SymlinkMode :=
  if cli.noLinks then .skip
  else if cli.copyLinks then .copyAll
  else if cli.copyDirlinks then .copyDirLinks
  else if cli.copyUnsafeLinks then .copyUnsafe
  else if cli.safeLinks then .safeOnly
  else if cli.mungeLinks then .munge
  else if cli.links || cli.archive then .preserve
  else .skip

/-- `RsyncDeflatedTokenMode::from_choice`; `none` is the error. -/
def RsyncDeflatedTokenMode.fromChoice (choice : Option Text) : Option RsyncDeflatedTokenMode :=
  match choice.map fun name => asciiLowercase (trim name) with
  | none => some .zlibx
  | some name =>
      if name = "zlibx".toList then some .zlibx
      else if name = "zlib".toList then some .zlib
      else none

def RsyncDeflatedTokenMode.remoteChoice : RsyncDeflatedTokenMode → Text
  | .zlib => "zlib".toList
  | .zlibx => "zlibx".toList

def remoteCompressChoiceForArgv (compress : Bool) (choice : Option Text) : Option Text :=
  if !compress then none
  else
    match RsyncDeflatedTokenMode.fromChoice choice with
    | some mode => some mode.remoteChoice
    | none => choice

/-! ## The plan -/

/-- What the client goes by on the wire. -/
structure WirePlan where
  recursive : Bool
  preserveTimes : Bool
  symlinkMode : Fs.SymlinkMode
  updateMode : Fs.UpdateMode
  preserveOwner : Bool
  preserveGroup : Bool
  numericIds : Bool
  preserveAcls : Bool
  preserveXattrs : Bool
  fakeSuper : Bool
  atimes : Bool
  crtimes : Bool
  compress : Bool
  compressChoice : Option Text
  compressLevel : Option Nat
  skipCompress : List Text

/-- These fields of `TransferPlan::from_cli`. -/
def wirePlanFromCli (cli : Cli) : WirePlan where
  recursive := (cli.recursive || cli.archive) && !cli.noRecursive
  preserveTimes := (cli.preserveTimes || cli.archive) && !cli.noTimes
  symlinkMode := symlinkModeFromCli cli
  updateMode := updateModeFromCli cli
  preserveOwner := cliPreserveOwner cli
  preserveGroup := cliPreserveGroup cli
  numericIds := cli.numericIds
  preserveAcls := cli.acls
  preserveXattrs := cli.xattrs
  fakeSuper := cli.fakeSuper
  atimes := cli.atimes
  crtimes := cli.crtimes
  compress := cli.compress
  compressChoice := cli.compressChoice
  compressLevel := cli.compressLevel
  skipCompress := cli.skipCompress

def rsync31FileListOptionsFromPlan (plan : WirePlan) (includeChecksums includeMetadata : Bool)
    (fakeSuperUsesXattrs : Bool) : RsyncFileListOptions :=
  if !includeMetadata then { includeChecksums }
  else
    { includeChecksums
      preserveOwner := plan.preserveOwner
      preserveGroup := plan.preserveGroup
      numericIds := plan.numericIds
      acls := plan.preserveAcls
      xattrs := plan.preserveXattrs || (fakeSuperUsesXattrs && plan.fakeSuper)
      fakeSuper := plan.fakeSuper
      atimes := plan.atimes
      crtimes := plan.crtimes }

/-- As `pull.rs` and `push.rs` build them when the other side is a daemon. -/
def daemonFlistOptions (plan : WirePlan) : RsyncFileListOptions :=
  rsync31FileListOptionsFromPlan plan (decide (plan.updateMode = .checksum)) true true

def RemoteCompressionConfig.forPlan (plan : WirePlan) :
    Except Error (Option RemoteCompressionConfig) :=
  if !plan.compress then .ok none
  else
    match RsyncDeflatedTokenMode.fromChoice plan.compressChoice with
    | some mode => .ok (some ⟨mode, min (plan.compressLevel.getD 6) 9, plan.skipCompress⟩)
    | none => .error (.other
        "unsupported compression choice; rsync-win currently supports zlibx and zlib")

/-- One that does not parse is reported and skipped. -/
def pushValid (rules : RuleSet) : Except ParseRuleError Rule → RuleSet
  | .ok rule => rules.push rule
  | .error _ => rules

/-- The rules of the command line. -/
def buildFilterRules (cli : Cli) : RuleSet :=
  let rules := cli.includes.foldl (fun rules value => pushValid rules (Rule.new .include value)) {}
  let rules := cli.excludes.foldl (fun rules value => pushValid rules (Rule.new .exclude value)) rules
  cli.filters.foldl (fun rules value => pushValid rules (Rule.parseFilter value)) rules

/-! ## Arguments -/

structure RemoteShellOptions where
  rsyncPath : Text
  direction : TransferDirection
  secludedArgs : Bool
  recursive : Bool
  incrementalRecursion : Bool
  preserveTimes : Bool
  deleteMode : RemoteDeleteMode
  dryRun : Bool
  wholeFile : Bool
  verbosity : Nat
  preservePermissions : Bool
  checksum : Bool
  checksumChoice : Option Text
  checksumSeed : Option Int
  sizeOnly : Bool
  ignoreTimes : Bool
  partialMode : Bool
  partialDir : Option Text
  inplace : Bool
  appendVerify : Bool
  executability : Bool
  preserveOwner : Bool
  preserveGroup : Bool
  numericIds : Bool
  userMaps : List Text
  groupMaps : List Text
  chown : Option Text
  chmod : Option Text
  acls : Bool
  xattrs : Bool
  fakeSuper : Bool
  atimes : Bool
  crtimes : Bool
  omitDirTimes : Bool
  omitLinkTimes : Bool
  preserveLinks : Bool
  copyLinks : Bool
  copyDirlinks : Bool
  keepDirlinks : Bool
  safeLinks : Bool
  copyUnsafeLinks : Bool
  mungeLinks : Bool
  hardLinks : Bool
  preserveDevices : Bool
  preserveSpecials : Bool
  copyDevices : Bool
  writeDevices : Bool
  blockSize : Option Nat
  compress : Bool
  compressChoice : Option Text
  compressLevel : Option Nat
  compressThreads : Option Nat
  skipCompress : List Text
  outbuf : Option Text
  remoteOptions : List Text
  includes : List Text
  excludes : List Text
  filters : List Text

def remoteShellOptionsFromCli (cli : Cli) (direction : TransferDirection)
    (recursive preserveTimes : Bool) (symlinkMode : Fs.SymlinkMode) : RemoteShellOptions :=
  let push := decide (direction = .push)
  let pull := decide (direction = .pull)
  { rsyncPath := cli.rsyncPath.getD "rsync".toList
    direction
    secludedArgs := cli.secludedArgs
    recursive
    incrementalRecursion := pull && incrementalRecursionFromCli cli recursive
    preserveTimes
    deleteMode := remoteDeleteModeFromCli cli
    dryRun := cli.dryRun
    wholeFile := cli.wholeFile && !(push && cli.appendVerify)
    verbosity := cli.verbosity
    preservePermissions := cliPreservePermissions cli
    checksum := cli.checksum
    checksumChoice := cli.checksumChoice
    checksumSeed := cli.checksumSeed
    sizeOnly := push && cli.sizeOnly
    ignoreTimes := push && cli.ignoreTimes
    partialMode := push && cli.partialMode
    partialDir := if push then cli.partialDir else none
    inplace := push && cli.inplace
    appendVerify := push && cli.appendVerify
    executability := push && cli.executability
    preserveOwner := push && cliPreserveOwner cli
    preserveGroup := push && cliPreserveGroup cli
    numericIds := push && cli.numericIds
    userMaps := if push then cli.userMaps else []
    groupMaps := if push then cli.groupMaps else []
    chown := if push then cli.chown else none
    chmod := if push then cli.chmod else none
    acls := push && cli.acls
    xattrs := push && cli.xattrs
    fakeSuper := push && cli.fakeSuper
    atimes := push && cli.atimes
    crtimes := push && cli.crtimes
    omitDirTimes := cli.omitDirTimes
    omitLinkTimes := cli.omitLinkTimes
    preserveLinks := push && decide (symlinkMode = .preserve) && (cli.links || cli.archive)
    copyLinks := pull && decide (symlinkMode = .copyAll)
    copyDirlinks := decide (symlinkMode = .copyDirLinks)
    keepDirlinks := cli.keepDirlinks
    safeLinks := push && decide (symlinkMode = .safeOnly)
    copyUnsafeLinks := pull && decide (symlinkMode = .copyUnsafe)
    mungeLinks := decide (symlinkMode = .munge)
    hardLinks := cli.hardLinks
    preserveDevices := (cli.devices || cli.archive || cli.copyDevices || cli.writeDevices) &&
      !cli.noDevices
    preserveSpecials := (cli.specials || cli.archive) && !cli.noSpecials
    copyDevices := cli.copyDevices
    writeDevices := cli.writeDevices
    blockSize := cli.blockSize
    compress := cli.compress
    compressChoice := remoteCompressChoiceForArgv cli.compress cli.compressChoice
    compressLevel := cli.compressLevel
    compressThreads := cli.compressThreads
    skipCompress := cli.skipCompress
    outbuf := cli.outbuf
    remoteOptions := cli.remoteOptions
    includes := cli.includes
    excludes := cli.excludes
    filters := cli.filters }

def daemonRemoteShellOptionsFromCli (cli : Cli) (direction : TransferDirection)
    (recursive preserveTimes : Bool) (symlinkMode : Fs.SymlinkMode) : RemoteShellOptions :=
  let options := remoteShellOptionsFromCli cli direction recursive preserveTimes symlinkMode
  let options :=
    if direction = .pull then
      { options with
        executability := cli.executability
        preserveOwner := cliPreserveOwner cli
        preserveGroup := cliPreserveGroup cli
        numericIds := cli.numericIds
        userMaps := cli.userMaps
        groupMaps := cli.groupMaps
        chown := cli.chown
        chmod := cli.chmod
        acls := cli.acls
        xattrs := cli.xattrs
        fakeSuper := cli.fakeSuper
        atimes := cli.atimes
        crtimes := cli.crtimes }
    else options
  if options.fakeSuper then { options with xattrs := true } else options

/-- One long option: a word that is there or not, or one argument for each value. -/
inductive LongOption where
  | word (given : Bool) (name : String)
  | values (start : String) (given : List Text)

def LongOption.args : LongOption → List Text
  | .word given name => if given then [name.toList] else []
  | .values start given => given.map (start.toList ++ ·)

namespace RemoteShellOptions

variable (options : RemoteShellOptions)

/-- `append_remote_delete_option`. -/
def deleteOptions : List LongOption :=
  [.word (decide (options.deleteMode = .before)) "--delete-before",
   .word (decide (options.deleteMode = .during)) "--delete-during",
   .word (decide (options.deleteMode = .delay)) "--delete-delay",
   .word (decide (options.deleteMode = .after)) "--delete-after"]

/-- `append_remote_shell_long_options`, behind the remote options. -/
def longOptions : List LongOption :=
  [.word options.checksum "--checksum",
   .values "--checksum-choice=" options.checksumChoice.toList,
   .values "--checksum-seed=" (options.checksumSeed.map Numeral.printSigned).toList,
   .word options.preservePermissions "--perms",
   .word options.executability "--executability",
   .word options.preserveOwner "--owner",
   .word options.preserveGroup "--group",
   .word options.sizeOnly "--size-only",
   .word options.ignoreTimes "--ignore-times",
   .word options.partialMode "--partial",
   .values "--partial-dir=" options.partialDir.toList,
   .word options.inplace "--inplace",
   .word options.appendVerify "--append-verify",
   .word options.numericIds "--numeric-ids",
   .values "--usermap=" options.userMaps,
   .values "--groupmap=" options.groupMaps,
   .values "--chown=" options.chown.toList,
   .values "--chmod=" options.chmod.toList,
   .word options.acls "--acls",
   .word options.xattrs "--xattrs",
   .word options.fakeSuper "--fake-super",
   .word options.atimes "--atimes",
   .word options.crtimes "--crtimes",
   .word options.omitDirTimes "--omit-dir-times",
   .word options.omitLinkTimes "--omit-link-times",
   .word options.preserveLinks "--links",
   .word options.copyLinks "--copy-links",
   .word options.copyDirlinks "--copy-dirlinks",
   .word options.keepDirlinks "--keep-dirlinks",
   .word options.safeLinks "--safe-links",
   .word options.copyUnsafeLinks "--copy-unsafe-links",
   .word options.mungeLinks "--munge-links",
   .word options.hardLinks "--hard-links",
   .word options.preserveDevices "--devices",
   .word options.preserveSpecials "--specials",
   .word options.copyDevices "--copy-devices",
   .word options.writeDevices "--write-devices",
   .values "--block-size=" (options.blockSize.map (Nat.toDigits 10)).toList,
   .word options.compress "--compress",
   .values "--compress-choice=" options.compressChoice.toList,
   .values "--compress-level=" (options.compressLevel.map (Nat.toDigits 10)).toList,
   .values "--compress-threads=" (options.compressThreads.map (Nat.toDigits 10)).toList,
   .values "--skip-compress=" options.skipCompress,
   .values "--outbuf=" options.outbuf.toList,
   .values "--include=" options.includes,
   .values "--exclude=" options.excludes,
   .values "--filter=" options.filters]

def shortArgs : Text :=
  ['-'] ++ List.replicate options.verbosity 'v' ++ (if options.dryRun then ['n'] else []) ++
    (if options.wholeFile then ['W'] else []) ++ (if options.preserveTimes then ['t'] else []) ++
    (if options.recursive then ['r'] else []) ++ "e.".toList ++
    (if options.incrementalRecursion then ['i'] else []) ++ "LsfxCIvu".toList

def serverArgs : List LongOption :=
  [.word true "--server", .word (decide (options.direction = .pull)) "--sender"]

def recursionOption : LongOption :=
  .word (options.recursive && !options.incrementalRecursion) "--no-inc-recursive"

/-- The program first. -/
def protocol31Argv (paths : List Text) : List Text :=
  [options.rsyncPath] ++ options.serverArgs.flatMap (·.args) ++
    options.deleteOptions.flatMap (·.args) ++ options.recursionOption.args ++
    options.remoteOptions ++ options.longOptions.flatMap (·.args) ++ [options.shortArgs, ['.']] ++
    paths

end RemoteShellOptions

/-- What `SessionError` says about paths. -/
inductive RemotePathError where
  | missingRemotePath (operand : Text)
  | nulByteInPath
deriving DecidableEq, Repr

/-- `append_remote_paths`. -/
def checkRemotePaths (paths : List Text) : Except RemotePathError Unit :=
  if paths = [] then .error (.missingRemotePath [])
  else if paths.any (·.contains '\x00') then .error .nulByteInPath
  else .ok ()

/-- With secluded arguments only the first words are public. -/
def remoteShellInvocationForArgv (options : RemoteShellOptions) (argv : List Text) : List Text :=
  if !options.secludedArgs then argv
  else [options.rsyncPath] ++ options.serverArgs.flatMap (·.args) ++ ["-s".toList]

def buildRemoteShellProtocol31ArgvForPaths (options : RemoteShellOptions) (paths : List Text) :
    Except RemotePathError (List Text) := do
  checkRemotePaths paths
  .ok (remoteShellInvocationForArgv options (options.protocol31Argv paths))

/-- `daemon_server_args_for_pull` and `daemon_server_args_for_push`, by the modern protocol. -/
def daemonServerArgs (cli : Cli) (direction : TransferDirection) (daemonPath : Option Text) :
    Except RemotePathError (List Text) := do
  let plan := wirePlanFromCli cli
  let options := daemonRemoteShellOptionsFromCli cli direction plan.recursive plan.preserveTimes
    plan.symlinkMode
  let argv ← buildRemoteShellProtocol31ArgvForPaths options [daemonPath.getD ['.']]
  .ok (argv.drop 1)

end RsyncWin
