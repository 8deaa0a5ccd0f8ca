import RsyncWin.Daemon.Reading

/-!
# Client and daemon agree on a transfer

Each side settles the form of the file list and of the data for itself, the
client by its plan and the daemon by the arguments it was sent. Nothing on the
wire says whether they came to the same, so that a difference garbles the stream.
-/

namespace RsyncWin

open DaemonTransferArgs RemoteShellOptions

section Agreement

variable (cli : Cli) (direction : TransferDirection) (daemonPath : Option Text)

def daemonOptions : RemoteShellOptions :=
  daemonRemoteShellOptionsFromCli cli direction (wirePlanFromCli cli).recursive
    (wirePlanFromCli cli).preserveTimes (wirePlanFromCli cli).symlinkMode

/-- What the client asks for is what the daemon has read. -/
structure Understood (t : DaemonTransferArgs) : Prop where
  /-- A path that is spelled like the option is taken for it. -/
  sender : t.sender = (decide (direction = .pull) ||
    decide (daemonPath.getD ['.'] = "--sender".toList))
  paths : t.paths = [daemonPath.getD ['.']]
  recursive : t.recursive = (wirePlanFromCli cli).recursive
  dryRun : t.dryRun = cli.dryRun
  wholeFile : t.wholeFile = (cli.wholeFile && !(decide (direction = .push) && cli.appendVerify))
  preserveTimes : t.preserveTimes = (wirePlanFromCli cli).preserveTimes
  delete : t.delete = (cli.delete || decide (cli.deleteMode ≠ .none))
  appendVerify : t.appendVerify = (decide (direction = .push) && cli.appendVerify)
  writeMode : t.writeMode = if decide (direction = .push) && cli.inplace then .inPlace else .atomic
  executability : t.preserveExecutability = cli.executability
  blockSize : t.blockSize = cli.blockSize.getD (32 * 1024)
  chmodRules : t.chmodRules = cli.chmod.bind fun value =>
    (ChmodRules.parse (trimStartMatches "--chmod=".toList value)).toOption
  filterRules : PlainValues "--include=" cli.includes → PlainValues "--exclude=" cli.excludes →
    PlainValues "--filter=" cli.filters → t.filterRules = buildFilterRules cli

/-- Both sides write and read the same form. -/
structure SameWire (t : DaemonTransferArgs) : Prop where
  flist : t.protocol31FlistOptions = daemonFlistOptions (wirePlanFromCli cli)
  compression : ∃ config, RemoteCompressionConfig.forPlan (wirePlanFromCli cli) = .ok config ∧
    t.compression.map (·.mode) = config.map (·.mode)

/-- Options that mean the same to both sides. -/
structure Compatible : Prop where
  owner : cliPreserveOwner cli = false → cli.userMaps = [] ∧
    ∀ value ∈ cli.chown, chownUser (trimStartMatches "--chown=".toList value) = []
  group : cliPreserveGroup cli = false → cli.groupMaps = [] ∧
    ∀ value ∈ cli.chown, chownGroup (trimStartMatches "--chown=".toList value) = []
  checksum : cli.checksum = true →
    if direction = .push then cli.sizeOnly = true → cli.ignoreTimes = true
    else cli.ignoreTimes = false
  uncompressed : cli.compress = false → cli.compressLevel = none ∧ cli.skipCompress = []
  choice : cli.compress = true → RsyncDeflatedTokenMode.fromChoice cli.compressChoice ≠ none

/-- The options of a daemon transfer that the daemon looks at. -/
structure AskedBy (options : RemoteShellOptions) : Prop where
  way : options.direction = direction
  secludedArgs : options.secludedArgs = cli.secludedArgs
  remoteOptions : options.remoteOptions = cli.remoteOptions
  recursive : options.recursive = (wirePlanFromCli cli).recursive
  preserveTimes : options.preserveTimes = (wirePlanFromCli cli).preserveTimes
  dryRun : options.dryRun = cli.dryRun
  wholeFile : options.wholeFile =
    (cli.wholeFile && !(decide (direction = .push) && cli.appendVerify))
  deleteMode : options.deleteMode = remoteDeleteModeFromCli cli
  checksum : options.checksum = cli.checksum
  sizeOnly : options.sizeOnly = (decide (direction = .push) && cli.sizeOnly)
  ignoreTimes : options.ignoreTimes = (decide (direction = .push) && cli.ignoreTimes)
  inplace : options.inplace = (decide (direction = .push) && cli.inplace)
  appendVerify : options.appendVerify = (decide (direction = .push) && cli.appendVerify)
  executability : options.executability = cli.executability
  preserveOwner : options.preserveOwner = cliPreserveOwner cli
  preserveGroup : options.preserveGroup = cliPreserveGroup cli
  numericIds : options.numericIds = cli.numericIds
  userMaps : options.userMaps = cli.userMaps
  groupMaps : options.groupMaps = cli.groupMaps
  chown : options.chown = cli.chown
  chmod : options.chmod = cli.chmod
  acls : options.acls = cli.acls
  xattrs : options.xattrs = (cli.xattrs || cli.fakeSuper)
  fakeSuper : options.fakeSuper = cli.fakeSuper
  atimes : options.atimes = cli.atimes
  crtimes : options.crtimes = cli.crtimes
  blockSize : options.blockSize = cli.blockSize
  compress : options.compress = cli.compress
  compressChoice : options.compressChoice =
    remoteCompressChoiceForArgv cli.compress cli.compressChoice
  compressLevel : options.compressLevel = cli.compressLevel
  skipCompress : options.skipCompress = cli.skipCompress
  includes : options.includes = cli.includes
  excludes : options.excludes = cli.excludes
  filters : options.filters = cli.filters

theorem fakeSuper_xattrs (options : RemoteShellOptions) :
    (if options.fakeSuper then { options with xattrs := true } else options) =
      { options with xattrs := options.xattrs || options.fakeSuper } := by
  by_cases hfake : options.fakeSuper = true
  · have hxattrs : (options.xattrs || options.fakeSuper) = true := by rw [hfake, Bool.or_true]
    rw [if_pos hfake, hxattrs]
  · have hxattrs : (options.xattrs || options.fakeSuper) = options.xattrs := by
      rw [Bool.eq_false_iff.mpr hfake, Bool.or_false]
    rw [if_neg hfake, hxattrs]

theorem askedBy_daemonOptions : AskedBy cli direction (daemonOptions cli direction) := by
  unfold daemonOptions daemonRemoteShellOptionsFromCli
  dsimp only
  rw [fakeSuper_xattrs]
  cases direction <;> constructor <;> rfl

variable {cli direction daemonPath} {args : List Text} {t t₁ : DaemonTransferArgs} {s : Bool}

theorem daemonServerArgs_eq (hpublic : cli.secludedArgs = false)
    (h : daemonServerArgs cli direction daemonPath = .ok args) :
    args = ((daemonOptions cli direction).protocol31Argv [daemonPath.getD ['.']]).drop 1 := by
  obtain ⟨argv, hargv, h⟩ := except_bind_ok h
  obtain ⟨_, _, hargv⟩ := except_bind_ok hargv
  have hsecluded : (!(daemonOptions cli direction).secludedArgs) = true := by
    rw [(askedBy_daemonOptions cli direction).secludedArgs, hpublic]
    rfl
  rw [← Except.ok.inj h, ← Except.ok.inj hargv]
  exact congrArg (List.drop 1) (if_pos hsecluded)

/-- The daemon has read the options of this client in front of the short ones. -/
abbrev HasRead (cli : Cli) (direction : TransferDirection) (s : Bool) (t : DaemonTransferArgs) : Prop :=
  (daemonOptions cli direction).asked.foldlM (fun t option => option.apply t) { sender := s } = .ok t

theorem deleteMode_ne_none (delete : Bool) (mode : Fs.DeleteMode) :
    decide (remoteDeleteMode delete mode ≠ .none) = (delete || decide (mode ≠ .none)) := by
  cases delete <;> cases mode <;> rfl

theorem owner_iff (h : HasRead cli direction s t) :
    t.flistOptions.preserveOwner = cliPreserveOwner cli ↔
      (cliPreserveOwner cli = false → cli.userMaps = [] ∧
        ∀ value ∈ cli.chown, chownUser (trimStartMatches "--chown=".toList value) = []) := by
  have hasked := askedBy_daemonOptions cli direction
  rw [owner_read h, hasked.preserveOwner, hasked.userMaps, hasked.chown]
  cases cliPreserveOwner cli with
  | true => simp only [Bool.true_or, reduceCtorEq, false_implies]
  | false =>
      rw [Bool.false_or, Bool.or_eq_false_iff, Bool.not_eq_false', List.isEmpty_iff,
        List.any_eq_false]
      simp only [Option.mem_toList, Option.mem_def, decide_eq_true_eq, not_not, true_implies]

theorem group_iff (h : HasRead cli direction s t) :
    t.flistOptions.preserveGroup = cliPreserveGroup cli ↔
      (cliPreserveGroup cli = false → cli.groupMaps = [] ∧
        ∀ value ∈ cli.chown, chownGroup (trimStartMatches "--chown=".toList value) = []) := by
  have hasked := askedBy_daemonOptions cli direction
  rw [group_read h, hasked.preserveGroup, hasked.groupMaps, hasked.chown]
  cases cliPreserveGroup cli with
  | true => simp only [Bool.true_or, reduceCtorEq, false_implies]
  | false =>
      rw [Bool.false_or, Bool.or_eq_false_iff, Bool.not_eq_false', List.isEmpty_iff,
        List.any_eq_false]
      simp only [Option.mem_toList, Option.mem_def, decide_eq_true_eq, not_not, true_implies]

theorem checksum_iff (h : HasRead cli direction s t) :
    (t.updateMode = .checksum ↔ updateModeFromCli cli = .checksum) ↔
      (cli.checksum = true → if direction = .push then cli.sizeOnly = true → cli.ignoreTimes = true
        else cli.ignoreTimes = false) := by
  have hasked := askedBy_daemonOptions cli direction
  rw [updateMode_read h, hasked.checksum, hasked.sizeOnly, hasked.ignoreTimes]
  unfold updateModeFromCli
  cases direction <;> cases cli.checksum <;> cases cli.sizeOnly <;> cases cli.ignoreTimes <;>
    simp

/-- All of the form of a list but three fields is the same by itself. -/
theorem flist_iff (h : HasRead cli direction s t) :
    t.protocol31FlistOptions = daemonFlistOptions (wirePlanFromCli cli) ↔
      (t.updateMode = .checksum ↔ updateModeFromCli cli = .checksum) ∧
        t.flistOptions.preserveOwner = cliPreserveOwner cli ∧
        t.flistOptions.preserveGroup = cliPreserveGroup cli := by
  have hasked := askedBy_daemonOptions cli direction
  have hflags := flagsRead h
  have hxattrs : (t.flistOptions.xattrs || t.flistOptions.fakeSuper) =
      (cli.xattrs || cli.fakeSuper) := by
    rw [hflags.xattrs, hflags.fakeSuper, hasked.xattrs, hasked.fakeSuper]
    cases cli.xattrs <;> cases cli.fakeSuper <;> rfl
  have hinclude : (decide (t.updateMode = .checksum) = decide (updateModeFromCli cli = .checksum)) ↔
      (t.updateMode = .checksum ↔ updateModeFromCli cli = .checksum) := decide_eq_decide
  unfold protocol31FlistOptions daemonFlistOptions rsync31FileListOptionsFromPlan wirePlanFromCli
  dsimp only
  rw [Bool.not_true, if_neg Bool.false_ne_true, RsyncFileListOptions.mk.injEq, hinclude, hxattrs,
    hflags.numericIds, hasked.numericIds, hflags.acls, hasked.acls, hflags.fakeSuper,
    hasked.fakeSuper, hflags.atimes, hasked.atimes, hflags.crtimes, hasked.crtimes, Bool.true_and]
  simp only [and_true]

theorem fromChoice_remoteChoice (mode : RsyncDeflatedTokenMode) :
    RsyncDeflatedTokenMode.fromChoice
      (some (trimStartMatches "--compress-choice=".toList mode.remoteChoice)) = some mode := by
  cases mode <;> rfl

theorem compression_iff (h : HasRead cli direction s t) :
    (∃ config, RemoteCompressionConfig.forPlan (wirePlanFromCli cli) = .ok config ∧
      t.compression.map (·.mode) = config.map (·.mode)) ↔
    (cli.compress = false → cli.compressLevel = none ∧ cli.skipCompress = []) ∧
      (cli.compress = true → RsyncDeflatedTokenMode.fromChoice cli.compressChoice ≠ none) := by
  have hasked := askedBy_daemonOptions cli direction
  rw [mode_read h, hasked.compress, hasked.compressChoice, hasked.compressLevel, hasked.skipCompress,
    act_compressing (by decide), act_compressing (by decide)]
  unfold RemoteCompressionConfig.forPlan remoteCompressChoiceForArgv wirePlanFromCli
  dsimp only
  cases cli.compress with
  | false =>
      -- only `--compress-level` and `--skip-compress` can have turned it on
      simp only [Bool.not_false, if_true, true_implies, reduceCtorEq, false_implies, and_true,
        Except.ok.injEq, exists_eq_left', Option.map_none]
      cases cli.compressLevel <;> cases cli.skipCompress <;> simp [LongOption.act]
  | true =>
      simp only [Bool.not_true, Bool.false_eq_true, if_false, reduceCtorEq, false_implies, true_and,
        true_implies]
      cases hchoice : RsyncDeflatedTokenMode.fromChoice cli.compressChoice with
      | none => simp
      | some mode =>
          have hmode : (LongOption.values "--compress-choice=" (some mode.remoteChoice).toList).act
              modeBy ((LongOption.word true "--compress").act modeBy none) = some mode :=
            fromChoice_remoteChoice mode
          dsimp only
          rw [hmode]
          simp

/-- Secluded arguments never leave for a daemon: it is asked for the whole module. -/
theorem daemon_secluded (hsecluded : cli.secludedArgs = true)
    (hargs : daemonServerArgs cli direction daemonPath = .ok args) :
    DaemonTransferArgs.parse args = .ok { sender := decide (direction = .pull), paths := [['.']] } := by
  have hasked := askedBy_daemonOptions cli direction
  obtain ⟨argv, hargv, h⟩ := except_bind_ok hargs
  obtain ⟨_, _, hargv⟩ := except_bind_ok hargv
  have hpublic : argv = (daemonOptions cli direction).rsyncPath ::
      ((daemonOptions cli direction).serverArgs.flatMap (·.args) ++ ["-s".toList]) := by
    rw [← Except.ok.inj hargv]
    refine if_neg ?_
    rw [Bool.not_eq_true, Bool.not_eq_false']
    exact hasked.secludedArgs.trans hsecluded
  rw [← Except.ok.inj h, hpublic, serverArgs, hasked.way]
  cases direction <;> rfl

end Agreement

end RsyncWin
