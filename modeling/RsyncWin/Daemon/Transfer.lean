import RsyncWin.Core.Chmod
import RsyncWin.Remote.Pull
import RsyncWin.Winfs.Sidecar

/-!
# What a client asks of the daemon (`rsync-cli/src/daemon_server/mod.rs`)

The arguments behind the login: options up to a dot, paths behind it. Words the
daemon does not know are ignored. The arms of the option match are two tables
here, of whole words and of prefixes, tried in that order; what is left and
starts with a dash is a row of short flags.
-/

namespace RsyncWin

open ByteString

/-! ## Text -/

/-- `trim_start_matches(start)`: as often as it stands there; the counter is the length. -/
def trimStartTimes (start : Text) : Nat → Text → Text
  | 0, text => text
  | n + 1, text => if start.isPrefixOf text then trimStartTimes start n (text.drop start.length)
      else text

def trimStartMatches (start text : Text) : Text := trimStartTimes start text.length text

def asciiLowercase (text : Text) : Text := text.map Char.toLower

def parsePositiveUsize (value : Text) : Except Error Nat :=
  match (Numeral.parseUnsigned 10 usizeMax value).filter (0 < ·) with
  | some n => .ok n
  | none => .error
      (.other s!"daemon numeric option must be greater than zero: `{String.ofList value}`")

/-! ## Modules -/

structure DaemonServerModule where
  name : Text
  path : Text := []
  comment : Text := []
  readOnly : Bool := true
  writeOnly : Bool := false
  list : Bool := true
  authUsers : List Text := []
  secretsFile : Option Text := none
  uid : Option Text := none
  gid : Option Text := none
deriving DecidableEq

structure DaemonServerConfig where
  modules : List DaemonServerModule
deriving DecidableEq

/-- `PathBuf::from(text)`. -/
def DaemonServerModule.root (module : DaemonServerModule) : Bytes := utf8Encode module.path

/-! ## Paths of a module -/

def unsafeModulePath (module : DaemonServerModule) (path : Text) : Error :=
  .other s!"daemon module `{String.ofList module.name}` rejects unsafe path `{String.ofList path}`"

/-- The loop over the components; `none` is a component that leads elsewhere. -/
def cleanNames : List Component → Option (List Bytes)
  | [] => some []
  | .normal name :: rest => (cleanNames rest).map (name :: ·)
  | .curDir :: rest => cleanNames rest
  | .parentDir :: _ => none
  | .rootDir :: _ => none

def modulePath (module : DaemonServerModule) (path : Text) : Except Error Bytes :=
  let trimmed := trim path
  if trimmed = [] ∨ trimmed = ['.'] then .ok module.root
  else
    match cleanNames (components (utf8Encode trimmed)) with
    | none => .error (unsafeModulePath module path)
    | some [] => .ok module.root
    | some clean => .ok (pathJoin module.root (joinNames clean))

/-! ## Arguments -/

structure DaemonTransferArgs where
  sender : Bool := false
  paths : List Text := []
  recursive : Bool := false
  dryRun : Bool := false
  wholeFile : Bool := false
  preserveTimes : Bool := false
  updateMode : Fs.UpdateMode := .quickCheck
  appendVerify : Bool := false
  writeMode : FileWriteMode := .atomic
  blockSize : Nat := 32 * 1024
  filterRules : RuleSet := {}
  flistOptions : RsyncFileListOptions := {}
  preserveExecutability : Bool := false
  chmodRules : Option ChmodRules := none
  compression : Option RemoteCompressionConfig := none
  delete : Bool := false

namespace DaemonTransferArgs

variable (t : DaemonTransferArgs)

def flist (set : RsyncFileListOptions → RsyncFileListOptions) : DaemonTransferArgs :=
  { t with flistOptions := set t.flistOptions }

/-- `compression.get_or_insert(...)`, changed. -/
def compressing (fresh : RemoteCompressionConfig)
    (set : RemoteCompressionConfig → RemoteCompressionConfig) : DaemonTransferArgs :=
  { t with compression := some (set (t.compression.getD fresh)) }

def defaultCompression (mode : RsyncDeflatedTokenMode) : RemoteCompressionConfig :=
  ⟨mode, 6, []⟩

def ensureCompression : DaemonTransferArgs := t.compressing (defaultCompression .zlibx) id

def pushRule (context : String) (rule : Except ParseRuleError Rule) :
    Except Error DaemonTransferArgs :=
  match rule with
  | .ok rule => .ok { t with filterRules := t.filterRules.push rule }
  | .error _ => .error (.other context)

/-- `RsyncDeflatedTokenMode::from_choice(Some(value))`. -/
def compressChoice (value : Text) : Except Error DaemonTransferArgs :=
  let choice := asciiLowercase (trim value)
  if choice = "zlibx".toList then
    .ok (t.compressing (defaultCompression .zlibx) fun config => { config with mode := .zlibx })
  else if choice = "zlib".toList then
    .ok (t.compressing (defaultCompression .zlib) fun config => { config with mode := .zlib })
  else .error (.other "unsupported daemon compression choice")

def compressLevel (value : Text) : Except Error DaemonTransferArgs := do
  let level ← parsePositiveUsize value
  .ok (t.compressing (defaultCompression .zlibx) fun config =>
    { config with level := min (if level > 4294967295 then 9 else level) 9 })

def skipCompress (value : Text) : DaemonTransferArgs :=
  let suffixes := ((value.splitOn '/').map trim).filter (· ≠ [])
  t.compressing (defaultCompression .zlibx) fun config =>
    { config with skipSuffixes := config.skipSuffixes ++ suffixes }

def chown (value : Text) : DaemonTransferArgs :=
  let (user, group) := (splitOnce (· = ':') value).getD (value, [])
  t.flist fun options =>
    { options with
      preserveOwner := options.preserveOwner || decide (user ≠ [])
      preserveGroup := options.preserveGroup || decide (group ≠ []) }

def chmod (value : Text) : Except Error DaemonTransferArgs :=
  match ChmodRules.parse value with
  | .ok rules => .ok { t with chmodRules := some rules }
  | .error _ => .error (.other "invalid daemon chmod rule")

def withBlockSize (value : Text) : Except Error DaemonTransferArgs := do
  let blockSize ← parsePositiveUsize value
  .ok { t with blockSize }

/-- The arms of the match on whole words. -/
def wordOptions : List (String × (DaemonTransferArgs → DaemonTransferArgs)) :=
  [("--server", id),
   ("--sender", id),
   ("--no-inc-recursive", id),
   ("--recursive", fun t => { t with recursive := true }),
   ("--dry-run", fun t => { t with dryRun := true }),
   ("--whole-file", fun t => { t with wholeFile := true }),
   ("--times", fun t => { t with preserveTimes := true }),
   ("--checksum", fun t => { t with updateMode := .checksum }),
   ("--size-only", fun t => { t with updateMode := .sizeOnly }),
   ("--ignore-times", fun t => { t with updateMode := .ignoreTimes }),
   ("--append-verify", fun t => { t with appendVerify := true }),
   ("--inplace", fun t => { t with writeMode := .inPlace }),
   ("--perms", id),
   ("--executability", fun t => { t with preserveExecutability := true }),
   ("--owner", fun t => t.flist fun options => { options with preserveOwner := true }),
   ("--group", fun t => t.flist fun options => { options with preserveGroup := true }),
   ("--numeric-ids", fun t => t.flist fun options => { options with numericIds := true }),
   ("--acls", fun t => t.flist fun options => { options with acls := true }),
   ("--xattrs", fun t => t.flist fun options => { options with xattrs := true }),
   ("--fake-super", fun t => t.flist fun options =>
      { options with fakeSuper := true, xattrs := true }),
   ("--atimes", fun t => t.flist fun options => { options with atimes := true }),
   ("--crtimes", fun t => t.flist fun options => { options with crtimes := true }),
   ("--omit-dir-times", id),
   ("--omit-link-times", id),
   ("--delete", fun t => { t with delete := true }),
   ("--delete-before", fun t => { t with delete := true }),
   ("--delete-during", fun t => { t with delete := true }),
   ("--delete-delay", fun t => { t with delete := true }),
   ("--delete-after", fun t => { t with delete := true }),
   ("--compress", ensureCompression),
   ("-z", ensureCompression)]

/-- The arms that are guarded by a prefix; what stands behind it is their value. -/
def valueOptions : List (String × (DaemonTransferArgs → Text → Except Error DaemonTransferArgs)) :=
  [("--include=", fun t value => t.pushRule "invalid daemon include rule" (Rule.new .include value)),
   ("--exclude=", fun t value => t.pushRule "invalid daemon exclude rule" (Rule.new .exclude value)),
   ("--filter=", fun t value => t.pushRule "invalid daemon filter rule" (Rule.parseFilter value)),
   ("--chmod=", chmod),
   ("--usermap=", fun t _ => .ok (t.flist fun options => { options with preserveOwner := true })),
   ("--groupmap=", fun t _ => .ok (t.flist fun options => { options with preserveGroup := true })),
   ("--chown=", fun t value => .ok (t.chown value)),
   ("--block-size=", withBlockSize),
   ("--compress-choice=", compressChoice),
   ("--compress-level=", compressLevel),
   ("--skip-compress=", fun t value => .ok (t.skipCompress value))]

def applyShortFlag (flag : Char) : DaemonTransferArgs :=
  if flag = 'r' then { t with recursive := true }
  else if flag = 'n' then { t with dryRun := true }
  else if flag = 'W' then { t with wholeFile := true }
  else if flag = 't' then { t with preserveTimes := true }
  else if flag = 'c' then { t with updateMode := .checksum }
  else if flag = 'z' then t.ensureCompression
  else t

def applyShortFlags (arg : Text) : DaemonTransferArgs :=
  if ['-'].isPrefixOf arg = false ∨ ['-', '-'].isPrefixOf arg then t
  else (arg.dropWhile (· = '-')).foldl applyShortFlag t

def applyOptionArg (arg : Text) : Except Error DaemonTransferArgs :=
  match wordOptions.find? fun option => option.1.toList = arg with
  | some option => .ok (option.2 t)
  | none =>
      match valueOptions.find? fun option => option.1.toList.isPrefixOf arg with
      | some option => option.2 t (trimStartMatches option.1.toList arg)
      | none => if ['-'].isPrefixOf arg then .ok (t.applyShortFlags arg) else .ok t

/-- The loop: options up to the first dot, then paths. -/
def applyArgs : DaemonTransferArgs → List Text → Except Error DaemonTransferArgs
  | t, [] => .ok t
  | t, arg :: args =>
      if arg = ['.'] then .ok { t with paths := t.paths ++ args }
      else do
        let t ← t.applyOptionArg arg
        applyArgs t args

def parse (args : List Text) : Except Error DaemonTransferArgs :=
  if "--server".toList ∉ args then .error (.other "daemon transfer args are missing --server")
  else do
    let t ← applyArgs { sender := decide ("--sender".toList ∈ args) } args
    .ok (if t.paths = [] then { t with paths := [['.']] } else t)

def protocol31FlistOptions : RsyncFileListOptions :=
  { t.flistOptions with
    includeChecksums := decide (t.updateMode = .checksum)
    xattrs := t.flistOptions.xattrs || t.flistOptions.fakeSuper }

def modulePaths (module : DaemonServerModule) : Except Error (List Bytes) :=
  t.paths.mapM (modulePath module)

end DaemonTransferArgs

end RsyncWin
