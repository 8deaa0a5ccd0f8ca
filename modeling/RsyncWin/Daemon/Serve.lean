import RsyncWin.Daemon.Auth
import RsyncWin.Daemon.Transfer

/-!
# A connection to the daemon (`rsync-cli/src/daemon_server/mod.rs`)

`handle_client` from its greeting to the end of the transfer, as a program that
calls its surroundings: lines and arguments of the client, the clock, the
secrets file, the walk over a source, the look at a destination, and every
operation of a transfer. What the walk finds has names as entries of a directory
have them. Removing what is not listed is one call here. Logging is left out.
-/

namespace RsyncWin

open ByteString Codec Duplex

/-! ## Surroundings -/

/-- Names as a directory has them, at every level. -/
def Listing.Named : Listing → Prop
  | .nil => True
  | .file name _ rest => ValidName name ∧ rest.Named
  | .directory name _ children rest => ValidName name ∧ children.Named ∧ rest.Named

/-- What the walk finds at a path. -/
inductive FoundSource where
  | file (info : SourceMeta)
  | directory (info : SourceMeta) (children : Listing) (named : children.Named)

inductive DaemonOp where
  | readLine (maxLen : Nat)
  | readArgs (protocol : Nat)
  | writeLine (line : Text)
  /-- Nanoseconds since the epoch. -/
  | now
  | readSecrets (file : Text)
  /-- The walk over a source, with what decides the modes it records. -/
  | source (path : Bytes) (preserveExecutability : Bool) (chmodRules : Option ChmodRules)
  | destination (path : LocalPath)
  | deleteLocalExtras (dest : LocalPath) (entries : List RsyncFileListEntry) (rules : RuleSet)
      (dryRun : Bool)
  | transfer (o : Op localSig)

abbrev DaemonRet : DaemonOp → Type
  | .readLine _ => Except Error (Option Str)
  | .readArgs _ => Except Error (List Str)
  | .writeLine _ => Except Error Unit
  | .now => Nat
  | .readSecrets _ => Except Error Str
  | .source _ _ _ => Except Error FoundSource
  | .destination _ => DestinationFinds
  | .deleteLocalExtras _ _ _ _ => Except Error (List SyncAction)
  | .transfer o => Ret Error localSig o

abbrev daemonSig : Sig := ⟨DaemonOp, DaemonRet⟩

abbrev DaemonSession (α : Type) := Prog daemonSig Error α

/-- A stretch on the stream and the files. -/
def transferring {α : Type} (p : Session α) : DaemonSession α :=
  p.interp fun o => .call (.transfer o) .ret

/-- `read_daemon_line(...)?.context(closed)?`. -/
def expectLine (maxLen : Nat) (closed : String) : DaemonSession Str :=
  .call (.readLine maxLen) fun
    | .ok (some line) => pure line
    | .ok none => throw (.other closed)
    | .error e => throw e

/-- `writeln!` and `flush`. -/
def sayLine (line : Text) : DaemonSession Unit := .call (.writeLine line) Prog.ofExcept

/-! ## The greeting of the client -/

def splitWhitespace (text : Text) : List Text := (text.splitOnP isWhitespace).filter (· ≠ [])

def greetingStart : Text := "@RSYNCD: ".toList

def greetingFields (line : Text) : Except Error (List Text) :=
  match stripPrefix greetingStart line with
  | some fields => .ok (splitWhitespace fields)
  | none => .error (.other "invalid daemon client greeting")

def protocolOfVersion (version : Text) : Except Error Nat :=
  let major := ((splitOnce (· = '.') version).map (·.1)).getD version
  match Numeral.parseUnsigned 10 4294967295 major with
  | some protocol => .ok protocol
  | none => .error (.other s!"invalid daemon client protocol version `{String.ofList version}`")

def parseClientGreetingProtocol (line : Text) : Except Error Nat := do
  let fields ← greetingFields line
  match fields with
  | [] => .error (.other "daemon client greeting omitted protocol version")
  | version :: _ => protocolOfVersion version

def daemonAuthChecksumFromClientGreeting (line : Text) : Except Error DaemonAuthChecksum := do
  let fields ← greetingFields line
  if fields.tail.contains "md5".toList then .ok .md5
  else if fields.tail.contains "md4".toList then .ok .md4
  else do
    let protocol ← parseClientGreetingProtocol line
    .ok (if protocol ≥ 30 then .md5 else .md4)

/-! ## Secrets -/

def invalidSecret (moduleName : Text) (lineNumber : Nat) : Error :=
  .other (s!"daemon secrets file for module `{String.ofList moduleName}` contains invalid entry " ++
    s!"at line {lineNumber}")

/-- The loop over the lines from `lineNumber` on. -/
def parseSecretLines (moduleName : Text) : Nat → List Text → Except Error (List (Text × Text))
  | _, [] => .ok []
  | lineNumber, rawLine :: rawLines =>
      let line := (rawLine.reverse.dropWhile (· = '\r')).reverse
      if trim line = [] ∨ (trimStart line).head? = some '#' then
        parseSecretLines moduleName (lineNumber + 1) rawLines
      else
        match splitOnce (· = ':') line with
        | none => .error (invalidSecret moduleName lineNumber)
        | some (user, password) =>
            if trim user = [] ∨ (trim user).contains '\x00' ∨ password.contains '\x00' then
              .error (invalidSecret moduleName lineNumber)
            else do
              let entries ← parseSecretLines moduleName (lineNumber + 1) rawLines
              .ok ((trim user, password) :: entries)

def parseDaemonSecrets (moduleName text : Text) : Except Error (List (Text × Text)) :=
  parseSecretLines moduleName 1 (linesOf [] text)

def readDaemonSecrets (module : DaemonServerModule) : DaemonSession (List (Text × Text)) :=
  match module.secretsFile with
  | none => throw (.other "daemon module requires auth but has no secrets file")
  | some path => .call (.readSecrets path) fun
      | .ok text => Prog.ofExcept (parseDaemonSecrets module.name text.chars)
      | .error _ => throw (.other
          s!"failed to read daemon secrets file for module `{String.ofList module.name}`")

/-! ## Logging in -/

/-- FNV-1a over the name of the module and the client. -/
def stableAuthChallengeSuffix (module : Text) (client : Option Text) : UInt64 :=
  (utf8Encode module ++ utf8Encode (client.getD ['-'])).foldl
    (fun hash byte => (hash ^^^ byte.toUInt64) * 0x100000001b3) 0xcbf29ce484222325

def daemonAuthChallenge (processId nanos : Nat) (module : Text) (client : Option Text) : Text :=
  Nat.toDigits 16 nanos ++ '.' :: Nat.toDigits 16 processId ++
    '.' :: Nat.toDigits 10 (stableAuthChallengeSuffix module client).toNat

/-- A string of the characters. -/
def strOf (text : Text) : Str := ⟨utf8Encode text, by rw [utf8Chars_utf8Encode]; rfl⟩

section Connection

variable (platform : Platform) (fuels : Fuels) (noMotd : Bool) (config : DaemonServerConfig)
  (client : Option Text)

/-- The answer against the first password of the user. -/
def answerFits (checksum : DaemonAuthChecksum) (challenge user answer : Text)
    (secrets : List (Text × Text)) : Except Error Bool :=
  match secrets.find? fun secret => secret.1 = user with
  | none => .ok false
  | some (_, password) => daemonAuthResponseMatches platform.hashes.md4.digest
      platform.hashes.md5.digest (strOf password) (strOf challenge) checksum (strOf answer)

def daemonAuthResponseIsValid (module : DaemonServerModule) (responseLine challenge : Text)
    (checksum : DaemonAuthChecksum) : DaemonSession Bool :=
  match splitOnce (· = ' ') responseLine with
  | none => pure false
  | some (user, answer) =>
      if trim user = [] ∨ (trim user).contains '\x00' ∨ module.authUsers.contains (trim user) = false
      then pure false
      else do
        let secrets ← readDaemonSecrets module
        Prog.ofExcept (answerFits platform checksum challenge (trim user) answer secrets)

def okLine : Text := "@RSYNCD: OK".toList

def authReqdLine (challenge : Text) : Text := "@RSYNCD: AUTHREQD ".toList ++ challenge

def authenticateDaemonClient (module : DaemonServerModule) (checksum : DaemonAuthChecksum) :
    DaemonSession Unit :=
  .call .now fun nanos => do
    let challenge := daemonAuthChallenge platform.processId nanos module.name client
    sayLine (authReqdLine challenge)
    let response ← expectLine 8192 "daemon client closed before auth response"
    let valid ← daemonAuthResponseIsValid platform module response.chars challenge checksum
    if valid then sayLine okLine
    else do
      sayLine ("@ERROR: daemon authentication failed for module '".toList ++ module.name ++ ['\''])
      throw (.other s!"daemon authentication failed for module `{String.ofList module.name}`")

def logIn (module : DaemonServerModule) (checksum : DaemonAuthChecksum) : DaemonSession Unit :=
  if module.authUsers = [] then sayLine okLine
  else authenticateDaemonClient platform client module checksum

/-! ## Serving -/

/-- The setup behind the text lines: no compatibility flags, no checksum seed. -/
def sendProtocol31Setup : Session Unit := do
  toRaw (writeVarint 0)
  toRaw (writeI32Le 0)

def DaemonTransferArgs.collectOptions (transfer : DaemonTransferArgs) :
    LocalSourceCollectOptions where
  recursive := transfer.recursive
  includeChecksums := decide (transfer.updateMode = .checksum)
  skipped := remoteSourcePathIsFiltered transfer.filterRules

def missingFileName (path : Bytes) : Error :=
  .other s!"source has no file name: {fromUtf8Lossy path}"

/-- A single operand is its contents. -/
def singleSourceEntries (options : LocalSourceCollectOptions) (path : Bytes) :
    FoundSource → Except Error (List RemoteSourceEntry)
  | .file info =>
      match LocalPath.fileName (components path) with
      | none => .error (.other "source file is missing a file name")
      | some name => .ok (collectSingleLocalSourceEntries options (.file path name info))
  | .directory info children _ =>
      .ok (collectSingleLocalSourceEntries options (.directory path info children))

/-- One operand of several is listed under its own name. -/
def batchSourceEntries (options : LocalSourceCollectOptions) (path name : Bytes) :
    FoundSource → List RemoteSourceEntry
  | .file info =>
      if options.skipped name .file then [] else [sourceEntry options name path .file info]
  | .directory info children _ =>
      if options.skipped name .directory then []
      else sourceEntry options name path .directory info ::
        (if options.recursive then collectLocalDirectorySourceEntries options path name children
        else [])

/-- The walk over one operand. -/
def findSource (transfer : DaemonTransferArgs) (path : Bytes) : DaemonSession FoundSource :=
  .call (.source path transfer.preserveExecutability transfer.chmodRules) Prog.ofExcept

def collectBatchLocalSourceEntries (transfer : DaemonTransferArgs) :
    List Bytes → DaemonSession (List RemoteSourceEntry)
  | [] => pure []
  | path :: paths =>
      match LocalPath.fileName (components path) with
      | none => throw (missingFileName path)
      | some name => do
          let found ← findSource transfer path
          let entries ← collectBatchLocalSourceEntries transfer paths
          pure (batchSourceEntries transfer.collectOptions path name found ++ entries)

def collectDaemonSourceEntries (transfer : DaemonTransferArgs) (sources : List Bytes) :
    DaemonSession (List RemoteSourceEntry) := do
  let entries ← (match sources with
    | [path] => do
        let found ← findSource transfer path
        Prog.ofExcept (singleSourceEntries transfer.collectOptions path found)
    | _ => collectBatchLocalSourceEntries transfer sources)
  pure (sortBy (fun left right => comparePath left.wire.path right.wire.path) entries)

def serveDaemonSenderProtocol31 (module : DaemonServerModule) (transfer : DaemonTransferArgs) :
    DaemonSession Unit := do
  transferring sendProtocol31Setup
  let initial ← transferring (onMux readI32Le)
  if initial ≠ 0 then
    throw (.other s!"daemon receiver sent unexpected initial protocol 31 marker {initial}")
  else do
    let sources ← Prog.ofExcept (transfer.modulePaths module)
    let entries ← collectDaemonSourceEntries transfer sources
    transferring (toMux (writeRsync31FileListBatches transfer.protocol31FlistOptions
      [entries.map (·.wire)]))
    transferring (serveDaemonSenderRequestsProtocol31 platform.flate platform.hashes entries
      transfer.dryRun transfer.compression fuels.answers)

def DaemonTransferArgs.settings (transfer : DaemonTransferArgs) (dest : LocalPath) :
    PullSettings where
  plan := { remoteDirection := none, remoteOperands := [], filterRules := transfer.filterRules }
  dest
  updateMode := transfer.updateMode
  dryRun := transfer.dryRun
  wholeFile := transfer.wholeFile
  preserveTimes := transfer.preserveTimes
  appendVerify := transfer.appendVerify
  writeMode := transfer.writeMode
  fileListOptions := transfer.protocol31FlistOptions
  blockSize := transfer.blockSize
  checksum := .plainMd4
  finalChecksum := .plainMd4
  compression := transfer.compression.map (·.mode)

def awaitDeleteMarker (transfer : DaemonTransferArgs) : Session Unit :=
  if transfer.delete = false then pure ()
  else do
    let marker ← onMux readI32Le
    if marker ≠ 0 then throw (.other s!"daemon sender sent unexpected delete marker {marker}")
    else pure ()

def deleteExtras (transfer : DaemonTransferArgs) (dest : LocalPath)
    (selected : List RsyncFileListEntry) : DaemonSession Unit :=
  if transfer.delete = false then pure ()
  else .call (.deleteLocalExtras dest selected transfer.filterRules transfer.dryRun) fun
    | .ok _ => pure ()
    | .error e => throw e

/-- From a list whose paths have been looked at. -/
def receiveListed (transfer : DaemonTransferArgs) (dest : LocalPath)
    (entries : List RsyncFileListEntry) : DaemonSession Unit := do
  let settings := transfer.settings dest
  let selectedIndexes := selectedRemoteEntryIndexes entries transfer.filterRules none
  let selectedEntries := selectedRemoteEntries entries selectedIndexes
  Prog.ofExcept (windowsDestinationPathPreflight platform (destinationRelatives selectedEntries))
  .call (.destination dest) fun finds => do
    let _created ← transferring (createDestination settings finds)
    let transferIndexes ← Prog.ofExcept (selectedRemoteTransferIndexes (finds.view 0) dest
      selectedIndexes settings.updateMode entries.zipIdx)
    deleteExtras transfer dest selectedEntries
    let _directories ← transferring (createListedDirectories settings selectedEntries)
    let _received ← transferring (receivePushedFiles platform.flate platform.hashes
      (settings.request entries transferIndexes) (settings.receiveContext platform entries)
      fuels.chunks fuels.answers)
    pure ()

/-- The daemon believes its client's list and looks at the paths only. -/
def serveDaemonReceiverProtocol31 (module : DaemonServerModule) (transfer : DaemonTransferArgs) :
    DaemonSession Unit := do
  transferring sendProtocol31Setup
  let paths ← Prog.ofExcept (transfer.modulePaths module)
  match paths with
  | [] => throw (.other "daemon push requires a module destination path")
  | path :: _ => do
      let settings := transfer.settings (components path)
      transferring (awaitDeleteMarker transfer)
      let entries ← transferring (readListOnMux settings fuels)
      let entries := sortRemoteEntriesForSenderIndexes entries
      Prog.ofExcept (validateRemoteFileListPaths platform entries)
      receiveListed platform fuels transfer (components path) entries

/-! ## The connection -/

def moduleLine (module : DaemonServerModule) : Text := module.name ++ '\t' :: module.comment

def writeModuleList : DaemonSession Unit := do
  if noMotd then pure () else sayLine "rsync-win daemon".toList
  (config.modules.filter (·.list)).forM fun module => sayLine (moduleLine module)
  sayLine "@RSYNCD: EXIT".toList

def serveTransfer (module : DaemonServerModule) (protocol : Nat) (transfer : DaemonTransferArgs) :
    DaemonSession Unit :=
  if protocol < 31 then
    sayLine "@ERROR: rsync-win daemon server requires protocol 31 for transfers".toList
  else if !transfer.sender && module.readOnly then
    sayLine ("@ERROR: module '".toList ++ module.name ++ "' is read only".toList)
  else if transfer.sender && module.writeOnly then
    sayLine ("@ERROR: module '".toList ++ module.name ++ "' is write only".toList)
  else if transfer.sender then serveDaemonSenderProtocol31 platform fuels module transfer
  else serveDaemonReceiverProtocol31 platform fuels module transfer

def serveModule (module : DaemonServerModule) (protocol : Nat) (checksum : DaemonAuthChecksum) :
    DaemonSession Unit := do
  logIn platform client module checksum
  .call (.readArgs protocol) fun
    | .error e => throw e
    | .ok args => do
        let transfer ← Prog.ofExcept (DaemonTransferArgs.parse (args.map Str.chars))
        serveTransfer platform fuels module protocol transfer

def daemonGreeting : Text := "@RSYNCD: 31.0 md5 md4".toList

def DaemonServerConfig.find (name : Text) : Option DaemonServerModule :=
  config.modules.find? fun module => module.name = name

def answerClient (protocol : Nat) (checksum : DaemonAuthChecksum) (request : Text) :
    DaemonSession Unit :=
  if request = "#list".toList then writeModuleList noMotd config
  else
    match config.find request with
    | none => sayLine ("@ERROR: Unknown module '".toList ++ request ++ ['\''])
    | some module => serveModule platform fuels client module protocol checksum

def handleClient : DaemonSession Unit := do
  sayLine daemonGreeting
  let greeting ← expectLine 1024 "client closed before greeting"
  if greetingStart.isPrefixOf greeting.chars = false then
    throw (.other s!"invalid daemon client greeting `{String.ofList greeting.chars}`")
  else do
    let protocol ← Prog.ofExcept (parseClientGreetingProtocol greeting.chars)
    let checksum ← Prog.ofExcept (daemonAuthChecksumFromClientGreeting greeting.chars)
    let request ← expectLine 8192 "client closed before request"
    answerClient platform fuels noMotd config client protocol checksum request.chars

end Connection

end RsyncWin
