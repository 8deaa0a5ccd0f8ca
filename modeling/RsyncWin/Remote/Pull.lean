import RsyncWin.Protocol.Flist27
import RsyncWin.Remote.EntryBatches
import RsyncWin.Remote.SenderClaims
import RsyncWin.Remote.Serve
import RsyncWin.Winfs.Preflight

/-!
# Pulling (`rsync-cli/src/remote/pull.rs`)

A whole session of the receiving side from its first marker to its last, as it
is for each of its three peers: a sender of the modern protocol, one that sends
its list in pieces while files are under way, and one of protocol 27. What the
destination looks like while files are selected is decided by the environment,
once for each list that comes in. Removing what is not listed (`--delete`) has a
model of its own and is no part of these sessions, nor are the reports.
-/

namespace RsyncWin

open ByteString Codec Duplex

/-! ## Checks on a received list -/

def WindowsPathError.message : WindowsPathError → String
  | .notPortable path => s!"path must be relative and portable: {fromUtf8Lossy path}"
  | .emptyComponent => "empty path component is not valid"
  | .invalidCharacter component character =>
      s!"path component `{String.ofList component}` contains invalid Windows character `{character}`"
  | .reservedName component =>
      s!"path component `{String.ofList component}` is a reserved Windows device name"
  | .trailingSpaceOrDot component =>
      s!"path component `{String.ofList component}` ends with a space or dot"
  | .collision first second =>
      s!"case/normalization collision between `{fromUtf8Lossy first}` and `{fromUtf8Lossy second}`"

/-- What the running system has to offer: the two text functions of the preflight, the overhead of
an entry, a process id and the sizes that bound a run. -/
structure Platform where
  nfc : List Char → List Char
  toLowercase : Char → List Char
  entryOverhead : Nat
  processId : Nat
  flate : Flate
  hashes : Hashes

section Checks

variable (platform : Platform)

def windowsDestinationPathPreflight (paths : List Bytes) : Except Error Unit :=
  (preflightDestinationPaths platform.nfc platform.toLowercase paths).mapError fun err =>
    .other s!"destination path preflight failed: {err.message}"

def destinationRelatives (entries : List RsyncFileListEntry) : List Bytes :=
  (entries.filter fun entry => !remoteEntryIsTopDir entry).map (·.path)

def validateRemoteFileListPaths (entries : List RsyncFileListEntry) : Except Error Unit :=
  windowsDestinationPathPreflight platform (destinationRelatives entries)

/-- The loop of `check_rsync_file_list_budget`. -/
def checkListBudget (maxAlloc : Option Nat) : Nat → List RsyncFileListEntry → Except Error Unit
  | _, [] => .ok ()
  | total, entry :: entries => do
      let total := total + estimatedFileListEntryAlloc platform.entryOverhead entry
      if total > usizeMax then
        .error (.io .invalidData "file-list allocation estimate overflow")
      else do
        allocationBudgetCheck maxAlloc "file-list entries" total
        checkListBudget maxAlloc total entries

def checkRsyncFileListBudget (entries : List RsyncFileListEntry) (maxAlloc : Option Nat) :
    Except Error Unit :=
  checkListBudget platform maxAlloc 0 entries

end Checks

def selectedRemoteEntries (entries : List RsyncFileListEntry) (selectedIndexes : List Nat) :
    List RsyncFileListEntry :=
  (entries.zipIdx.filter fun p => selectedIndexes.contains p.2).map (·.1)

/-! ## Settings -/

/-- What the plan, the operands and the handshake have fixed when a session begins. -/
structure PullSettings where
  plan : TransferPlan
  dest : LocalPath
  filesFrom : Option (List Bytes) := none
  updateMode : Fs.UpdateMode := .quickCheck
  dryRun : Bool := false
  wholeFile : Bool := false
  preserveTimes : Bool := false
  appendVerify : Bool := false
  writeMode : FileWriteMode := .atomic
  fileListOptions : RsyncFileListOptions := {}
  blockSize : Nat
  checksum : RemoteFileChecksum
  finalChecksum : RemoteFinalChecksum
  compression : Option RsyncDeflatedTokenMode := none
  maxAlloc : Option Nat := none
  stopDeadline : Option Nat := none

/-- The destination as it is found. -/
structure DestinationFinds where
  destExists : Bool
  /-- For each list that comes in, what is seen of the targets. -/
  view : Nat → DestinationView

/-- Bounds of the loops. -/
structure Fuels where
  idLists : Nat
  chunks : Nat
  answers : Nat

section Pull

variable (platform : Platform) (s : PullSettings) (finds : DestinationFinds) (fuels : Fuels)

def PullSettings.request (entries : List RsyncFileListEntry) (selectedIndexes : List Nat) :
    RemoteSenderFileRequest where
  entries
  selectedIndexes
  dryRun := s.dryRun
  dest := s.dest
  blockSize := s.blockSize
  wholeFile := s.wholeFile
  checksum := s.checksum
  maxAlloc := s.maxAlloc
  stopDeadline := s.stopDeadline

def PullSettings.receiveContext (entries : List RsyncFileListEntry) : RemoteReceiveContext where
  dest := s.dest
  entries
  finalChecksum := s.finalChecksum
  dryRun := s.dryRun
  preserveTimes := s.preserveTimes
  writeMode := s.writeMode
  appendVerify := s.appendVerify
  compression := s.compression
  maxAlloc := s.maxAlloc
  stopDeadline := s.stopDeadline
  processId := platform.processId

/-! ## Preparing the destination -/

def createDirUnlessDry (path : LocalPath) : Session SyncAction := do
  if s.dryRun then pure (.createDir path)
  else do
    perform (.createDirAll path)
    pure (.createDir path)

def createDestination : Session (List SyncAction) :=
  if finds.destExists then pure []
  else do
    let action ← createDirUnlessDry s s.dest
    pure [action]

def createListedDirectories : List RsyncFileListEntry → Session (List SyncAction)
  | [] => pure []
  | entry :: entries =>
      if remoteEntryIsTopDir entry || decide (entry.fileType ≠ .directory) then
        createListedDirectories entries
      else do
        let action ← createDirUnlessDry s (s.dest.join entry.path)
        let actions ← createListedDirectories entries
        pure (action :: actions)

/-- The checks on a list that all clients make before they look at the destination. -/
def acceptList (entries : List RsyncFileListEntry) : Except Error (List RsyncFileListEntry) := do
  checkRsyncFileListBudget platform entries s.maxAlloc
  let entries := sortRemoteEntriesForSenderIndexes entries
  validateRemoteFileListPaths platform entries
  validateRemoteSenderClaims s.plan entries s.filesFrom
  pure entries

/-- From an accepted list to the indices that are asked for. -/
def prepareTransfer (entries : List RsyncFileListEntry) : Session (List SyncAction × List Nat) := do
  let selectedIndexes := selectedRemoteEntryIndexes entries s.plan.filterRules s.filesFrom
  let selectedEntries := selectedRemoteEntries entries selectedIndexes
  Prog.ofExcept (windowsDestinationPathPreflight platform (destinationRelatives selectedEntries))
  let created ← createDestination s finds
  let transferIndexes ← Prog.ofExcept (selectedRemoteTransferIndexes (finds.view 0) s.dest
    selectedIndexes s.updateMode entries.zipIdx)
  let directories ← createListedDirectories s selectedEntries
  pure (created ++ directories, transferIndexes)

def Received.after (r : Received) (actions : List SyncAction) : Received :=
  { r with actions := actions ++ r.actions }

/-! ## The modern protocol -/

def readListOnMux : Session (List RsyncFileListEntry) :=
  onMux (readRsync31FileListWithMetadata fuels.idLists defaultMaxFileListEntries
    defaultMaxFileListPathLen s.fileListOptions)

def executeRemotePullProtocol31WithHandshake : Session Received := do
  toMux (writeI32Le 0)
  let entries ← readListOnMux s fuels
  let entries ← Prog.ofExcept (acceptList platform s entries)
  let (actions, transferIndexes) ← prepareTransfer platform s finds entries
  let received ← pullFiles platform.flate platform.hashes (s.request entries transferIndexes)
    (s.receiveContext platform entries) fuels.chunks fuels.answers
  pure (received.after actions)

/-! ## Lists in pieces -/

/-- `batchSelected` is the increasing list of what the batch adds. -/
def requestRemotePullIncrementalBatchProtocol31 (entries : List RsyncFileListEntry)
    (batchStart batch : Nat) (r : RequestState) : Session (List SyncAction × RequestState) := do
  let batchSelectedIndexes :=
    (selectedRemoteEntryIndexes entries s.plan.filterRules s.filesFrom).filter (batchStart ≤ ·)
  let directories ← createListedDirectories s (selectedRemoteEntries entries batchSelectedIndexes)
  let transferIndexes ← Prog.ofExcept (selectedRemoteTransferIndexes (finds.view batch) s.dest
    batchSelectedIndexes s.updateMode entries.zipIdx)
  let r ← requestRemoteSenderFileIndexesProtocol31 platform.hashes
    (s.request entries transferIndexes) r
  let indexState ← writeRsync31Index r.indexState rsyncIndexDone
  pure (directories, { r with indexState })

/-- What the loop over the answers carries. -/
structure IncrementalState where
  entries : List RsyncFileListEntry
  batch : Nat := 0
  readIndexState : RsyncIndexState := {}
  requests : RequestState := {}
  received : Received := {}

/-- The checks on a list that has grown. -/
def acceptExtra (entries extra : List RsyncFileListEntry) :
    Except Error (List RsyncFileListEntry) := do
  let extra := sortRemoteEntriesForSenderIndexes extra
  let grown := entries ++ extra
  checkRsyncFileListBudget platform grown s.maxAlloc
  validateRemoteFileListPaths platform grown
  validateRemoteSenderClaims s.plan extra s.filesFrom
  pure grown

def takeExtraFileList (extra : List RsyncFileListEntry) (st : IncrementalState) :
    Session IncrementalState := do
  let entries ← Prog.ofExcept (acceptExtra platform s st.entries extra)
  let (actions, requests) ← requestRemotePullIncrementalBatchProtocol31 platform s finds entries
    st.entries.length (st.batch + 1) st.requests
  pure { st with
    entries, requests
    batch := st.batch + 1
    received := { st.received with actions := st.received.actions ++ actions } }

def receiveIncremental : Nat → IncrementalState → Session IncrementalState
  | 0, _ => throw (.panic "out of fuel")
  | fuel + 1, st => do
      checkTransferDeadline s.stopDeadline
      let (response, readIndexState) ← readProtocol31SenderResponse fuels.idLists
        st.readIndexState st.entries true s.fileListOptions
      let st := { st with readIndexState }
      match response with
      | .done => pure st
      | .fileListEof => receiveIncremental fuel st
      | .extraFileList extra => do
          let st ← takeExtraFileList platform s finds extra st
          receiveIncremental fuel st
      | .file index iflags sumHead => do
          let entryIndex ← Prog.ofExcept (checkedRemoteFileIndex index st.entries.length 0)
          let received ← applyRemoteSenderFileResponseProtocol31 platform.flate platform.hashes
            fuels.chunks (s.receiveContext platform st.entries) entryIndex iflags sumHead
            st.received
          receiveIncremental fuel { st with received }

/-- The branch of `execute_remote_pull_protocol31_with_handshake` under incremental recursion. -/
def executeRemotePullProtocol31Incremental : Session Received := do
  toMux (writeI32Le 0)
  let entries ← readListOnMux s fuels
  let entries ← Prog.ofExcept (acceptList platform s entries)
  let created ← createDestination s finds
  let (actions, requests) ← requestRemotePullIncrementalBatchProtocol31 platform s finds entries 0 0
    {}
  let st ← receiveIncremental platform s finds fuels fuels.answers
    { entries, requests, received := { actions := created ++ actions } }
  receiverPhases
  onMux readRemoteSenderProtocol31Stats
  receiverGoodbyes
  pure st.received

/-! ## Protocol 27 -/

/-- A writer on the bare transport. -/
def toRaw {α : Type} (w : Writer α) : Session α := w.interp fun bs => send bs

def requestFiles27 (request : RemoteSenderFileRequest) :
    List (RsyncFileListEntry × Nat) → Session Unit
  | [] => pure ()
  | (entry, index) :: rest => do
      checkTransferDeadline request.stopDeadline
      if request.wants entry index = false then requestFiles27 request rest
      else do
        let wire ← Prog.ofExcept (remoteWireIndex index request.indexOffset)
        toRaw (writeI32Le wire)
        if request.dryRun then requestFiles27 request rest
        else do
          let basis ← localBasisSignatureRequest platform.hashes request.checksum
            (request.dest.join entry.path) request.blockSize request.wholeFile request.maxAlloc
          toRaw (do
            writeSumHead basis.1
            writeRemoteBlockSignatures basis.2)
          requestFiles27 request rest

def requestRemoteSenderFiles (request : RemoteSenderFileRequest) : Session Unit := do
  requestFiles27 platform request request.entries.zipIdx
  toRaw (writeI32Le (-1))

def executeRemotePullProtocol27 : Session Received := do
  toRaw (writeI32Le 0)
  let entries ← onMux (readRsync27FileListWithOptions defaultMaxFileListEntries
    defaultMaxFileListPathLen (decide (s.updateMode = .checksum)))
  let entries ← Prog.ofExcept (acceptList platform s entries)
  let ioError ← onMux readI32Le
  if ioError ≠ 0 then throw (.other s!"remote sender reported non-zero I/O error {ioError}")
  else do
    let (actions, transferIndexes) ← prepareTransfer platform s finds entries
    requestRemoteSenderFiles platform (s.request entries transferIndexes)
    let received ← receiveRemoteSenderFiles platform.flate platform.hashes fuels.chunks
      (s.receiveContext platform entries) fuels.answers {}
    toRaw (writeI32Le (-1))
    let phaseAck ← onMux readI32Le
    if phaseAck ≠ -1 then throw (.session (.invalidPhaseAck phaseAck))
    else do
      let _ ← onMux readRsyncLong
      let _ ← onMux readRsyncLong
      let _ ← onMux readRsyncLong
      toRaw (writeI32Le (-1))
      pure (received.after actions)

end Pull

end RsyncWin
