import RsyncWin.Remote.Send

/-!
# Answering requests (`rsync-cli/src/remote/flist.rs`, `rsync-cli/src/daemon_server/mod.rs`)

The sending side reads one request after another and answers each before it
reads the next: the index and flags come back, and where a transfer is wanted
the sum head and the tokens of the file follow. A `DONE` ends a phase; the third
one ends the loop. The pushing client and the daemon have this loop each, word
for word but for append mode, the counting of a dry run and the statistics.

`phases` and `goodbyes` are the other side of it, the end of a session as the
receiving client and the receiving daemon write it.
-/

namespace RsyncWin

open ByteString Codec Duplex

/-! ## Compression -/

def trimStarDot : Text → Text
  | '*' :: '.' :: rest => trimStarDot rest
  | text => text

structure RemoteCompressionConfig where
  mode : RsyncDeflatedTokenMode
  level : Nat
  skipSuffixes : List Text

namespace RemoteCompressionConfig

def skippedEndings (config : RemoteCompressionConfig) : List Text :=
  (config.skipSuffixes.map fun suffix => (trimStarDot (trim suffix)).dropWhile (· = '.')).filter
    (· ≠ [])

def shouldSkipPath (config : RemoteCompressionConfig) (path : Bytes) : Bool :=
  let path := (fromUtf8Lossy path).toList.map Char.toLower
  config.skippedEndings.any fun suffix => decide (('.' :: suffix.map Char.toLower) <:+ path)

def levelForPath (config : RemoteCompressionConfig) (path : Bytes) : Nat :=
  if config.shouldSkipPath path then 0 else config.level

end RemoteCompressionConfig

structure RemoteTransferRuntime where
  compression : Option RemoteCompressionConfig := none
  maxAlloc : Option Nat := none
  stopDeadline : Option Nat := none

/-! ## Requests as the sender reads them -/

structure SenderRequest where
  index : Int
  iflags : Nat
  attrs : Rsync31ItemAttrs
  sumHead : Option RemoteSumHead
  signatures : List BlockSignature
deriving DecidableEq

def SenderRequest.wantsTransfer (request : SenderRequest) : Bool :=
  hasFlag request.iflags rsyncItemTransfer

/-- What the two senders do differently. -/
structure SenderSide where
  entries : List RemoteSourceEntry
  dryRun : Bool
  appendVerify : Bool
  checksum : RemoteFileChecksum
  runtime : RemoteTransferRuntime
  /-- Whether a dry run counts the files it was asked for. -/
  countsDryRun : Bool
  /-- Whether the indices that were transferred are recorded. -/
  recordsIndexes : Bool
  sumHeadOmitted : String

structure ServeState where
  readIndexState : RsyncIndexState := {}
  writeIndexState : RsyncIndexState := {}
  phaseMarkers : Nat := 0
  stats : RemoteExecutionStats := {}
deriving DecidableEq

def RemoteExecutionStats.count (stats : RemoteExecutionStats) (bytes : Nat) : RemoteExecutionStats :=
  { stats with files := stats.files + 1, bytes := addU64 stats.bytes bytes }

def RemoteExecutionStats.record (stats : RemoteExecutionStats) (index : Nat) :
    RemoteExecutionStats :=
  { stats with transferredEntryIndexes := stats.transferredEntryIndexes ++ [index] }

section Serve

variable (flate : Flate) (hashes : Hashes) (sender : SenderSide)

/-- In append mode the basis is told by its sum head only. -/
def readRequestSignatures (sumHead : RemoteSumHead) : Reader (List BlockSignature) :=
  if sender.appendVerify then pure []
  else readRemoteBlockSignaturesFromReader sumHead sender.runtime.maxAlloc

def readItemRequest (index : Int) : Reader SenderRequest := do
  let iflags ← readU16Le
  let attrs ← readRsync31OptionalItemAttrs iflags
  if hasFlag iflags rsyncItemTransfer then do
    let sumHead ← readSumHead
    let signatures ← readRequestSignatures sender sumHead
    pure ⟨index, iflags, attrs, some sumHead, signatures⟩
  else pure ⟨index, iflags, attrs, none, []⟩

def readRequest (state : RsyncIndexState) : Session (Option SenderRequest × RsyncIndexState) := do
  let (index, state) ← readIndex state
  if index = rsyncIndexDone then pure (none, state)
  else do
    let request ← onMux (readItemRequest sender index)
    pure (some request, state)

/-- Index, flags and attributes as they came. -/
def echoRequest (request : SenderRequest) (s : ServeState) : Session ServeState := do
  let state ← writeRsync31Index s.writeIndexState request.index
  toMux (do
    writeU16Le request.iflags
    writeRsync31OptionalItemAttrs request.iflags request.attrs)
  pure { s with writeIndexState := state }

def appendPrefixLen (entry : RemoteSourceEntry) (sumHead : RemoteSumHead) : Except Error Nat :=
  if sender.appendVerify then do
    let prefixLen ← remoteSumHeadFileLen sumHead
    if prefixLen > entry.wire.len then
      .error (.other
        s!"remote append basis is larger than sender file for {fromUtf8Lossy entry.localPath}")
    else .ok prefixLen
  else .ok 0

/-- The path of a source file on the machine it is read from. -/
def RemoteSourceEntry.path (entry : RemoteSourceEntry) : LocalPath := components entry.localPath

/-- The tokens of the file, and how many literal bytes they hold. -/
def writeAnswerTokens (entry : RemoteSourceEntry) (prefixLen : Nat)
    (signatures : List BlockSignature) : Session Nat :=
  let finalFile := RemoteFinalChecksum.protocol31ForAlgorithm sender.checksum.algorithm
  let level := sender.runtime.compression.map fun config => config.levelForPath entry.localPath
  if sender.appendVerify then
    writeAppendVerifyFileTokensFromPath flate hashes finalFile entry.path prefixLen level
      sender.runtime.stopDeadline
  else do
    let stats ← writeDeltaTokensFromPath flate hashes ⟨sender.checksum, finalFile⟩ entry.path
      signatures level ⟨sender.runtime.maxAlloc, sender.runtime.stopDeadline⟩
    pure stats.literalBytes

def SenderSide.counted (entryIndex : Nat) (stats : RemoteExecutionStats) : RemoteExecutionStats :=
  if sender.recordsIndexes then stats.record entryIndex else stats

def transferRequested (entryIndex : Nat) (entry : RemoteSourceEntry) (request : SenderRequest)
    (s : ServeState) : Session ServeState :=
  match request.sumHead with
  | none => throw (.other sender.sumHeadOmitted)
  | some sumHead => do
      let prefixLen ← Prog.ofExcept (appendPrefixLen sender entry sumHead)
      let s ← echoRequest request s
      toMux (writeSumHead sumHead)
      let literalBytes ← writeAnswerTokens flate hashes sender entry prefixLen request.signatures
      pure { s with stats := sender.counted entryIndex (s.stats.count literalBytes) }

def answerRequest (request : SenderRequest) (s : ServeState) : Session ServeState := do
  let entryIndex ← Prog.ofExcept (checkedFileIndex request.index sender.entries.length)
  match sender.entries[entryIndex]? with
  | none => throw (.panic "index out of bounds")
  | some entry =>
      if request.wantsTransfer = false then echoRequest request s
      else if entry.wire.fileType ≠ .file then throw (.session (.nonFileBlockRequest entryIndex))
      else if sender.dryRun then do
        let s ← echoRequest request s
        pure (if sender.countsDryRun then { s with stats := s.stats.count entry.wire.len } else s)
      else transferRequested flate hashes sender entryIndex entry request s

/-- One round of the loop; `none` is the third phase marker. -/
def serveRound (s : ServeState) : Session (Option ServeState × ServeState) := do
  checkTransferDeadline sender.runtime.stopDeadline
  let (request, readIndexState) ← readRequest sender s.readIndexState
  let s := { s with readIndexState }
  match request with
  | none =>
      let s := { s with phaseMarkers := s.phaseMarkers + 1 }
      if s.phaseMarkers > 2 then pure (none, s)
      else do
        let writeIndexState ← writeRsync31Index s.writeIndexState rsyncIndexDone
        let s := { s with writeIndexState }
        pure (some s, s)
  | some request => do
      let s ← answerRequest flate hashes sender request s
      pure (some s, s)

/-- The counter bounds the rounds. -/
def serveRequests : Nat → ServeState → Session ServeState
  | 0, _ => throw (.panic "out of fuel")
  | fuel + 1, s => do
      let (next, s) ← serveRound flate hashes sender s
      match next with
      | none => pure s
      | some s => serveRequests fuel s

end Serve

/-! ## Ends of a session -/

def awaitFinalDone : Session Unit := do
  let ack ← readMultiplexedRsync31Index
  if ack ≠ rsyncIndexDone then throw (.session (.invalidFinalAck ack)) else pure ()

def awaitPhaseDone : Session Unit := do
  let ack ← readMultiplexedRsync31Index
  if ack ≠ rsyncIndexDone then throw (.session (.invalidPhaseAck ack)) else pure ()

/-- The sender's: it answers one goodbye and waits for another. -/
def senderGoodbyes : Session Unit := do
  awaitFinalDone
  writeRsync31Done
  awaitFinalDone

/-- The receiver's, up to where the sender's statistics may come. -/
def receiverPhases : Session Unit := do
  writeRsync31Done
  awaitPhaseDone
  writeRsync31Done
  awaitFinalDone

def receiverGoodbyes : Session Unit := do
  writeRsync31Done
  awaitFinalDone
  writeRsync31Done

/-- Five numbers nobody looks at. -/
def readRemoteSenderProtocol31Stats : Reader Unit := do
  let _ ← readVarlong 3
  let _ ← readVarlong 3
  let _ ← readVarlong 3
  let _ ← readVarlong 3
  let _ ← readVarlong 3
  pure ()

/-- A sum of `u64`. -/
def sumU64 (values : List Nat) : Nat := values.foldl addU64 0

def totalFileSize (entries : List RemoteSourceEntry) : Nat :=
  sumU64 ((entries.filter fun entry => entry.wire.fileType = .file).map (·.wire.len))

def writeDaemonSenderStats (entries : List RemoteSourceEntry) (stats : RemoteExecutionStats) :
    Writer Unit :=
  [0, stats.bytes, totalFileSize entries, 0, 0].forM fun value => writeVarlong value 3

/-! ## The four sessions -/

section Sessions

variable (flate : Flate) (hashes : Hashes)

def clientSender (entries : List RemoteSourceEntry) (dryRun appendVerify : Bool)
    (checksum : RemoteFileChecksum) (runtime : RemoteTransferRuntime) : SenderSide where
  entries
  dryRun
  appendVerify
  checksum
  runtime
  countsDryRun := false
  recordsIndexes := true
  sumHeadOmitted := "remote protocol 31 transfer request omitted sum head"

def daemonSender (entries : List RemoteSourceEntry) (dryRun : Bool)
    (compression : Option RemoteCompressionConfig) : SenderSide where
  entries
  dryRun
  appendVerify := false
  checksum := .plainMd4
  runtime := { compression }
  countsDryRun := true
  recordsIndexes := false
  sumHeadOmitted := "daemon receiver transfer request omitted sum head"

def serveRemoteReceiverRequestsProtocol31 (entries : List RemoteSourceEntry)
    (dryRun appendVerify : Bool) (checksum : RemoteFileChecksum) (runtime : RemoteTransferRuntime)
    (fuel : Nat) : Session RemoteExecutionStats := do
  let sender := clientSender entries dryRun appendVerify checksum runtime
  let s ← serveRequests flate hashes sender fuel {}
  let _ ← writeRsync31Index s.writeIndexState rsyncIndexDone
  senderGoodbyes
  pure s.stats

def serveDaemonSenderRequestsProtocol31 (entries : List RemoteSourceEntry) (dryRun : Bool)
    (compression : Option RemoteCompressionConfig) (fuel : Nat) : Session Unit := do
  let s ← serveRequests flate hashes (daemonSender entries dryRun compression) fuel {}
  let _ ← writeRsync31Index s.writeIndexState rsyncIndexDone
  toMux (writeDaemonSenderStats entries s.stats)
  senderGoodbyes

/-- `execute_remote_pull_protocol31_with_handshake`, from the requests on. -/
def pullFiles (request : RemoteSenderFileRequest) (ctx : RemoteReceiveContext)
    (chunkFuel fuel : Nat) : Session Received := do
  requestRemoteSenderFilesProtocol31 hashes request
  let received ← receiveRemoteSenderFilesProtocol31 flate hashes chunkFuel ctx fuel {} {}
  receiverPhases
  onMux readRemoteSenderProtocol31Stats
  receiverGoodbyes
  pure received

/-- `serve_daemon_receiver_protocol31`, from the requests on. -/
def receivePushedFiles (request : RemoteSenderFileRequest) (ctx : RemoteReceiveContext)
    (chunkFuel fuel : Nat) : Session Received := do
  requestRemoteSenderFilesProtocol31 hashes request
  let received ← receiveRemoteSenderFilesProtocol31 flate hashes chunkFuel ctx fuel {} {}
  receiverPhases
  receiverGoodbyes
  pure received

end Sessions

end RsyncWin
