import RsyncWin.Remote.SenderOrder
import RsyncWin.Transfer.Tokens

/-!
# Receiving the answers of a sender (`rsync-cli/src/remote/receive.rs`)

A receiver reads one answer after another: an index, item flags and, where a
transfer is announced, a sum head and tokens. The file goes to a temporary file
beside its target first and is copied over the target when it is complete.

Every index that is read or written is noted for an observer of the session;
the notes have no counterpart in the source and nothing reads them.
-/

namespace RsyncWin

open ByteString Codec Duplex

/-! ## Indices on the wire -/

def readIndex (state : RsyncIndexState) : Session (Int × RsyncIndexState) := do
  let (index, state) ← onMux (readRsyncIndex state)
  perform (.note (.readIndex index))
  pure (index, state)

def writeRsync31Index (state : RsyncIndexState) (index : Int) : Session RsyncIndexState := do
  let state ← toMux (writeRsyncIndex state index)
  perform (.note (.wroteIndex index))
  pure state

def writeRsync31Done : Session Unit := do
  let _ ← writeRsync31Index {} rsyncIndexDone
  pure ()

def readMultiplexedRsync31Index : Session Int := do
  let (index, _) ← readIndex {}
  pure index

def checkedFileIndex (index : Int) (fileCount : Nat) : Except Error Nat :=
  if index < 0 ∨ index.toNat ≥ fileCount then .error (.session (.invalidFileIndex index fileCount))
  else .ok index.toNat

def checkedRemoteFileIndex (index : Int) (fileCount : Nat) (offset : Int) : Except Error Nat :=
  match checkedI32 (index - offset) with
  | some localIndex => checkedFileIndex localIndex fileCount
  | none => .error (.session (.invalidFileIndex index fileCount))

/-! ## Context and results -/

structure RemoteExecutionStats where
  files : Nat := 0
  bytes : Nat := 0
  transferredEntryIndexes : List Nat := []
deriving DecidableEq

inductive SyncAction where
  | writeFile (path : LocalPath) (len : Nat)
  | writeFileInPlace (path : LocalPath) (len : Nat)
  | appendFile (path : LocalPath) (len : Nat)
  | preserveMtime (path : LocalPath)
  | createDir (path : LocalPath)
deriving DecidableEq

structure RemoteReceiveContext where
  dest : LocalPath
  entries : List RsyncFileListEntry
  indexOffset : Int := 0
  finalChecksum : RemoteFinalChecksum
  dryRun : Bool
  preserveTimes : Bool
  /-- `file_write_options.mode`. -/
  writeMode : FileWriteMode := .atomic
  appendVerify : Bool := false
  compression : Option RsyncDeflatedTokenMode := none
  maxAlloc : Option Nat := none
  stopDeadline : Option Nat := none
  /-- `std::process::id()`. -/
  processId : Nat

structure Received where
  stats : RemoteExecutionStats := {}
  actions : List SyncAction := []

def addU64 (a b : Nat) : Nat := (a + b) % 2 ^ 64

def Received.count (r : Received) (bytes : Nat) : Received :=
  { r with stats := { r.stats with
      files := r.stats.files + 1, bytes := addU64 r.stats.bytes bytes } }

def Received.act (r : Received) (action : SyncAction) : Received :=
  { r with actions := r.actions ++ [action] }

def syncActionLen (len : Nat) : Except Error Nat :=
  if len > usizeMax then .error (.other "file length exceeds this platform's address size")
  else .ok len

def remoteWriteAction (mode : FileWriteMode) (target : LocalPath) (len : Nat) : SyncAction :=
  match mode with
  | .atomic => .writeFile target len
  | .inPlace => .writeFileInPlace target len

/-! ## The temporary file -/

def ascii (s : String) : Bytes := s.toList.map fun c => UInt8.ofNat c.toNat

def tempName (processId nanos : Nat) (target : LocalPath) : Bytes :=
  let fileName := (target.fileName.map lossyBytes).getD (ascii "rsync-win")
  ascii "." ++ fileName ++ ascii s!".{processId}.{nanos}.recv"

def tempPath (processId nanos : Nat) (target : LocalPath) : LocalPath :=
  target.parent ++ [.normal (tempName processId nanos target)]

def receiveTempPath (processId : Nat) (target : LocalPath) : Session LocalPath := do
  let nanos ← perform .now
  pure (tempPath processId nanos target)

def removeLocalFileBestEffort (path : LocalPath) : Session Unit := do
  let _ ← loc (L := localSig) (.removeFile path)
  pure ()

/-! ## Writing a received file -/

def preserveRemoteMtime (ctx : RemoteReceiveContext) (entry : RsyncFileListEntry)
    (target : LocalPath) (r : Received) : Session Received :=
  if ctx.preserveTimes then do
    perform (.setMtime target (max entry.mtimeUnix 0))
    pure (r.act (.preserveMtime target))
  else pure r

/-- The offset to append from: the length of a target that is a regular file
and a beginning of what was received. -/
def appendVerifyOffsetLocal (source target : LocalPath) (sourceLen : Nat) :
    Session (Option Nat) := do
  match ← loc (L := localSig) (.fileLen target) with
  | .ok (some targetLen) =>
      if targetLen > sourceLen then pure none
      else do
        let same ← perform (.filePrefixMatches source target)
        pure (if same then some targetLen else none)
  | _ => pure none

def replaceTarget (ctx : RemoteReceiveContext) (entry : RsyncFileListEntry)
    (target sourcePath : LocalPath) (sourceLen : Nat) (r : Received) : Session Received := do
  let len ← Prog.ofExcept (syncActionLen sourceLen)
  let r := r.act (remoteWriteAction ctx.writeMode target len)
  perform (.copyFile sourcePath target ctx.writeMode)
  preserveRemoteMtime ctx entry target r

def writeReceivedFileFromPath (ctx : RemoteReceiveContext) (entry : RsyncFileListEntry)
    (target sourcePath : LocalPath) (sourceLen : Nat) (r : Received) : Session Received :=
  if ctx.appendVerify then do
    match ← appendVerifyOffsetLocal sourcePath target sourceLen with
    | some offset =>
        if sourceLen - offset > 0 then do
          let len ← Prog.ofExcept (syncActionLen (sourceLen - offset))
          perform (.appendFileFrom target sourcePath offset)
          preserveRemoteMtime ctx entry target (r.act (.appendFile target len))
        else preserveRemoteMtime ctx entry target r
    | none => replaceTarget ctx entry target sourcePath sourceLen r
  else replaceTarget ctx entry target sourcePath sourceLen r

def readTokensInto (flate : Flate) (hashes : Hashes) (chunkFuel : Nat)
    (ctx : RemoteReceiveContext) (entry : RsyncFileListEntry) (sumHead : Option RemoteSumHead)
    (temp : LocalPath) : Session Nat :=
  readFileTokensToPathWithBasis flate hashes chunkFuel
    { path := entry.path, output := temp, expectedLen := entry.len, checksum := ctx.finalChecksum,
      stopDeadline := ctx.stopDeadline }
    (sumHead.map fun sumHead => (ctx.dest.join entry.path, sumHead)) ctx.compression ctx.maxAlloc

/-- Tokens into a temporary file, then the target; the temporary file goes away
either way. Both receive loops end in this. -/
def receiveFile (flate : Flate) (hashes : Hashes) (chunkFuel : Nat) (ctx : RemoteReceiveContext)
    (entry : RsyncFileListEntry) (sumHead : Option RemoteSumHead) (r : Received) :
    Session Received := do
  let target := ctx.dest.join entry.path
  let temp ← receiveTempPath ctx.processId target
  match ← Prog.attempt (readTokensInto flate hashes chunkFuel ctx entry sumHead temp) with
  | .error e => do
      removeLocalFileBestEffort temp
      throw e
  | .ok bytes => do
      let written ← Prog.attempt (writeReceivedFileFromPath ctx entry target temp bytes r)
      removeLocalFileBestEffort temp
      let r ← Prog.ofExcept written
      pure (r.count bytes)

/-! ## Protocol 27 -/

def readNonnegativeMultiplexedI32 (label : String) : Session Nat := do
  let value ← onMux readI32Le
  if value < 0 then throw (.other s!"remote sent negative {label}: {value}")
  else pure value.toNat

section Loops

variable (flate : Flate) (hashes : Hashes) (chunkFuel : Nat)

def receiveRemoteSenderFile (ctx : RemoteReceiveContext) (entry : RsyncFileListEntry)
    (entryIndex : Nat) (r : Received) : Session Received :=
  if entry.fileType ≠ .file then throw (.session (.nonFileBlockRequest entryIndex))
  else if ctx.dryRun then do
    let len ← Prog.ofExcept (syncActionLen entry.len)
    pure ((r.act (remoteWriteAction ctx.writeMode (ctx.dest.join entry.path) len)).count entry.len)
  else do
    let blockCount ← readNonnegativeMultiplexedI32 "block count"
    let blockLen ← readNonnegativeMultiplexedI32 "block length"
    let checksumLen ← readNonnegativeMultiplexedI32 "checksum length"
    let remainder ← readNonnegativeMultiplexedI32 "remainder length"
    receiveFile flate hashes chunkFuel ctx entry (some ⟨blockCount, blockLen, checksumLen, remainder⟩)
      r

/-- The counter bounds the answers that are read. -/
def receiveRemoteSenderFiles (ctx : RemoteReceiveContext) : Nat → Received → Session Received
  | 0, _ => throw (.panic "out of fuel")
  | fuel + 1, r => do
      checkTransferDeadline ctx.stopDeadline
      let index ← onMux readI32Le
      perform (.note (.readIndex index))
      if index = -1 then pure r
      else do
        let entryIndex ← Prog.ofExcept
          (checkedRemoteFileIndex index ctx.entries.length ctx.indexOffset)
        match ctx.entries[entryIndex]? with
        | none => throw (.panic "index out of bounds")
        | some entry => do
            let r ← receiveRemoteSenderFile flate hashes chunkFuel ctx entry entryIndex r
            receiveRemoteSenderFiles ctx fuel r

/-! ## Protocol 31 -/

inductive Protocol31SenderResponse where
  | done
  | fileListEof
  | extraFileList (entries : List RsyncFileListEntry)
  | file (index : Int) (iflags : Nat) (sumHead : Option RemoteSumHead)

def incrementalParentIndex (index : Int) (entries : List RsyncFileListEntry) : Except Error Nat :=
  match checkedI32 (rsyncIndexFlistOffset - index) with
  | none => .error (.other "incremental file-list marker overflowed")
  | some parentIndex =>
      if parentIndex < 0 then
        .error (.other s!"remote sent invalid incremental file-list marker {index}")
      else
        match entries[parentIndex.toNat]? with
        | none =>
            .error (.other
              s!"remote sent incremental file-list for parent index {parentIndex.toNat}, but file list has {entries.length} entries")
        | some parent =>
            if parent.fileType ≠ .directory then
              .error (.other
                s!"remote sent incremental file-list for non-directory parent `{fromUtf8Lossy parent.path}`")
            else .ok parentIndex.toNat

def defaultMaxFileListEntries : Nat := 100000
def defaultMaxFileListPathLen : Nat := 32 * 1024

def readSumHeadIf (iflags : Nat) : Reader (Option RemoteSumHead) :=
  if hasFlag iflags rsyncItemTransfer then do
    let sumHead ← readSumHead
    pure (some sumHead)
  else pure none

def readFileResponse (index : Int) : Reader Protocol31SenderResponse := do
  let iflags ← readU16Le
  let _ ← readRsync31OptionalItemAttrs iflags
  let sumHead ← readSumHeadIf iflags
  pure (.file index iflags sumHead)

/-- `idListFuel` bounds the id lists behind an extra file list. -/
def readProtocol31SenderResponse (idListFuel : Nat) (state : RsyncIndexState)
    (entries : List RsyncFileListEntry) (allowIncrementalFlist : Bool)
    (fileListOptions : RsyncFileListOptions) :
    Session (Protocol31SenderResponse × RsyncIndexState) := do
  let (index, state) ← readIndex state
  if index = rsyncIndexDone then pure (.done, state)
  else if index = rsyncIndexFlistEof then
    if allowIncrementalFlist then pure (.fileListEof, state)
    else throw (.session (.invalidFileIndex index entries.length))
  else if index ≤ rsyncIndexFlistOffset then
    if allowIncrementalFlist = false then
      throw (.session (.invalidFileIndex index entries.length))
    else do
      let _ ← Prog.ofExcept (incrementalParentIndex index entries)
      let extra ← onMux (readRsync31FileListWithMetadata idListFuel defaultMaxFileListEntries
        defaultMaxFileListPathLen fileListOptions)
      pure (.extraFileList extra, state)
  else do
    let response ← onMux (readFileResponse index)
    pure (response, state)

def applyRemoteSenderFileResponseProtocol31 (ctx : RemoteReceiveContext) (entryIndex : Nat)
    (iflags : Nat) (sumHead : Option RemoteSumHead) (r : Received) : Session Received :=
  match ctx.entries[entryIndex]? with
  | none => throw (.panic "index out of bounds")
  | some entry =>
      if entry.fileType ≠ .file then
        if hasFlag iflags rsyncItemTransfer then
          throw (.session (.nonFileBlockRequest entryIndex))
        else pure r
      else if hasFlag iflags rsyncItemTransfer = false ∨ ctx.dryRun then do
        let len ← Prog.ofExcept (syncActionLen entry.len)
        pure ((r.act (remoteWriteAction ctx.writeMode (ctx.dest.join entry.path) len)).count
          entry.len)
      else receiveFile flate hashes chunkFuel ctx entry sumHead r

def receiveRemoteSenderFilesProtocol31 (ctx : RemoteReceiveContext) :
    Nat → RsyncIndexState → Received → Session Received
  | 0, _, _ => throw (.panic "out of fuel")
  | fuel + 1, state, r => do
      checkTransferDeadline ctx.stopDeadline
      let (response, state) ← readProtocol31SenderResponse 0 state ctx.entries false {}
      match response with
      | .file index iflags sumHead => do
          let entryIndex ← Prog.ofExcept
            (checkedRemoteFileIndex index ctx.entries.length ctx.indexOffset)
          let r ← applyRemoteSenderFileResponseProtocol31 flate hashes chunkFuel ctx entryIndex
            iflags sumHead r
          receiveRemoteSenderFilesProtocol31 ctx fuel state r
      | _ => pure r

end Loops

end RsyncWin
