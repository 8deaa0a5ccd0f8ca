import RsyncWin.Lib.PathBuf
import RsyncWin.Remote.Receive
import RsyncWin.Remote.SenderClaims

/-!
# Asking for files (`rsync-cli/src/remote/send.rs`, the selection of `receive.rs`)

The receiving side walks over its list once. Every regular entry that is wanted
and was not asked for before is named by its index; a real run adds the
signatures of the file that is there already. What is wanted is decided by the
rules, the files-from list and a look at the destination.
-/

namespace RsyncWin

open ByteString Codec Duplex

/-! ## Selection -/

/-- `files_from_matches` on the path of a received entry. -/
def filesFromMatchesPath (relative : PathBuf) (filesFrom : List PathBuf) : Bool :=
  filesFrom.any fun selected =>
    relative = selected || relative.startsWith selected || selected.startsWith relative

def entryIsSelected (filterRules : RuleSet) (filesFrom : Option (List Bytes))
    (entry : RsyncFileListEntry) : Bool :=
  remoteEntryIsTopDir entry ||
    (!remoteSourcePathIsFiltered filterRules entry.path entry.fileType &&
      filesFrom.all fun filesFrom =>
        filesFromMatchesPath (components entry.path) (filesFrom.map components))

/-- A `BTreeSet` of indices is the increasing list of them. -/
def selectedRemoteEntryIndexes (entries : List RsyncFileListEntry) (filterRules : RuleSet)
    (filesFrom : Option (List Bytes)) : List Nat :=
  (entries.zipIdx.filter fun p => entryIsSelected filterRules filesFrom p.1).map (·.2)

/-- What `fs.metadata` says about a target. -/
structure TargetMetadata where
  isFile : Bool
  len : Nat
  /-- Nanoseconds since the epoch. -/
  modified : Option Int
deriving DecidableEq

/-- The destination as it is looked at while files are selected. -/
structure DestinationView where
  metadata : LocalPath → Option TargetMetadata
  checksumLocalPath : LocalPath → Except Error Bytes

/-- `UNIX_EPOCH` plus the seconds of the entry. -/
def remoteEntryMtime (entry : RsyncFileListEntry) : Option Int :=
  if entry.mtimeUnix ≥ 0 then some (entry.mtimeUnix * 1000000000) else none

def remoteFileNeedsUpdate (view : DestinationView) (dest : LocalPath) (entry : RsyncFileListEntry)
    (updateMode : Fs.UpdateMode) : Except Error Bool :=
  let target := dest.join entry.path
  match view.metadata target with
  | none => .ok true
  | some metadata =>
      if metadata.isFile = false then .ok true
      else
        match updateMode with
        | .ignoreTimes => .ok true
        | .sizeOnly => .ok (entry.len ≠ metadata.len)
        | .quickCheck =>
            .ok (entry.len ≠ metadata.len ||
              match remoteEntryMtime entry, metadata.modified with
              | some remote, some modified => remote ≠ modified
              | _, _ => true)
        | .checksum =>
            match entry.checksum with
            | none => .ok true
            | some remoteChecksum =>
                (view.checksumLocalPath target).map fun checksum => checksum ≠ remoteChecksum

def selectedRemoteTransferIndexes (view : DestinationView) (dest : LocalPath)
    (selectedIndexes : List Nat) (updateMode : Fs.UpdateMode) :
    List (RsyncFileListEntry × Nat) → Except Error (List Nat)
  | [] => .ok []
  | (entry, index) :: rest =>
      if !selectedIndexes.contains index then
        selectedRemoteTransferIndexes view dest selectedIndexes updateMode rest
      else do
        let wanted ←
          if entry.fileType ≠ .file then .ok true
          else remoteFileNeedsUpdate view dest entry updateMode
        let others ← selectedRemoteTransferIndexes view dest selectedIndexes updateMode rest
        .ok (if wanted then index :: others else others)

/-! ## Requests -/

def remoteWireIndex (index : Nat) (offset : Int) : Except Error Int :=
  if index > i32Max then .error (.other "remote file list index exceeded i32 range")
  else
    match checkedI32 (index + offset) with
    | some wire => .ok wire
    | none => .error (.other "remote file list index overflow")

structure RemoteSenderFileRequest where
  entries : List RsyncFileListEntry
  selectedIndexes : List Nat
  indexOffset : Int := 0
  dryRun : Bool
  dest : LocalPath
  blockSize : Nat
  wholeFile : Bool
  checksum : RemoteFileChecksum
  maxAlloc : Option Nat := none
  stopDeadline : Option Nat := none

/-- `index_state`, `requested_indexes` and the number of requests. -/
structure RequestState where
  indexState : RsyncIndexState := {}
  requestedIndexes : List Nat := []
  requests : Nat := 0

def RequestState.requested (r : RequestState) (indexState : RsyncIndexState) (index : Nat) :
    RequestState where
  indexState
  requestedIndexes := r.requestedIndexes ++ [index]
  requests := r.requests + 1

def requestIflags (dryRun : Bool) : Nat :=
  if dryRun then rsyncItemIsNew ||| rsyncItemLocalChange else rsyncItemTransfer ||| rsyncItemIsNew

section Requests

variable (hashes : Hashes) (request : RemoteSenderFileRequest)

/-- The signatures of the file that a request is to replace. -/
def writeSignatureRequest (entry : RsyncFileListEntry) : Session Unit :=
  if request.dryRun then pure ()
  else do
    let basis ← localBasisSignatureRequest hashes request.checksum (request.dest.join entry.path)
      request.blockSize request.wholeFile request.maxAlloc
    toMux (do
      writeSumHead basis.1
      writeRemoteBlockSignatures basis.2)

def requestRemoteSenderFile (entry : RsyncFileListEntry) (index : Nat) (r : RequestState) :
    Session RequestState := do
  let wire ← Prog.ofExcept (remoteWireIndex index request.indexOffset)
  let indexState ← writeRsync31Index r.indexState wire
  toMux (writeU16Le (requestIflags request.dryRun))
  writeSignatureRequest hashes request entry
  pure (r.requested indexState index)

/-- The regular entries that are wanted. -/
def RemoteSenderFileRequest.wants (entry : RsyncFileListEntry) (index : Nat) : Bool :=
  entry.fileType = .file && request.selectedIndexes.contains index

def requestFileIndexes : List (RsyncFileListEntry × Nat) → RequestState → Session RequestState
  | [], r => pure r
  | (entry, index) :: rest, r => do
      checkTransferDeadline request.stopDeadline
      if request.wants entry index = false ∨ r.requestedIndexes.contains index then
        requestFileIndexes rest r
      else do
        let r ← requestRemoteSenderFile hashes request entry index r
        requestFileIndexes rest r

def requestRemoteSenderFileIndexesProtocol31 (r : RequestState) : Session RequestState :=
  requestFileIndexes hashes request request.entries.zipIdx r

def requestRemoteSenderFilesProtocol31 : Session Unit := do
  let r ← requestRemoteSenderFileIndexesProtocol31 hashes request {}
  let _ ← writeRsync31Index r.indexState rsyncIndexDone
  pure ()

end Requests

end RsyncWin
