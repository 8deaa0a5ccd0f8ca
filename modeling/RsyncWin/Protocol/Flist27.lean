import RsyncWin.Protocol.Flist

/-!
# The internal and the protocol-27 file list (`rsync-protocol/src/flist.rs`)

The counted list of `read_internal_file_list`, and `Rsync27FileListWriter` with
`read_rsync27_file_list_with_options`. A protocol-27 entry starts with a status
byte; a zero there ends the list. The writer always sends whole paths, the
reader also takes the inherited prefixes that other senders use.
-/

namespace RsyncWin

open ByteString Codec

/-! ## The internal list -/

def WireFileType.fromByte (byte : UInt8) : Except Error WireFileType :=
  if byte = 1 then .ok .file
  else if byte = 2 then .ok .directory
  else if byte = 3 then .ok .symlink
  else .error (.fileList (.invalidFileType byte))

structure FileListEntry where
  path : Bytes
  fileType : WireFileType
  len : Nat
  mtimeUnix : Option Int
deriving DecidableEq

def readInternalEntry (maxPathLen : Nat) : Reader FileListEntry := do
  let pathBytes ← readBytesWithU32Len maxPathLen
  let path ← Prog.ofExcept (wirePathFromBytes pathBytes)
  let byte ← readU8
  let fileType ← Prog.ofExcept (WireFileType.fromByte byte)
  let len ← readI64Le
  if len < 0 then throw (.io .invalidData "negative file length")
  else
    let mtime ← readI64Le
    pure ⟨path, fileType, len.toNat, if mtime ≥ 0 then some mtime else none⟩

def readInternalFileList (maxEntries maxPathLen : Nat) : Reader (List FileListEntry) := do
  let count ← readU32Le
  if count > maxEntries then
    throw (.io .invalidData s!"file list entry count {count} exceeds limit {maxEntries}")
  else readTimes (readInternalEntry maxPathLen) count

/-! ## The protocol-27 writer -/

def xmitTopDir : Nat := 0x01
def xmitSameMode : Nat := 0x02
def xmitSameName : Nat := 0x20
def xmitLongName : Nat := 0x40
def xmitSameTime : Nat := 0x80

def writeRsyncLong (value : Nat) : Writer Unit :=
  if value ≤ i32Max then writeI32Le value
  else if value > i64Max then throw (.fileList (.lengthTooLarge value))
  else do
    writeI32Le (-1)
    writeI64Le value

structure Rsync27FileListWriter where
  includeChecksums : Bool
  lastMode : Option Nat := none
  lastMtime : Option Int := none
  finished : Bool := false

namespace Rsync27FileListWriter

def new (includeChecksums : Bool) : Rsync27FileListWriter := { includeChecksums }

def status (w : Rsync27FileListWriter) (entry : RsyncFileListEntry) : Nat :=
  xmitLongName |||
  flagIf (w.lastMode = some entry.mode) xmitSameMode |||
  flagIf (w.lastMtime = some entry.mtimeUnix) xmitSameTime |||
  flagIf (entry.fileType = .directory && components entry.path = [.curDir]) xmitTopDir

def writePathLen (status : Nat) (path : Bytes) : Writer Unit :=
  if hasFlag status xmitLongName then
    if path.length > i32Max then throw (.fileList (.pathTooLong path.length))
    else writeI32Le path.length
  else writeU8 (UInt8.ofNat path.length)

def mtimeOutOfRange : Error := .io .invalidInput "mtime is outside protocol 27 time_t range"

def writeMtime (status : Nat) (entry : RsyncFileListEntry) : Writer Unit :=
  if hasFlag status xmitSameTime then pure ()
  else
    match checkedI32 entry.mtimeUnix with
    | some mtime => writeI32Le mtime
    | none => throw mtimeOutOfRange

def writeMode (status : Nat) (entry : RsyncFileListEntry) : Writer Unit :=
  if hasFlag status xmitSameMode then pure () else writeI32Le (toSigned 32 entry.mode)

def writeChecksum (includeChecksums : Bool) (entry : RsyncFileListEntry) : Writer Unit :=
  Rsync31FileListWriter.writeChecksum { includeChecksums } entry

def writeEntry (w : Rsync27FileListWriter) (entry : RsyncFileListEntry) :
    Writer Rsync27FileListWriter := do
  let path := wirePathBytes entry.path
  writeU8 (UInt8.ofNat (w.status entry))
  writePathLen (w.status entry) path
  writeAll path
  writeRsyncLong entry.len
  writeMtime (w.status entry) entry
  writeMode (w.status entry) entry
  writeChecksum w.includeChecksums entry
  pure { w with lastMode := some entry.mode, lastMtime := some entry.mtimeUnix }

def writeBatch (w : Rsync27FileListWriter) (entries : List RsyncFileListEntry) :
    Writer Rsync27FileListWriter := do
  if w.finished then
    throw (.io .invalidInput "cannot write entries after finishing file-list")
  else entries.foldlM writeEntry w

def finish (w : Rsync27FileListWriter) : Writer Rsync27FileListWriter := do
  if w.finished then pure w
  else
    writeU8 0
    pure { w with finished := true }

end Rsync27FileListWriter

/-- A file list sent in batches. -/
def writeRsync27FileListBatches (includeChecksums : Bool)
    (batches : List (List RsyncFileListEntry)) : Writer Unit := do
  let w ← batches.foldlM Rsync27FileListWriter.writeBatch
    (Rsync27FileListWriter.new includeChecksums)
  let _w ← w.finish
  pure ()

/-! ## The protocol-27 reader -/

def readRsyncLong : Reader Nat := do
  let value ← readI32Le
  if value ≥ 0 then pure value.toNat
  else if value ≠ -1 then throw (.io .invalidData "negative protocol long marker")
  else
    let value ← readI64Le
    if value < 0 then throw (.io .invalidData "negative protocol long value")
    else pure value.toNat

structure Flist27ReadState where
  lastPath : Bytes := []
  lastMode : Option Nat := none
  lastMtime : Option Int := none

def readInheritedLen27 (status : Nat) : Reader Nat :=
  if hasFlag status xmitSameName then do
    let byte ← readU8
    pure byte.toNat
  else pure 0

def readInherited27 (lastPath : Bytes) (status : Nat) : Reader Nat := do
  let inherited ← readInheritedLen27 status
  if inherited > lastPath.length then
    throw (.io .invalidData "file list inherited name prefix exceeds previous path")
  else pure inherited

def readSuffixLen27 (status : Nat) : Reader Nat :=
  if hasFlag status xmitLongName then do
    let len ← readI32Le
    if len < 0 then throw (.io .invalidData "negative file name length") else pure len.toNat
  else do
    let byte ← readU8
    pure byte.toNat

def readMtime27 (st : Flist27ReadState) (status : Nat) : Reader Int :=
  if hasFlag status xmitSameTime then repeated st.lastMtime "mtime" else readI32Le

def readMode27 (st : Flist27ReadState) (status : Nat) : Reader Nat :=
  if hasFlag status xmitSameMode then repeated st.lastMode "mode"
  else do
    let mode ← readI32Le
    pure (ofSigned 32 mode)

/-- One entry behind its status byte. -/
def readEntry27 (expectChecksums : Bool) (maxPathLen : Nat) (st : Flist27ReadState)
    (status : Nat) : Reader (RsyncFileListEntry × Flist27ReadState) := do
  let inherited ← readInherited27 st.lastPath status
  let suffixLen ← readSuffixLen27 status
  let pathBytes ← readPathRest maxPathLen st.lastPath inherited suffixLen
  let len ← readRsyncLong
  let mtime ← readMtime27 st status
  let mode ← readMode27 st status
  let path ← Prog.ofExcept (wirePathFromBytes pathBytes)
  let fileType ← Prog.ofExcept (fileTypeFromMode mode)
  let checksum ← readFileChecksum { includeChecksums := expectChecksums } fileType
  let entry : RsyncFileListEntry := { path, fileType, len, mtimeUnix := mtime, mode, checksum }
  pure (entry, { lastPath := pathBytes, lastMode := some mode, lastMtime := some mtime })

/-- The reading loop; `room` is how many more entries fit under `max_entries`. -/
def readEntries27 (expectChecksums : Bool) (maxEntries maxPathLen : Nat) :
    Nat → List RsyncFileListEntry → Flist27ReadState → Reader (List RsyncFileListEntry)
  | room, entries, st => do
      let status ← readU8
      if status = 0 then pure entries
      else
        match room with
        | 0 => throw (.io .invalidData s!"file list entry count exceeds limit {maxEntries}")
        | room + 1 =>
            let (entry, st) ← readEntry27 expectChecksums maxPathLen st status.toNat
            readEntries27 expectChecksums maxEntries maxPathLen room (entries ++ [entry]) st

def readRsync27FileListWithOptions (maxEntries maxPathLen : Nat) (expectChecksums : Bool) :
    Reader (List RsyncFileListEntry) :=
  readEntries27 expectChecksums maxEntries maxPathLen maxEntries [] {}

end RsyncWin
