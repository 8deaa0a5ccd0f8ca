import RsyncWin.Batch.Manifest
import RsyncWin.Lib.Path
import RsyncWin.Lib.SortedMap
import RsyncWin.Protocol.Multiplex
import RsyncWin.Transfer.Checksum

/-!
# Batch files (`rsync-cli/src/batch.rs`)

A header and the manifest, the contents of the files one after the other, an
index of records, and last the place of the index. The index is written when
all contents are, and a record says where its contents begin.
-/

namespace RsyncWin

open ByteString Codec

/-! ## Times and records -/

/-- A point in time: seconds since the epoch, with 64 bits. -/
structure SystemTime where
  secs : Int
  nanos : Nat
  lower : -2 ^ 63 ≤ secs
  upper : secs < 2 ^ 63
  nanos_lt : nanos < 1000000000
deriving DecidableEq

/-- `SystemTime::UNIX_EPOCH + Duration::from_secs(secs)`. -/
def epochPlus (secs : Nat) : Except Error SystemTime :=
  if h : secs < 2 ^ 63 then .ok ⟨secs, 0, by omega, by omega, by omega⟩
  else .error (.panic "overflow when adding duration to instant")

/-- The seconds of `duration_since(UNIX_EPOCH)`, 0 where that fails. -/
def mtimeSecs (modified : Option SystemTime) : Nat :=
  match modified with
  | some t => if 0 ≤ t.secs then t.secs.toNat else 0
  | none => 0

inductive BatchRecordKind where
  | file | directory
deriving DecidableEq, Repr

def BatchRecordKind.toByte : BatchRecordKind → UInt8
  | .file => 1
  | .directory => 2

def BatchRecordKind.fromByte (byte : UInt8) : Except Error BatchRecordKind :=
  if byte = 1 then .ok .file
  else if byte = 2 then .ok .directory
  else .error (.other s!"batch file corrupted: unknown record kind {byte}")

structure BatchRecord where
  kind : BatchRecordKind
  relative : Bytes
  len : Nat
  modified : Option SystemTime
  dataOffset : Nat
  checksum : Bytes
deriving DecidableEq

def batchMagic : Bytes := [0x52, 0x53, 0x59, 0x4e, 0x43, 0x2d, 0x42, 0x41, 0x54, 0x43, 0x48, 0x31]
def batchVersion : Nat := 1
def batchHeaderLen : Nat := 64
def manifestMarker : Bytes := [0x4d, 0x41, 0x4e, 0x31]
def indexMarker : Bytes := [0x49, 0x44, 0x58, 0x31]
def endMarker : Bytes := [0x45, 0x4e, 0x44, 0x31]
def u32Max : Nat := 4294967295

/-! ## Writing -/

/-- The file is only ever written at its end. -/
structure BatchWriter where
  file : Bytes
  records : List BatchRecord
  dryRun : Bool

/-- An offset in a file is an `i64`. -/
def maxFileLen : Nat := 2 ^ 63 - 1

namespace BatchWriter

def write (w : BatchWriter) (bytes : Bytes) : Except Error BatchWriter :=
  if w.file.length + bytes.length > maxFileLen then .error (.io .other "File too large")
  else .ok { w with file := w.file ++ bytes }

def writeManifestBlock (w : BatchWriter) (manifest : BatchManifest) : Except Error BatchWriter := do
  let bytes := utf8Encode (renderManifest manifest)
  if bytes.length > u32Max then .error (.other "batch manifest is too large")
  else do
    let w ← w.write manifestMarker
    let w ← w.write (leBytes 4 bytes.length)
    w.write bytes

def createWithManifest (dryRun : Bool) (manifest : BatchManifest) : Except Error BatchWriter := do
  let w : BatchWriter := ⟨[], [], dryRun⟩
  let w ← w.write batchMagic
  let w ← w.write (leBytes 4 batchVersion)
  let w ← w.write [if dryRun then 1 else 0]
  let w ← w.write (List.replicate (batchHeaderLen - 12 - 4 - 1) 0)
  w.writeManifestBlock manifest

section Append

-- the hash of `rsync_plain_md4_checksum`, and what reading a source gives
variable (md4 : Hasher) (readFile : Bytes → Except Error Bytes)

def appendFile (w : BatchWriter) (relative source : Bytes) (len : Nat)
    (modified : Option SystemTime) : Except Error (BatchRecord × BatchWriter) := do
  let sourceBytes ← readFile source
  if sourceBytes.length ≠ len then
    .error (.other (s!"batch length mismatch for {fromUtf8Lossy source}: " ++
      s!"metadata says {len}, read {sourceBytes.length}"))
  else do
    let record : BatchRecord :=
      ⟨.file, relative, len, modified, w.file.length, md4.digest sourceBytes⟩
    let w ← if w.dryRun then .ok w else w.write sourceBytes
    .ok (record, { w with records := w.records ++ [record] })

def appendDirectory (w : BatchWriter) (relative : Bytes) (modified : Option SystemTime) :
    BatchRecord × BatchWriter :=
  let record : BatchRecord :=
    ⟨.directory, relative, 0, modified, w.file.length, List.replicate 16 0⟩
  (record, { w with records := w.records ++ [record] })

end Append

def writeRecord (w : BatchWriter) (record : BatchRecord) : Except Error BatchWriter := do
  let relBytes := lossyBytes record.relative
  if relBytes.length > u16Max then
    .error (.other s!"batch path too long: {fromUtf8Lossy record.relative}")
  else do
    let w ← w.write (leBytes 2 relBytes.length)
    let w ← w.write relBytes
    let w ← w.write [record.kind.toByte]
    let w ← w.write (leBytes 8 record.len)
    let w ← w.write (leBytes 8 record.dataOffset)
    let w ← w.write (leBytes 8 (mtimeSecs record.modified))
    w.write record.checksum

def finish (w : BatchWriter) : Except Error (List BatchRecord × Bytes) := do
  let indexOffset := w.file.length
  let w ← w.write indexMarker
  if w.records.length > u32Max then .error (.other "too many batch records")
  else do
    let w ← w.write (leBytes 4 w.records.length)
    let w ← w.records.foldlM writeRecord w
    let w ← w.write (leBytes 8 indexOffset)
    let w ← w.write endMarker
    .ok (w.records, w.file)

end BatchWriter

/-! ## Reading -/

/-- Reading a file from a place on, with an error at its end. -/
def readFrom {α : Type} (file : Bytes) (offset : Nat) (p : Reader α) : Except Error (α × Bytes) :=
  match p.run buffer (file.drop offset) with
  | .ret a rest => .ok (a, rest)
  | .fail e _ => .error e
  | .wait _ => .error unexpectedEof

/-- A seek from the start; the offset goes to the system as an `i64`. -/
def seekTo (offset : Nat) : Except Error Unit :=
  if offset > maxFileLen then .error (.io .invalidInput "Invalid argument") else .ok ()

def expectBytes (expected : Bytes) (message : String) : Reader Unit := do
  let bytes ← readExact expected.length
  if bytes ≠ expected then throw (.other message)

def readManifestBlock : Reader BatchManifest := do
  expectBytes manifestMarker "batch file corrupted: missing MAN1 manifest marker"
  let len ← readU32Le
  let bytes ← readExact len
  match utf8Chars bytes with
  | none => throw (.other "invalid UTF-8 in batch manifest")
  | some text => Prog.ofExcept (parseManifest text)

def readHeader : Reader (Bool × BatchManifest) := do
  expectBytes batchMagic "not a valid rsync batch file (bad magic)"
  let version ← readU32Le
  if version ≠ batchVersion then
    throw (.other s!"batch file version {version} is not supported (expected {batchVersion})")
  let dryRun ← readU8
  let _ ← readExact (batchHeaderLen - 12 - 4 - 1)
  let manifest ← readManifestBlock
  pure (dryRun ≠ 0, manifest)

def readU64Le : Reader Nat := do
  let bytes ← readExact 8
  pure (leNat bytes)

/-- One record of the index; its path is put into it later. -/
def readRecord : Reader (Bytes × BatchRecord) := do
  let relLen ← readU16Le
  let relBytes ← readExact relLen
  match Str.fromUtf8 relBytes with
  | none => throw (.other "invalid UTF-8 in batch file record path")
  | some relative => do
      let kindByte ← readU8
      let kind ← Prog.ofExcept (BatchRecordKind.fromByte kindByte)
      let len ← readU64Le
      let dataOffset ← readU64Le
      let mtime ← readU64Le
      let modified ← Prog.ofExcept
        (if mtime > 0 then (epochPlus mtime).map some else .ok none)
      let checksum ← readExact 16
      pure (relative.bytes, ⟨kind, [], len, modified, dataOffset, checksum⟩)

/-- The order of paths: by components, with names last. -/
def componentRank : Component → Nat
  | .rootDir => 0
  | .curDir => 1
  | .parentDir => 2
  | .normal _ => 3

def componentName : Component → Bytes
  | .normal name => name
  | _ => []

def compareComponent : Component → Component → Ordering :=
  compareLex (compareOn componentRank) (compareOn componentName)

def comparePaths (a b : Bytes) : Ordering :=
  List.compareLex compareComponent (components a) (components b)

def readRecords : Nat → List (Bytes × BatchRecord) → Reader (List (Bytes × BatchRecord))
  | 0, records => pure records
  | count + 1, records => do
      let (path, record) ← readRecord
      readRecords count (SortedMap.insert comparePaths path record records)

def readBatchIndex : Reader (List (Bytes × BatchRecord)) := do
  expectBytes indexMarker "batch file corrupted: missing IDX1 marker"
  let count ← readU32Le
  readRecords count []

structure BatchReader where
  records : List (Bytes × BatchRecord)
  file : Bytes
  dryRun : Bool
  manifest : BatchManifest

/-- `Fix up relative paths`. -/
def fixRecords (records : List (Bytes × BatchRecord)) : List (Bytes × BatchRecord) :=
  records.foldl (fun fixed entry =>
    SortedMap.insert comparePaths entry.1 { entry.2 with relative := entry.1 } fixed) []

namespace BatchReader

/-- `BatchReader::open`, on the bytes of the file. -/
def openFile (file : Bytes) : Except Error BatchReader := do
  let ((dryRun, manifest), _) ← readFrom file 0 readHeader
  if file.length < 12 then .error (.other "batch file too short")
  else do
    let _ ← readFrom file (file.length - 4)
      (expectBytes endMarker "batch file corrupted: missing END1 trailer")
    let (indexOffset, _) ← readFrom file (file.length - 12) readU64Le
    seekTo indexOffset
    let (records, _) ← readFrom file indexOffset readBatchIndex
    .ok ⟨fixRecords records, file, dryRun, manifest⟩

def recordList (reader : BatchReader) : List BatchRecord := reader.records.map Prod.snd

def fileData (md4 : Hasher) (reader : BatchReader) (record : BatchRecord) : Except Error Bytes :=
  if record.kind ≠ .file then
    .error (.other
      s!"batch record does not contain file data: {fromUtf8Lossy record.relative}")
  else if record.len > maxFileLen then .error (.panic "capacity overflow")
  else do
    seekTo record.dataOffset
    let (buf, _) ← readFrom reader.file record.dataOffset (readExact record.len)
    if md4.digest buf ≠ record.checksum then
      .error (.other
        s!"batch file corrupted: checksum mismatch for {fromUtf8Lossy record.relative}")
    else .ok buf

end BatchReader

end RsyncWin
