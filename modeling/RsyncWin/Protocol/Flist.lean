import RsyncWin.Protocol.Io
import RsyncWin.Lib.Utf8
import RsyncWin.Lib.Path

/-!
# The protocol-31 file list (`rsync-protocol/src/flist.rs`)

`Rsync31FileListWriter` and `read_rsync31_file_list_with_metadata`. Most fields
of an entry are left out when they repeat the last value sent; the writer and
the reader each keep their own copy of those values. The source's long writer
and reader bodies are cut at their fields, one pair of functions a field.
-/

namespace RsyncWin

open ByteString Codec

/-! ## Entries -/

inductive WireFileType where
  | file | directory | symlink
deriving DecidableEq, Repr

structure RsyncHardLinkGroup where
  device : Nat
  inode : Nat
deriving DecidableEq, Repr

structure RsyncXattrPayload where
  name : Str
  value : Bytes
deriving DecidableEq

structure RsyncFileListMetadata where
  uid : Option Nat := none
  gid : Option Nat := none
  userName : Option Str := none
  groupName : Option Str := none
  atimeUnix : Option Int := none
  crtimeUnix : Option Int := none
  xattrs : List RsyncXattrPayload := []
deriving DecidableEq

structure RsyncFileListEntry where
  path : Bytes
  fileType : WireFileType
  len : Nat
  mtimeUnix : Int
  mode : Nat
  checksum : Option Bytes := none
  hardlinkGroup : Option RsyncHardLinkGroup := none
  metadata : RsyncFileListMetadata := {}
deriving DecidableEq

structure RsyncFileListOptions where
  includeChecksums : Bool := false
  preserveOwner : Bool := false
  preserveGroup : Bool := false
  numericIds : Bool := false
  acls : Bool := false
  xattrs : Bool := false
  fakeSuper : Bool := false
  atimes : Bool := false
  crtimes : Bool := false
deriving DecidableEq, Repr

/-! ## Flags and modes -/

def xmit31TopDir : Nat := 2 ^ 0
def xmit31SameMode : Nat := 2 ^ 1
def xmit31ExtendedFlags : Nat := 2 ^ 2
def xmit31SameUid : Nat := 2 ^ 3
def xmit31SameGid : Nat := 2 ^ 4
def xmit31SameName : Nat := 2 ^ 5
def xmit31LongName : Nat := 2 ^ 6
def xmit31SameTime : Nat := 2 ^ 7
def xmit31Hlinked : Nat := 2 ^ 9
def xmit31UserNameFollows : Nat := 2 ^ 10
def xmit31GroupNameFollows : Nat := 2 ^ 11
def xmit31HlinkFirst : Nat := 2 ^ 12
def xmit31ModNsec : Nat := 2 ^ 13
def xmit31SameAtime : Nat := 2 ^ 14
def xmit31CrtimeEqMtime : Nat := 2 ^ 17

def maxInlineXattrValue : Nat := 32

/-- `flags & bit != 0`. -/
def hasFlag (flags bit : Nat) : Bool := flags &&& bit != 0

/-- `if cond { flags |= bit }`, as a summand. -/
def flagIf (cond : Bool) (bit : Nat) : Nat := if cond then bit else 0

/-- `S_IFMT`: the type bits of a mode. -/
def modeType (mode : Nat) : Nat := mode &&& 0o170000

def fileTypeFromMode (mode : Nat) : Except Error WireFileType :=
  if modeType mode = 0o100000 then .ok .file
  else if modeType mode = 0o040000 then .ok .directory
  else if modeType mode = 0o120000 then .ok .symlink
  else .error (.fileList (.unsupportedMode mode))

/-! ## Wire paths -/

/-- `path.to_string_lossy().replace('\\', "/")`. -/
def wirePathBytes (path : Bytes) : Bytes :=
  (lossyBytes path).map fun b => if b = 0x5c then slash else b

/-- `char::is_control`: the general category `Cc`. -/
def isControl (ch : Char) : Bool :=
  ch.toNat ≤ 0x1f || (0x7f ≤ ch.toNat && ch.toNat ≤ 0x9f)

def isNumberedReservedName (stem pref : List Char) : Bool :=
  stem.take pref.length = pref &&
    ["1", "2", "3", "4", "5", "6", "7", "8", "9"].any fun n =>
      stem.drop pref.length = n.toList

def isReservedWindowsName (component : List Char) : Bool :=
  let stem := component.takeWhile (· ≠ '.')
  let stem := (stem.reverse.dropWhile (· = ' ')).reverse
  let stem := stem.map Char.toUpper
  ["CON", "PRN", "AUX", "NUL"].any (fun name => stem = name.toList) ||
    isNumberedReservedName stem "COM".toList ||
    isNumberedReservedName stem "LPT".toList

def validWireComponent (component : List Char) : Bool :=
  !(component = [] || component = ['.'] || component = ['.', '.']) &&
    !(component.getLast? = some ' ' || component.getLast? = some '.') &&
    !(component.any fun ch =>
      isControl ch || ['<', '>', ':', '"', '|', '?', '*'].contains ch) &&
    !isReservedWindowsName component

def validateWirePath (path : Str) : Except Error Unit :=
  if path.bytes = [dot] then .ok ()
  else if path.chars = [] ∨ path.chars.head? = some '/' then
    .error (.fileList (.unsafePath path.bytes))
  else if (path.chars.splitOn '/').all validWireComponent then .ok ()
  else .error (.fileList (.unsafePath path.bytes))

def wirePathFromBytes (pathBytes : Bytes) : Except Error Bytes :=
  match Str.fromUtf8 pathBytes with
  | none => .error (.fileList .invalidUtf8)
  | some path =>
      if '\\' ∈ path.chars then .error (.fileList (.backslashInPath pathBytes))
      else
        match validateWirePath path with
        | .error e => .error e
        | .ok () => .ok pathBytes

/-- The length of the common prefix, as far as one byte can say. -/
def commonPrefixLen (left right : Bytes) : Nat :=
  (((left.zip right).take 255).takeWhile fun p => p.1 = p.2).length

/-! ## Names, ACL and xattr payloads -/

def writeName (name : Bytes) : Writer Unit := do
  if name.length > 255 then
    throw (.io .invalidInput "protocol 31 user/group name exceeds 255 bytes")
  writeU8 (UInt8.ofNat name.length)
  writeAll name

def readNameBytes : Reader Bytes := do
  let len ← readU8
  readExact len.toNat

def readName : Reader Str := do
  let bytes ← readNameBytes
  match Str.fromUtf8 bytes with
  | some name => pure name
  | none => throw (.fileList .invalidUtf8)

def readIgnoredName : Reader Unit := do
  let _ ← readNameBytes

/-- `"root"`. -/
def rootName : Bytes := [0x72, 0x6f, 0x6f, 0x74]

def writeId0Name (name : Bytes) : Writer Unit := do
  writeVarint 0
  writeName name

/-- Ids with their names up to and including id 0. `fuel` bounds the number of
ids read. -/
def readIdListTerminator : Nat → Reader Unit
  | 0 => throw (.panic "id list fuel")
  | fuel + 1 => do
      let id ← readVarint
      if id = 0 then
        readIgnoredName
      else
        readIgnoredName
        readIdListTerminator fuel

def writeEmptyAcl : Writer Unit := do
  writeVarint 0
  writeU8 0

def writeEmptyAclPayload (fileType : WireFileType) : Writer Unit := do
  writeEmptyAcl
  if fileType = .directory then writeEmptyAcl else pure ()

def readEmptyAclPayload : Reader Unit := do
  let ndx ← readVarint
  if ndx ≠ 0 then
    throw (.io .invalidData s!"unsupported ACL payload index {ndx}")
  let flags ← readU8
  if flags ≠ 0 then
    throw (.io .invalidData s!"unsupported ACL payload flags {flags.toNat}")

def writeXattrName (name : Str) : Writer Unit := do
  writeAll name.bytes
  writeU8 0

def writeXattr (xattr : RsyncXattrPayload) : Writer Unit :=
  if xattr.name.bytes = [] ∨ 0 ∈ xattr.name.bytes then
    throw (.fileList (.invalidXattrName xattr.name.bytes))
  else if xattr.value.length > maxInlineXattrValue then
    throw (.fileList (.xattrValueTooLarge xattr.name.bytes xattr.value.length))
  else do
    writeVarint ((xattr.name.bytes.length + 1) % 2 ^ 32)
    writeVarint (xattr.value.length % 2 ^ 32)
    writeXattrName xattr.name
    writeAll xattr.value

def writeXattrPayload (xattrs : List RsyncXattrPayload) : Writer Unit := do
  writeVarint 0
  writeVarint (xattrs.length % 2 ^ 32)
  xattrs.forM writeXattr

/-- A name and its closing NUL. -/
def readXattrName (nameLen : Nat) : Reader Str :=
  if nameLen = 0 then throw (.fileList (.invalidXattrName []))
  else do
    let nameBytes ← readExact nameLen
    if nameBytes.getLast? ≠ some 0 then throw (.fileList (.invalidXattrName nameBytes))
    else
      match Str.fromUtf8 nameBytes.dropLast with
      | none => throw (.fileList .invalidUtf8)
      | some name => pure name

def readXattr : Reader RsyncXattrPayload := do
  let nameLen ← readVarint
  let valueLen ← readVarint
  let name ← readXattrName nameLen
  let value ← readExact valueLen
  pure ⟨name, value⟩

def readXattrPayload : Reader (List RsyncXattrPayload) := do
  let ndx ← readVarint
  if ndx ≠ 0 then
    throw (.io .invalidData s!"unsupported xattr payload index {ndx}")
  let count ← readVarint
  readTimes readXattr count

def writeAclPayload (entry : RsyncFileListEntry) (options : RsyncFileListOptions) :
    Writer Unit :=
  if options.acls ∧ entry.fileType ≠ .symlink then writeEmptyAclPayload entry.fileType
  else pure ()

def writeRsync31MetadataPayloads (entry : RsyncFileListEntry) (options : RsyncFileListOptions) :
    Writer Unit := do
  writeAclPayload entry options
  if options.xattrs then writeXattrPayload entry.metadata.xattrs else pure ()

def readDirectoryAcl (fileType : WireFileType) : Reader Unit :=
  if fileType = .directory then readEmptyAclPayload else pure ()

def readAclPayload (fileType : WireFileType) (options : RsyncFileListOptions) : Reader Unit :=
  if options.acls ∧ fileType ≠ .symlink then do
    readEmptyAclPayload
    readDirectoryAcl fileType
  else pure ()

def readRsync31MetadataPayloads (fileType : WireFileType) (options : RsyncFileListOptions) :
    Reader (List RsyncXattrPayload) := do
  readAclPayload fileType options
  if options.xattrs ∨ options.fakeSuper then readXattrPayload else pure []

/-! ## The writer -/

structure Rsync31FileListWriter where
  options : RsyncFileListOptions
  lastPath : Bytes := []
  lastMode : Option Nat := none
  lastMtime : Option Int := none
  lastUid : Option Nat := none
  lastGid : Option Nat := none
  lastAtime : Option Int := none
  hardlinkGroups : List (RsyncHardLinkGroup × Nat) := []
  nextIndex : Nat := 0
  finished : Bool := false

namespace Rsync31FileListWriter

def new (options : RsyncFileListOptions) : Rsync31FileListWriter := { options }

/-- What the writer sends for the numbers and times an entry may lack. -/
def uidOf (entry : RsyncFileListEntry) : Nat := entry.metadata.uid.getD 0
def gidOf (entry : RsyncFileListEntry) : Nat := entry.metadata.gid.getD 0
def atimeOf (entry : RsyncFileListEntry) : Int := entry.metadata.atimeUnix.getD entry.mtimeUnix
def crtimeOf (entry : RsyncFileListEntry) : Int := entry.metadata.crtimeUnix.getD entry.mtimeUnix

/-- The hard-link group the writer looks at: only regular files have one. -/
def groupOf (entry : RsyncFileListEntry) : Option RsyncHardLinkGroup :=
  if entry.fileType = .file then entry.hardlinkGroup else none

/-- The index of the group's first entry, when it was sent before. -/
def hardlinkReference (w : Rsync31FileListWriter) (entry : RsyncFileListEntry) : Option Nat :=
  (groupOf entry).bind fun group => List.lookup group w.hardlinkGroups

def recordGroup (w : Rsync31FileListWriter) (entry : RsyncFileListEntry) :
    List (RsyncHardLinkGroup × Nat) :=
  match groupOf entry with
  | none => w.hardlinkGroups
  | some group =>
      match List.lookup group w.hardlinkGroups with
      | some _ => w.hardlinkGroups
      | none => (group, w.nextIndex) :: w.hardlinkGroups

def inheritedLen (w : Rsync31FileListWriter) (entry : RsyncFileListEntry) : Nat :=
  commonPrefixLen w.lastPath (wirePathBytes entry.path)

def suffix (w : Rsync31FileListWriter) (entry : RsyncFileListEntry) : Bytes :=
  (wirePathBytes entry.path).drop (w.inheritedLen entry)

def sameUid (w : Rsync31FileListWriter) (entry : RsyncFileListEntry) : Bool :=
  !w.options.preserveOwner || w.lastUid = some (uidOf entry)

def sameGid (w : Rsync31FileListWriter) (entry : RsyncFileListEntry) : Bool :=
  !w.options.preserveGroup || w.lastGid = some (gidOf entry)

def setFlags (w : Rsync31FileListWriter) (entry : RsyncFileListEntry) : Nat :=
  flagIf (entry.fileType = .directory && components entry.path = [.curDir]) xmit31TopDir |||
  flagIf (groupOf entry).isSome xmit31Hlinked |||
  flagIf ((groupOf entry).isSome && (w.hardlinkReference entry).isNone) xmit31HlinkFirst |||
  flagIf (w.lastMode = some entry.mode) xmit31SameMode |||
  flagIf (w.lastMtime = some entry.mtimeUnix) xmit31SameTime |||
  xmit31ModNsec |||
  flagIf (w.sameUid entry) xmit31SameUid |||
  flagIf (!w.sameUid entry && !w.options.numericIds && entry.metadata.userName.isSome)
    xmit31UserNameFollows |||
  flagIf (w.sameGid entry) xmit31SameGid |||
  flagIf (!w.sameGid entry && !w.options.numericIds && entry.metadata.groupName.isSome)
    xmit31GroupNameFollows |||
  flagIf (w.options.atimes && entry.fileType ≠ .directory && w.lastAtime = some (atimeOf entry))
    xmit31SameAtime |||
  flagIf (w.options.crtimes && crtimeOf entry = entry.mtimeUnix) xmit31CrtimeEqMtime |||
  flagIf (w.inheritedLen entry > 0) xmit31SameName |||
  flagIf ((w.suffix entry).length > 255) xmit31LongName

def entryFlags (w : Rsync31FileListWriter) (entry : RsyncFileListEntry) : Nat :=
  if w.setFlags entry = 0 then xmit31ExtendedFlags else w.setFlags entry

def recordEntryState (w : Rsync31FileListWriter) (entry : RsyncFileListEntry) :
    Rsync31FileListWriter :=
  { w with
    lastPath := wirePathBytes entry.path
    lastMode := some entry.mode
    lastMtime := some entry.mtimeUnix
    lastUid := if w.options.preserveOwner then some (uidOf entry) else w.lastUid
    lastGid := if w.options.preserveGroup then some (gidOf entry) else w.lastGid
    lastAtime :=
      if w.options.atimes ∧ entry.fileType ≠ .directory then some (atimeOf entry) else w.lastAtime
    hardlinkGroups := w.recordGroup entry
    nextIndex := w.nextIndex + 1 }

/-- `u64::try_from` on a time; `message` is the text of the caller. -/
def nonnegativeTime (value : Int) (message : String) : Writer Nat :=
  if 0 ≤ value then pure value.toNat else throw (.io .invalidInput message)

def negativeMtime : String :=
  "negative mtime is not supported by protocol 31 ordinary-file flist writer"

def negativeTimestamp : String := "negative protocol 31 timestamp is not supported"

def writeInherited (flags inherited : Nat) : Writer Unit :=
  if hasFlag flags xmit31SameName then writeU8 (UInt8.ofNat inherited) else pure ()

def writeSuffixLen (flags : Nat) (suffix : Bytes) : Writer Unit :=
  if hasFlag flags xmit31LongName then
    if suffix.length ≥ 2 ^ 32 then throw (.fileList (.pathTooLong suffix.length))
    else writeVarint suffix.length
  else writeU8 (UInt8.ofNat suffix.length)

def writePath (flags inherited : Nat) (suffix : Bytes) : Writer Unit := do
  writeInherited flags inherited
  writeSuffixLen flags suffix
  writeAll suffix

def writeMtime (flags : Nat) (entry : RsyncFileListEntry) : Writer Unit :=
  if hasFlag flags xmit31SameTime then pure ()
  else do
    let mtime ← nonnegativeTime entry.mtimeUnix negativeMtime
    writeVarlong mtime 4

def writeMtimeNsec (flags : Nat) : Writer Unit :=
  if hasFlag flags xmit31ModNsec then writeVarint 0 else pure ()

def writeMode (flags : Nat) (entry : RsyncFileListEntry) : Writer Unit :=
  if hasFlag flags xmit31SameMode then pure () else writeI32Le (toSigned 32 entry.mode)

def writeCrtime (options : RsyncFileListOptions) (flags : Nat) (entry : RsyncFileListEntry) :
    Writer Unit :=
  if options.crtimes ∧ ¬ hasFlag flags xmit31CrtimeEqMtime then do
    let crtime ← nonnegativeTime (crtimeOf entry) negativeTimestamp
    writeVarlong crtime 4
  else pure ()

def writeAtime (options : RsyncFileListOptions) (flags : Nat) (entry : RsyncFileListEntry) :
    Writer Unit :=
  if options.atimes ∧ entry.fileType ≠ .directory ∧ ¬ hasFlag flags xmit31SameAtime then do
    let atime ← nonnegativeTime (atimeOf entry) negativeTimestamp
    writeVarlong atime 4
  else pure ()

def writeId (preserve : Bool) (flags same follows id : Nat) (name : Option Str) : Writer Unit :=
  if preserve ∧ ¬ hasFlag flags same then do
    writeVarint id
    if hasFlag flags follows then writeName (name.elim [] Str.bytes) else pure ()
  else pure ()

def writeChecksum (options : RsyncFileListOptions) (entry : RsyncFileListEntry) : Writer Unit :=
  if options.includeChecksums ∧ entry.fileType = .file then
    match entry.checksum with
    | some checksum => writeAll checksum
    | none => throw (.fileList (.missingChecksum entry.path))
  else pure ()

/-- Everything after the path of an entry that is not a back reference. -/
def writeFields (options : RsyncFileListOptions) (flags : Nat) (entry : RsyncFileListEntry) :
    Writer Unit := do
  writeVarlong entry.len 3
  writeMtime flags entry
  writeMtimeNsec flags
  writeMode flags entry
  writeCrtime options flags entry
  writeAtime options flags entry
  writeId options.preserveOwner flags xmit31SameUid xmit31UserNameFollows (uidOf entry)
    entry.metadata.userName
  writeId options.preserveGroup flags xmit31SameGid xmit31GroupNameFollows (gidOf entry)
    entry.metadata.groupName
  writeChecksum options entry

def writeReference (firstIndex : Nat) : Writer Unit :=
  if firstIndex ≥ 2 ^ 32 then
    throw (.io .invalidInput "hardlink file-list index exceeds protocol 31 varint range")
  else writeVarint firstIndex

def writeBody (w : Rsync31FileListWriter) (flags : Nat) (entry : RsyncFileListEntry) :
    Writer Unit :=
  match w.hardlinkReference entry with
  | some firstIndex => writeReference firstIndex
  | none => writeFields w.options flags entry

/-- An entry behind its flags. -/
def writeFlagged (w : Rsync31FileListWriter) (flags : Nat) (entry : RsyncFileListEntry) :
    Writer Rsync31FileListWriter := do
  writePath flags (w.inheritedLen entry) (w.suffix entry)
  w.writeBody flags entry
  writeRsync31MetadataPayloads entry w.options
  pure (w.recordEntryState entry)

def writeEntry (w : Rsync31FileListWriter) (entry : RsyncFileListEntry) :
    Writer Rsync31FileListWriter := do
  writeVarint (w.entryFlags entry)
  w.writeFlagged (w.entryFlags entry) entry

def writeBatch (w : Rsync31FileListWriter) (entries : List RsyncFileListEntry) :
    Writer Rsync31FileListWriter := do
  if w.finished then
    throw (.io .invalidInput "cannot write entries after finishing file-list")
  entries.foldlM writeEntry w

/-- One of the two id lists behind the entries; `preserve` is its own option. -/
def writeIdList (options : RsyncFileListOptions) (preserve : Bool) : Writer Unit :=
  if ¬ options.numericIds ∧ (preserve ∨ options.acls) then writeId0Name rootName else pure ()

def finish (w : Rsync31FileListWriter) : Writer Rsync31FileListWriter := do
  if w.finished then
    pure w
  else
    writeVarint 0
    writeVarint 0
    writeIdList w.options w.options.preserveOwner
    writeIdList w.options w.options.preserveGroup
    pure { w with finished := true }

end Rsync31FileListWriter

/-- A file list sent in batches. -/
def writeRsync31FileListBatches (options : RsyncFileListOptions)
    (batches : List (List RsyncFileListEntry)) : Writer Unit := do
  let w ← batches.foldlM Rsync31FileListWriter.writeBatch (Rsync31FileListWriter.new options)
  let _w ← w.finish
  pure ()

/-! ## The reader -/

/-- The `last_*` variables of the reading loop. -/
structure FlistReadState where
  lastPath : Bytes := []
  lastMode : Option Nat := none
  lastMtime : Option Int := none
  lastUid : Option Nat := none
  lastGid : Option Nat := none
  lastUserName : Option Str := none
  lastGroupName : Option Str := none
  lastAtime : Option Int := none

/-- The fields of an entry other than its path and its xattrs. -/
structure FlistFields where
  fileType : WireFileType
  len : Nat
  mtime : Int
  mode : Nat
  checksum : Option Bytes
  hardlinkGroup : Option RsyncHardLinkGroup
  metadata : RsyncFileListMetadata

def readInheritedLen (flags : Nat) : Reader Nat :=
  if hasFlag flags xmit31SameName then do
    let byte ← readU8
    pure byte.toNat
  else pure 0

def readInherited (lastPath : Bytes) (flags : Nat) : Reader Nat := do
  let inherited ← readInheritedLen flags
  if inherited > lastPath.length then
    throw (.io .invalidData "file list inherited name prefix exceeds previous path")
  else pure inherited

def readSuffixLen (flags : Nat) : Reader Nat :=
  if hasFlag flags xmit31LongName then readVarint
  else do
    let byte ← readU8
    pure byte.toNat

/-- `bytes[..n]`. -/
def sliceTo (bytes : Bytes) (n : Nat) : Reader Bytes :=
  if n ≤ bytes.length then pure (bytes.take n)
  else throw (.panic s!"range end index {n} out of range for slice of length {bytes.length}")

def readPathRest (maxPathLen : Nat) (lastPath : Bytes) (inherited suffixLen : Nat) :
    Reader Bytes := do
  let totalLen := inherited + suffixLen
  if totalLen > maxPathLen then
    throw (.io .invalidData s!"file path length {totalLen} exceeds limit {maxPathLen}")
  else
    let pathBytes ← sliceTo lastPath inherited
    let rest ← readExact suffixLen
    pure (pathBytes ++ rest)

def readPathBytes (maxPathLen : Nat) (lastPath : Bytes) (flags : Nat) : Reader Bytes := do
  let inherited ← readInherited lastPath flags
  let suffixLen ← readSuffixLen flags
  readPathRest maxPathLen lastPath inherited suffixLen

def i64Max : Nat := 9223372036854775807

def readTime (message : String) : Reader Int := do
  let value ← readVarlong 4
  if value > i64Max then throw (.io .invalidData message) else pure value

def readProtocolTime (field : String) : Reader Int :=
  readTime s!"protocol 31 {field} is outside i64 range"

/-- A value repeated from the last entry, if there is one. -/
def repeated {α : Type} (last : Option α) (field : String) : Reader α :=
  match last with
  | some value => pure value
  | none => throw (.io .invalidData s!"file list repeated {field} without previous value")

def readMtime (st : FlistReadState) (flags : Nat) : Reader Int :=
  if hasFlag flags xmit31SameTime then repeated st.lastMtime "mtime"
  else readTime "protocol 31 mtime is outside i64 range"

def readMtimeNsec (flags : Nat) : Reader Unit :=
  if hasFlag flags xmit31ModNsec then do
    let _mtimeNsec ← readVarint
    pure ()
  else pure ()

def readMode (st : FlistReadState) (flags : Nat) : Reader Nat :=
  if hasFlag flags xmit31SameMode then repeated st.lastMode "mode"
  else do
    let mode ← readI32Le
    pure (ofSigned 32 mode)

def readCrtime (options : RsyncFileListOptions) (flags : Nat) (mtime : Int) :
    Reader (Option Int) :=
  if options.crtimes then
    if hasFlag flags xmit31CrtimeEqMtime then pure (some mtime)
    else do
      let crtime ← readProtocolTime "crtime"
      pure (some crtime)
  else pure none

def readAtime (options : RsyncFileListOptions) (st : FlistReadState) (flags : Nat)
    (fileType : WireFileType) : Reader (Option Int) :=
  if options.atimes ∧ fileType ≠ .directory then
    if hasFlag flags xmit31SameAtime then do
      let atime ← repeated st.lastAtime "atime"
      pure (some atime)
    else do
      let atime ← readProtocolTime "atime"
      pure (some atime)
  else pure none

def readId (preserve : Bool) (flags same follows : Nat) (lastId : Option Nat)
    (lastName : Option Str) : Reader (Option Nat × Option Str) :=
  if preserve then
    if hasFlag flags same then pure (lastId, lastName)
    else do
      let id ← readVarint
      if hasFlag flags follows then
        let name ← readName
        pure (some id, some name)
      else pure (some id, none)
  else if ¬ hasFlag flags same then do
    let _id ← readVarint
    if hasFlag flags follows then
      readIgnoredName
      pure (none, none)
    else pure (none, none)
  else pure (none, none)

def readFileChecksum (options : RsyncFileListOptions) (fileType : WireFileType) :
    Reader (Option Bytes) :=
  if options.includeChecksums ∧ fileType = .file then do
    let checksum ← readExact 16
    pure (some checksum)
  else pure none

/-- `index` is the number of entries read so far. -/
def readFields (options : RsyncFileListOptions) (st : FlistReadState) (flags index : Nat) :
    Reader FlistFields := do
  let len ← readVarlong 3
  let mtime ← readMtime st flags
  readMtimeNsec flags
  let mode ← readMode st flags
  let crtime ← readCrtime options flags mtime
  let fileType ← Prog.ofExcept (fileTypeFromMode mode)
  let atime ← readAtime options st flags fileType
  let user ← readId options.preserveOwner flags xmit31SameUid xmit31UserNameFollows
    st.lastUid st.lastUserName
  let group ← readId options.preserveGroup flags xmit31SameGid xmit31GroupNameFollows
    st.lastGid st.lastGroupName
  let checksum ← readFileChecksum options fileType
  let hardlinkGroup := if hasFlag flags xmit31Hlinked then some ⟨0, index⟩ else none
  pure ⟨fileType, len, mtime, mode, checksum, hardlinkGroup,
    { uid := user.1, gid := group.1, userName := user.2, groupName := group.2,
      atimeUnix := atime, crtimeUnix := crtime }⟩

/-- The fields of a back reference: those of the entry it points to. -/
def readReference (entries : List RsyncFileListEntry) : Reader FlistFields := do
  let firstIndex ← readVarint
  if firstIndex ≥ entries.length then
    throw (.io .invalidData
      s!"hardlink reference {firstIndex} exceeds file-list entries read so far")
  else
    match entries[firstIndex]? with
    | none => throw (.panic s!"index out of bounds: the index is {firstIndex}")
    | some first =>
        let group := first.hardlinkGroup.getD ⟨0, firstIndex⟩
        pure ⟨first.fileType, first.len, first.mtimeUnix, first.mode, first.checksum, some group,
          first.metadata⟩

def readBody (options : RsyncFileListOptions) (entries : List RsyncFileListEntry)
    (st : FlistReadState) (flags : Nat) : Reader FlistFields :=
  if hasFlag flags xmit31Hlinked ∧ ¬ hasFlag flags xmit31HlinkFirst then readReference entries
  else readFields options st flags entries.length

def FlistReadState.after (st : FlistReadState) (options : RsyncFileListOptions)
    (pathBytes : Bytes) (entry : RsyncFileListEntry) : FlistReadState :=
  { lastPath := pathBytes
    lastMtime := some entry.mtimeUnix
    lastMode := some entry.mode
    lastUid := if options.preserveOwner then entry.metadata.uid else st.lastUid
    lastUserName :=
      if options.preserveOwner ∧ entry.metadata.userName.isSome then entry.metadata.userName
      else st.lastUserName
    lastGid := if options.preserveGroup then entry.metadata.gid else st.lastGid
    lastGroupName :=
      if options.preserveGroup ∧ entry.metadata.groupName.isSome then entry.metadata.groupName
      else st.lastGroupName
    lastAtime :=
      if options.atimes ∧ entry.fileType ≠ .directory then entry.metadata.atimeUnix
      else st.lastAtime }

/-- One entry behind its flags. -/
def readEntry (options : RsyncFileListOptions) (maxPathLen : Nat)
    (entries : List RsyncFileListEntry) (st : FlistReadState) (flags : Nat) :
    Reader (RsyncFileListEntry × FlistReadState) := do
  let pathBytes ← readPathBytes maxPathLen st.lastPath flags
  let path ← Prog.ofExcept (wirePathFromBytes pathBytes)
  let fields ← readBody options entries st flags
  let xattrs ← readRsync31MetadataPayloads fields.fileType options
  let entry : RsyncFileListEntry :=
    { path
      fileType := fields.fileType
      len := fields.len
      mtimeUnix := fields.mtime
      mode := fields.mode
      checksum := fields.checksum
      hardlinkGroup := fields.hardlinkGroup
      metadata := { fields.metadata with xattrs } }
  pure (entry, st.after options pathBytes entry)

def readFlistEnd : Reader Unit := do
  let ioError ← readVarint
  if ioError ≠ 0 then
    throw (.io .invalidData s!"remote sender reported file-list I/O error {ioError}")
  else pure ()

/-- The reading loop; `room` is how many more entries fit under `max_entries`. -/
def readEntries (options : RsyncFileListOptions) (maxEntries maxPathLen : Nat) :
    Nat → List RsyncFileListEntry → FlistReadState → Reader (List RsyncFileListEntry)
  | room, entries, st => do
      let flags ← readVarint
      if flags = 0 then
        readFlistEnd
        pure entries
      else
        match room with
        | 0 => throw (.io .invalidData s!"file list entry count exceeds limit {maxEntries}")
        | room + 1 =>
            let (entry, st) ← readEntry options maxPathLen entries st flags
            readEntries options maxEntries maxPathLen room (entries ++ [entry]) st

def readIdList (fuel : Nat) (options : RsyncFileListOptions) (preserve : Bool) : Reader Unit :=
  if ¬ options.numericIds ∧ (preserve ∨ options.acls) then readIdListTerminator fuel else pure ()

def readRsync31FileListWithMetadata (fuel maxEntries maxPathLen : Nat)
    (options : RsyncFileListOptions) : Reader (List RsyncFileListEntry) := do
  let entries ← readEntries options maxEntries maxPathLen maxEntries [] {}
  readIdList fuel options options.preserveOwner
  readIdList fuel options options.preserveGroup
  pure entries

end RsyncWin
