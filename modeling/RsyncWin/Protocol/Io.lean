import RsyncWin.Lib.Codec
import Mathlib.Tactic.IntervalCases

/-!
# Wire integers (`rsync-protocol/src/io.rs`)

The readers and writers every other codec is built from: fixed-width words,
rsync's variable-length `varint`/`varlong`, the stateful file-index code and
counted strings. An `i32` is an `Int` kept in range by the checked operations
of the source; arithmetic that the source leaves unchecked raises `Error.panic`
where it would overflow.
-/

namespace RsyncWin

open ByteString Codec

inductive ErrorKind where
  | invalidData | invalidInput | unexpectedEof | notFound | alreadyExists | other
deriving DecidableEq, Repr

inductive FileListError where
  | invalidFileType (byte : UInt8)
  | invalidUtf8
  | backslashInPath (path : Bytes)
  | unsafePath (path : Bytes)
  | lengthTooLarge (len : Nat)
  | pathTooLong (len : Nat)
  | unsupportedMode (mode : Nat)
  | missingChecksum (path : Bytes)
  | invalidXattrName (name : Bytes)
  | xattrValueTooLarge (name : Bytes) (len : Nat)
deriving DecidableEq, Repr

inductive RemoteSessionError where
  | invalidFileIndex (index : Int) (fileCount : Nat)
  | nonFileBlockRequest (index : Nat)
  | fileChecksumMismatch (path : Bytes)
  | fileLengthExceeded (path : Bytes) (expected actual : Nat)
  | fileLengthShort (path : Bytes) (expected actual : Nat)
  | invalidPhaseAck (index : Int)
  | invalidFinalAck (index : Int)
  | unexpectedToken (token : Int) (path : Bytes)
  | remoteErrorMessage (message : Bytes)
  | unsupportedMultiplexMessage (tag len : Nat)
deriving DecidableEq, Repr

/-- Everything a modelled function can fail with. An I/O error wrapped in one of
the enums above is kept as `io`; `other` is a bare message (`bail!`, `context`);
`panic` is an arithmetic overflow of the source. -/
inductive Error where
  | io (kind : ErrorKind) (message : String)
  | fileList (e : FileListError)
  | session (e : RemoteSessionError)
  | other (message : String)
  | panic (message : String)
deriving DecidableEq, Repr

abbrev Reader (α : Type) := Rd Error α
abbrev Writer (α : Type) := Wr Error α

def i32Max : Nat := 2147483647
def u16Max : Nat := 65535
def u64Max : Nat := 18446744073709551615

def IsI32 (v : Int) : Prop := -2147483648 ≤ v ∧ v ≤ 2147483647

/-- `checked_*` on `i32`: the exact result when it is in range. -/
def checkedI32 (v : Int) : Option Int :=
  if -2147483648 ≤ v ∧ v ≤ 2147483647 then some v else none

/-! ## Fixed-width words -/

def readU8 : Reader UInt8 := do
  let buf ← readExact 1
  pure (buf.headD 0)

def writeU8 (value : UInt8) : Writer Unit := writeAll [value]

def readU16Le : Reader Nat := do
  let buf ← readExact 2
  pure (leNat buf)

def writeU16Le (value : Nat) : Writer Unit := writeAll (leBytes 2 value)

def readI32Le : Reader Int := do
  let buf ← readExact 4
  pure (toSigned 32 (leNat buf))

def writeI32Le (value : Int) : Writer Unit := writeAll (leBytes 4 (ofSigned 32 value))

def readU32Le : Reader Nat := do
  let buf ← readExact 4
  pure (leNat buf)

def writeU32Le (value : Nat) : Writer Unit := writeAll (leBytes 4 value)

def readI64Le : Reader Int := do
  let buf ← readExact 8
  pure (toSigned 64 (leNat buf))

def writeI64Le (value : Int) : Writer Unit := writeAll (leBytes 8 (ofSigned 64 value))

/-! ## Variable-length integers -/

def varintExtraBytes (first : UInt8) : Nat :=
  if first.toNat ≤ 0x7f then 0
  else if first.toNat ≤ 0xbf then 1
  else if first.toNat ≤ 0xdf then 2
  else if first.toNat ≤ 0xef then 3
  else if first.toNat ≤ 0xf7 then 4
  else if first.toNat ≤ 0xfb then 5
  else 6

/-- `1_u8 << n`, for the shift amounts below 8 that the codecs use. -/
def bitU8 (n : Nat) : UInt8 := UInt8.ofNat (2 ^ n)

def readVarint : Reader Nat := do
  let first ← readU8
  let extra := varintExtraBytes first
  if extra > 4 then
    throw (.io .invalidData "rsync varint exceeds u32 width")
  if extra = 0 then
    pure first.toNat
  else
    let bytes ← readExact extra
    let bit := bitU8 (8 - extra)
    pure (leNat ((bytes ++ [first &&& (bit - 1)]).take 4))

/-- `while count > min && bytes[count] == 0 { count -= 1 }`. -/
def trimCount (bytes : Bytes) (min : Nat) : Nat → Nat
  | 0 => 0
  | count + 1 =>
      if min < count + 1 ∧ bytes.getD (count + 1) 0 = 0 then trimCount bytes min count
      else count + 1

def usizeSub (a b : Nat) : Writer Nat :=
  if b ≤ a then pure (a - b) else throw (.panic "attempt to subtract with overflow")

/-- The common body of `write_varint` and `write_varlong`: `bytes` is the value
behind one free byte, `width` its size; the free byte takes the length marker
and, when it fits there, the top byte of the value. -/
def writeVarBytes (bytes : Bytes) (width minBytes : Nat) : Writer Unit := do
  let count := trimCount bytes minBytes width
  let shift ← usizeSub 7 count
  let bit := bitU8 (shift + minBytes)
  if bit ≤ bytes.getD count 0 then
    writeAll ((bytes.set 0 (~~~(bit - 1))).take (count + 1))
  else if count > minBytes then
    writeAll ((bytes.set 0 (bytes.getD count 0 ||| ~~~(bit * 2 - 1))).take count)
  else
    writeAll ((bytes.set 0 (bytes.getD count 0)).take count)

def varintOverflow : Error :=
  .io .invalidInput "rsync varint value exceeds non-negative i32 range"

def writeVarint (value : Nat) : Writer Unit := do
  if value > i32Max then
    throw varintOverflow
  writeVarBytes (0 :: leBytes 4 value) 4 1

def readVarlong (minBytes : Nat) : Reader Nat := do
  if ¬ (1 ≤ minBytes ∧ minBytes ≤ 8) then
    throw (.io .invalidInput "rsync varlong min_bytes must be in 1..=8")
  let pref ← readExact minBytes
  let first := pref.headD 0
  let extra := varintExtraBytes first
  if minBytes + extra > 8 then
    throw (.io .invalidData "rsync varlong exceeds u64 width")
  if extra = 0 then
    pure (leNat (pref.tail ++ [first]))
  else
    let more ← readExact extra
    let bit := bitU8 (8 - extra)
    pure (leNat (pref.tail ++ more ++ [first &&& (bit - 1)]))

def writeVarlong (value minBytes : Nat) : Writer Unit := do
  if ¬ (1 ≤ minBytes ∧ minBytes ≤ 8) then
    throw (.io .invalidInput "rsync varlong min_bytes must be in 1..=8")
  writeVarBytes (0 :: leBytes 8 value) 8 minBytes

/-! ## File indices -/

def rsyncIndexDone : Int := -1
def rsyncIndexFlistEof : Int := -2
def rsyncIndexFlistOffset : Int := -101

structure RsyncIndexState where
  prevPositive : Int := -1
  prevNegative : Int := 1
deriving DecidableEq, Repr

def indexDeltaOverflow : Error := .io .invalidData "rsync index delta overflow"

/-- The number behind a marker byte: a delta of one or two bytes on `prev`, or
a full number of which only the top bit is borrowed as a tag. -/
def readIndexNumber (prev : Int) (byte : UInt8) : Reader Int := do
  if byte = 0xfe then
    let highOrDiff ← readU8
    let lowOrAbsolute ← readU8
    if highOrDiff &&& 0x80 ≠ 0 then
      let middle ← readExact 2
      pure (toSigned 32 (leNat ([lowOrAbsolute] ++ middle ++ [highOrDiff &&& ~~~0x80])))
    else
      let diff := highOrDiff.toNat * 256 + lowOrAbsolute.toNat
      match checkedI32 (prev + diff) with
      | some number => pure number
      | none => throw indexDeltaOverflow
  else
    match checkedI32 (prev + byte.toNat) with
    | some number => pure number
    | none => throw indexDeltaOverflow

def readRsyncIndex (state : RsyncIndexState) : Reader (Int × RsyncIndexState) := do
  let byte ← readU8
  if byte = 0xff then
    let byte ← readU8
    let number ← readIndexNumber state.prevNegative byte
    match checkedI32 (-number) with
    | some index => pure (index, { state with prevNegative := number })
    | none => throw (.io .invalidData "rsync negative index overflow")
  else if byte = 0 then
    pure (rsyncIndexDone, state)
  else
    let number ← readIndexNumber state.prevPositive byte
    pure (number, { state with prevPositive := number })

/-- The bytes after the sign marker: a small difference, the full number, or a
two-byte difference. -/
def writeIndexNumber (number diff : Int) : Writer Unit := do
  if diff < 0xfe ∧ diff > 0 then
    writeU8 (UInt8.ofNat diff.toNat)
  else if ¬ (0 ≤ diff ∧ diff ≤ 0x7fff) then
    let bytes := leBytes 4 (ofSigned 32 number)
    writeU8 0xfe
    writeU8 (bytes.getD 3 0 ||| 0x80)
    writeU8 (bytes.getD 0 0)
    writeU8 (bytes.getD 1 0)
    writeU8 (bytes.getD 2 0)
  else
    writeU8 0xfe
    writeU8 (UInt8.ofNat (diff.toNat / 256))
    writeU8 (UInt8.ofNat diff.toNat)

def writeRsyncIndex (state : RsyncIndexState) (index : Int) : Writer RsyncIndexState := do
  if index ≥ 0 then
    match checkedI32 (index - state.prevPositive) with
    | none => throw (.io .invalidInput "rsync index underflow")
    | some diff =>
        writeIndexNumber index diff
        pure { state with prevPositive := index }
  else if index = rsyncIndexDone then
    writeU8 0
    pure state
  else
    match checkedI32 (-index) with
    | none => throw (.io .invalidInput "rsync index overflow")
    | some number =>
        match checkedI32 (number - state.prevNegative) with
        | none => throw (.io .invalidInput "rsync index underflow")
        | some diff =>
            writeU8 0xff
            writeIndexNumber number diff
            pure { state with prevNegative := number }

/-! ## Counted strings -/

def readBytesWithU32Len (maxLen : Nat) : Reader Bytes := do
  let len ← readU32Le
  if len > maxLen then
    throw (.io .invalidData s!"wire byte string length {len} exceeds limit {maxLen}")
  readExact len

def writeBytesWithU32Len (bytes : Bytes) : Writer Unit := do
  if bytes.length ≥ 4294967296 then
    throw (.io .invalidInput "wire byte string is too large for a u32 length")
  writeU32Le bytes.length
  writeAll bytes

def readVstring (maxLen : Nat) : Reader Bytes := do
  let first ← readU8
  let len ←
    if first &&& 0x80 ≠ 0 then do
      let second ← readU8
      pure ((first &&& ~~~0x80).toNat * 0x100 + second.toNat)
    else
      pure first.toNat
  if len > maxLen then
    throw (.io .invalidData s!"rsync vstring length {len} exceeds limit {maxLen}")
  readExact len

def writeVstring (bytes : Bytes) : Writer Unit := do
  if bytes.length > 0x7fff then
    throw (.io .invalidInput "rsync vstring is too large")
  if bytes.length ≥ 0x80 then
    writeU8 (UInt8.ofNat (bytes.length / 0x100) ||| 0x80)
  writeU8 (UInt8.ofNat (bytes.length % 0x100))
  writeAll bytes

/-! ## Fixed-width round trips -/

theorem decodes_readU8 (b : UInt8) : Decodes readU8 [b] b := by
  have h : Decodes (readExact 1 : Reader Bytes) [b] [b] := decodes_readExact rfl
  exact h.bind_ret rfl

theorem decodes_readI32Le {v : Int} (hlo : -2147483648 ≤ v) (hhi : v ≤ 2147483647) :
    Decodes readI32Le (leBytes 4 (ofSigned 32 v)) v := by
  refine (decodes_readExact (leBytes_length 4 _)).bind_ret ?_
  have hlt : ofSigned 32 v < 256 ^ 4 := ofSigned_lt 32 v
  have hv := toSigned_ofSigned (w := 32) (v := v) (by norm_num) (by norm_num; omega)
    (by norm_num; omega)
  rw [leNat_leBytes, Nat.mod_eq_of_lt hlt, hv]
  rfl

theorem writes_writeI32Le (v : Int) :
    Writes (writeI32Le v) [leBytes 4 (ofSigned 32 v)] () :=
  writes_writeAll _

end RsyncWin
