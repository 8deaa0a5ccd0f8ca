import RsyncWin.Protocol.Flist
import RsyncWin.Protocol.IoCodec
import RsyncWin.Transfer.Local

/-!
# Sum heads and item attributes (`rsync-cli/src/transfer/sum_head.rs`)

A sum head describes how a basis file was cut into blocks; block indices travel
as negative tokens. A `usize` is 64 bits wide.
-/

namespace RsyncWin

open ByteString Codec Duplex

def usizeMax : Nat := 18446744073709551615

def rsyncItemBasisTypeFollows : Nat := 2 ^ 11
def rsyncItemXnameFollows : Nat := 2 ^ 12
def rsyncItemIsNew : Nat := 2 ^ 13
def rsyncItemLocalChange : Nat := 2 ^ 14
def rsyncItemTransfer : Nat := 2 ^ 15

structure RemoteSumHead where
  blockCount : Nat
  blockLen : Nat
  checksumLen : Nat
  remainder : Nat
deriving DecidableEq, Repr

structure Rsync31ItemAttrs where
  basisType : Option UInt8 := none
  xname : Option Bytes := none
deriving DecidableEq, Repr

def readBasisType (iflags : Nat) : Reader (Option UInt8) :=
  if hasFlag iflags rsyncItemBasisTypeFollows then do
    let basisType ← readU8
    pure (some basisType)
  else pure none

def readXname (iflags : Nat) : Reader (Option Bytes) :=
  if hasFlag iflags rsyncItemXnameFollows then do
    let xname ← readVstring (32 * 1024)
    pure (some xname)
  else pure none

def readRsync31OptionalItemAttrs (iflags : Nat) : Reader Rsync31ItemAttrs := do
  let basisType ← readBasisType iflags
  let xname ← readXname iflags
  pure ⟨basisType, xname⟩

def writeBasisType (iflags : Nat) (attrs : Rsync31ItemAttrs) : Writer Unit :=
  if hasFlag iflags rsyncItemBasisTypeFollows then
    match attrs.basisType with
    | some basisType => writeAll [basisType]
    | none => throw (.other "protocol 31 item flags omitted basis type attribute")
  else pure ()

def writeXname (iflags : Nat) (attrs : Rsync31ItemAttrs) : Writer Unit :=
  if hasFlag iflags rsyncItemXnameFollows then
    match attrs.xname with
    | some xname => writeVstring xname
    | none => throw (.other "protocol 31 item flags omitted xname attribute")
  else pure ()

def writeRsync31OptionalItemAttrs (iflags : Nat) (attrs : Rsync31ItemAttrs) : Writer Unit := do
  writeBasisType iflags attrs
  writeXname iflags attrs

def readNonnegativeI32 (label : String) : Reader Nat := do
  let value ← readI32Le
  if value < 0 then
    throw (.other s!"remote sent negative {label}: {value}")
  else pure value.toNat

def readSumHead : Reader RemoteSumHead := do
  let blockCount ← readNonnegativeI32 "block count"
  let blockLen ← readNonnegativeI32 "block length"
  let checksumLen ← readNonnegativeI32 "checksum length"
  let remainder ← readNonnegativeI32 "remainder length"
  pure ⟨blockCount, blockLen, checksumLen, remainder⟩

/-- `value as i32`. -/
def asI32 (value : Nat) : Int := toSigned 32 (value % 2 ^ 32)

def writeSumHead (sumHead : RemoteSumHead) : Writer Unit := do
  writeI32Le (asI32 sumHead.blockCount)
  writeI32Le (asI32 sumHead.blockLen)
  writeI32Le (asI32 sumHead.checksumLen)
  writeI32Le (asI32 sumHead.remainder)

def remoteSumHeadFileLen (sumHead : RemoteSumHead) : Except Error Nat :=
  if sumHead.blockCount = 0 then .ok 0
  else if sumHead.blockLen = 0 then .error (.other "append basis sum head has zero block length")
  else if sumHead.remainder > sumHead.blockLen then
    .error (.other "append basis sum head has a remainder larger than its block length")
  else if sumHead.blockCount * sumHead.blockLen > usizeMax then
    .error (.other "append basis length overflow")
  else if sumHead.remainder = 0 then .ok (sumHead.blockCount * sumHead.blockLen)
  else if sumHead.blockCount * sumHead.blockLen < sumHead.blockLen - sumHead.remainder then
    .error (.other "append basis length underflow")
  else .ok (sumHead.blockCount * sumHead.blockLen - (sumHead.blockLen - sumHead.remainder))

def validateSumHead (sumHead : RemoteSumHead) : Except Error Unit :=
  if sumHead.blockCount > 0 ∧ sumHead.blockLen = 0 then
    .error (.other "remote sum head has a zero block length")
  else if sumHead.remainder > sumHead.blockLen ∧ sumHead.blockCount > 0 then
    .error (.other "remote sum head has a remainder larger than its block length")
  else .ok ()

/-- Offset and length of a block in the basis file. -/
def blockSpan (sumHead : RemoteSumHead) (blockIndex : Nat) : Except Error (Nat × Nat) :=
  match validateSumHead sumHead with
  | .error e => .error e
  | .ok () =>
      if blockIndex ≥ sumHead.blockCount then
        .error (.other s!"copy token references missing basis block {blockIndex}")
      else if blockIndex * sumHead.blockLen > usizeMax then
        .error (.other "basis block offset overflow")
      else
        let isLast := blockIndex + 1 = sumHead.blockCount
        let len := if isLast ∧ sumHead.remainder ≠ 0 then sumHead.remainder else sumHead.blockLen
        .ok (blockIndex * sumHead.blockLen, len)

/-- A block that can be asked for is not empty. -/
theorem blockSpan_pos {sumHead : RemoteSumHead} {blockIndex offset len : Nat}
    (h : blockSpan sumHead blockIndex = .ok (offset, len)) : 0 < len := by
  unfold blockSpan validateSumHead at h
  split at h
  · cases h
  · rename_i hvalid
    split at hvalid
    · cases hvalid
    · split at h
      · cases h
      · split at h
        · cases h
        · obtain ⟨-, rfl⟩ := Prod.mk.inj (Except.ok.inj h)
          split <;> omega

def blockIndexToCopyToken (blockIndex : Nat) : Except Error Int :=
  if blockIndex > i32Max then .error (.other "basis block index exceeded i32 range")
  else
    match (checkedI32 ((blockIndex : Int) + 1)).bind fun value => checkedI32 (-value) with
    | some token => .ok token
    | none => .error (.other "basis block token overflow")

def copyTokenToBlockIndex (token : Int) : Except Error Nat :=
  if token ≥ 0 then .error (.other "copy token must be negative")
  else
    match (checkedI32 (-token)).bind fun value => checkedI32 (value - 1) with
    | some raw =>
        if raw < 0 then .error (.other "copy token block index did not fit usize")
        else .ok raw.toNat
    | none => .error (.other "copy token overflow")

/-! ## Round trips -/

theorem asI32_of_le {n : Nat} (h : n ≤ i32Max) : asI32 n = n := by
  unfold i32Max at h
  unfold asI32
  rw [Nat.mod_eq_of_lt (by omega)]
  exact toSigned_of_lt (by norm_num; omega)

theorem roundTrips_nonnegativeI32 {n : Nat} (h : n ≤ i32Max) (label : String) :
    RoundTrips (writeI32Le (asI32 n)) () (readNonnegativeI32 label) n := by
  unfold i32Max at h
  rw [asI32_of_le (by unfold i32Max; omega)]
  refine (roundTrips_i32Le (by omega) (by omega)).bind_read ?_
  have hn : ¬ (n : Int) < 0 := by omega
  simp [hn]

/-- A sum head whose fields fit `i32` survives the wire. -/
structure RemoteSumHead.Fits (sumHead : RemoteSumHead) : Prop where
  blockCount : sumHead.blockCount ≤ i32Max
  blockLen : sumHead.blockLen ≤ i32Max
  checksumLen : sumHead.checksumLen ≤ i32Max
  remainder : sumHead.remainder ≤ i32Max

theorem roundTrips_sumHead {sumHead : RemoteSumHead} (h : sumHead.Fits) :
    RoundTrips (writeSumHead sumHead) () readSumHead sumHead :=
  (roundTrips_nonnegativeI32 h.blockCount _).bind
    ((roundTrips_nonnegativeI32 h.blockLen _).bind
      ((roundTrips_nonnegativeI32 h.checksumLen _).bind
        ((roundTrips_nonnegativeI32 h.remainder _).bind_read rfl)))

theorem blockIndexToCopyToken_eq {i : Nat} (h : i < i32Max) :
    blockIndexToCopyToken i = .ok (-(i : Int) - 1) := by
  unfold i32Max at h
  have h1 : ¬ i > i32Max := by unfold i32Max; omega
  have h2 : checkedI32 ((i : Int) + 1) = some ((i : Int) + 1) := if_pos (by omega)
  have h3 : checkedI32 (-((i : Int) + 1)) = some (-((i : Int) + 1)) := if_pos (by omega)
  unfold blockIndexToCopyToken
  rw [if_neg h1, h2, Option.bind_some, h3]
  have e : -((i : Int) + 1) = -(i : Int) - 1 := by omega
  exact congrArg Except.ok e

theorem copyTokenToBlockIndex_eq {i : Nat} (h : i < i32Max) :
    copyTokenToBlockIndex (-(i : Int) - 1) = .ok i := by
  unfold i32Max at h
  have h1 : ¬ (-(i : Int) - 1) ≥ 0 := by omega
  have h2 : checkedI32 (-(-(i : Int) - 1)) = some ((i : Int) + 1) := by
    have e : -(-(i : Int) - 1) = (i : Int) + 1 := by omega
    rw [e]
    exact if_pos (by omega)
  have h3 : checkedI32 ((i : Int) + 1 - 1) = some (i : Int) := by
    have e : (i : Int) + 1 - 1 = (i : Int) := by omega
    rw [e]
    exact if_pos (by omega)
  have h4 : ¬ (i : Int) < 0 := by omega
  unfold copyTokenToBlockIndex
  rw [if_neg h1, h2, Option.bind_some, h3]
  simp [h4]

end RsyncWin
