import RsyncWin.Protocol.FlistSafety
import RsyncWin.Protocol.IoCodec

/-!
# Variable-length integers with every trap (`rsync-protocol/src/io.rs`)

The four functions once more, statement by statement, with each subtraction, shift,
multiplication, index and slice checked. The readers never trap, nor does `write_varint`;
`write_varlong` traps when all eight bytes are needed, and where none is left for the marker
the reader takes something else.
-/

namespace RsyncWin

open ByteString Codec

/-! ## Operations that can trap -/

namespace Checked

section Operations

variable {S : Sig}

def sub (a b : Nat) : Prog S Error Nat :=
  if b ≤ a then pure (a - b) else throw (.panic "attempt to subtract with overflow")

/-- `1_u8 << n`. -/
def bit (n : Nat) : Prog S Error UInt8 :=
  if n < 8 then pure (bitU8 n) else throw (.panic "attempt to shift left with overflow")

def subU8 (a b : UInt8) : Prog S Error UInt8 :=
  if b ≤ a then pure (a - b) else throw (.panic "attempt to subtract with overflow")

def mulU8 (a b : UInt8) : Prog S Error UInt8 :=
  if a.toNat * b.toNat < 256 then pure (a * b)
  else throw (.panic "attempt to multiply with overflow")

def byteAt (bytes : Bytes) (i : Nat) : Prog S Error UInt8 :=
  if i < bytes.length then pure (bytes.getD i 0) else throw (.panic "index out of bounds")

def putByte (bytes : Bytes) (i : Nat) (byte : UInt8) : Prog S Error Bytes :=
  if i < bytes.length then pure (bytes.set i byte) else throw (.panic "index out of bounds")

/-- `&bytes[start..stop]`. -/
def slice (bytes : Bytes) (start stop : Nat) : Prog S Error Bytes :=
  if start ≤ stop ∧ stop ≤ bytes.length then pure ((bytes.take stop).drop start)
  else throw (.panic "range out of bounds")

/-- `bytes[start..stop].copy_from_slice(piece)`. -/
def copyFromSlice (bytes : Bytes) (start stop : Nat) (piece : Bytes) : Prog S Error Bytes :=
  if start ≤ stop ∧ stop ≤ bytes.length ∧ piece.length = stop - start then
    pure (bytes.take start ++ piece ++ bytes.drop stop)
  else throw (.panic "range out of bounds")

end Operations

/-- `read_exact(&mut bytes[start..stop])`. -/
def readInto (bytes : Bytes) (start stop : Nat) : Reader Bytes := do
  let old ← slice bytes start stop
  let piece ← readExact old.length
  copyFromSlice bytes start stop piece

/-! ## The four functions -/

def readVarint : Reader Nat := do
  let first ← readU8
  let extra := varintExtraBytes first
  if extra > 4 then throw (.io .invalidData "rsync varint exceeds u32 width")
  else do
    let bytes ←
      if extra = 0 then putByte (List.replicate 5 0) 0 first
      else do
        let bytes ← readInto (List.replicate 5 0) 0 extra
        let shift ← sub 8 extra
        let bit ← bit shift
        let mask ← subU8 bit 1
        putByte bytes extra (first &&& mask)
    let low ← [0, 1, 2, 3].mapM (byteAt bytes)
    pure (leNat low)

def readVarlong (minBytes : Nat) : Reader Nat :=
  if ¬ (1 ≤ minBytes ∧ minBytes ≤ 8) then
    throw (.io .invalidInput "rsync varlong min_bytes must be in 1..=8")
  else do
    let pref ← readExact minBytes
    let first ← byteAt pref 0
    let extra := varintExtraBytes first
    if minBytes + extra > 8 then throw (.io .invalidData "rsync varlong exceeds u64 width")
    else do
      let tail ← slice pref 1 pref.length
      let fixed ← sub minBytes 1
      let bytes ← copyFromSlice (List.replicate 8 0) 0 fixed tail
      if extra = 0 then do
        let last ← sub minBytes 1
        let bytes ← putByte bytes last first
        pure (leNat bytes)
      else do
        let start ← sub minBytes 1
        let bytes ← readInto bytes start (start + extra)
        let shift ← sub 8 extra
        let bit ← bit shift
        let mask ← subU8 bit 1
        let last ← sub (minBytes + extra) 1
        let bytes ← putByte bytes last (first &&& mask)
        pure (leNat bytes)

/-- `while count > min && bytes[count] == 0 { count -= 1 }`. -/
def trimCount (bytes : Bytes) (min : Nat) : Nat → Writer Nat
  | 0 => pure 0
  | count + 1 =>
      if min < count + 1 then do
        let byte ← byteAt bytes (count + 1)
        if byte = 0 then trimCount bytes min count else pure (count + 1)
      else pure (count + 1)

/-- What `write_varint` and `write_varlong` do behind their guards. -/
def writeVarBytes (value : Bytes) (minBytes : Nat) : Writer Unit := do
  let width := value.length
  let bytes ← copyFromSlice (List.replicate (width + 1) 0) 1 (width + 1) value
  let count ← trimCount bytes minBytes width
  let room ← sub 7 count
  let bit ← bit (room + minBytes)
  let top ← byteAt bytes count
  let (bytes, count) ←
    if bit ≤ top then do
      let mask ← subU8 bit 1
      let bytes ← putByte bytes 0 (~~~mask)
      pure (bytes, count + 1)
    else if count > minBytes then do
      let double ← mulU8 bit 2
      let mask ← subU8 double 1
      let bytes ← putByte bytes 0 (top ||| ~~~mask)
      pure (bytes, count)
    else do
      let bytes ← putByte bytes 0 top
      pure (bytes, count)
  let out ← slice bytes 0 count
  writeAll out

def writeVarint (value : Nat) : Writer Unit :=
  if value > i32Max then throw varintOverflow
  else writeVarBytes (leBytes 4 value) 1

def writeVarlong (value minBytes : Nat) : Writer Unit :=
  if ¬ (1 ≤ minBytes ∧ minBytes ≤ 8) then
    throw (.io .invalidInput "rsync varlong min_bytes must be in 1..=8")
  else writeVarBytes (leBytes 8 value) minBytes

/-! ## Where no operation traps -/

section Laws

variable {S : Sig} {bytes : Bytes} {i j : Nat}

theorem sub_of_le {a b : Nat} (h : b ≤ a) : (sub a b : Prog S Error Nat) = .ret (a - b) := if_pos h

theorem bit_of_lt {n : Nat} (h : n < 8) : (bit n : Prog S Error UInt8) = .ret (bitU8 n) := if_pos h

theorem subU8_one {n : Nat} (h : n < 8) :
    (subU8 (bitU8 n) 1 : Prog S Error UInt8) = .ret (bitU8 n - 1) := by
  refine if_pos ?_
  rw [UInt8.le_iff_toNat_le, bitU8_toNat h]
  exact Nat.one_le_two_pow

theorem byteAt_of_lt (h : i < bytes.length) :
    (byteAt bytes i : Prog S Error UInt8) = .ret (bytes.getD i 0) := if_pos h

theorem putByte_of_lt (h : i < bytes.length) (byte : UInt8) :
    (putByte bytes i byte : Prog S Error Bytes) = .ret (bytes.set i byte) := if_pos h

theorem slice_of_le (hij : i ≤ j) (hj : j ≤ bytes.length) :
    (slice bytes i j : Prog S Error Bytes) = .ret ((bytes.take j).drop i) := if_pos ⟨hij, hj⟩

theorem copyFromSlice_of_le {piece : Bytes} (hij : i ≤ j) (hj : j ≤ bytes.length)
    (hlen : piece.length = j - i) : (copyFromSlice bytes i j piece : Prog S Error Bytes) =
      .ret (bytes.take i ++ piece ++ bytes.drop j) := if_pos ⟨hij, hj, hlen⟩

end Laws

/-- Zeros behind the bytes of a number do not count. -/
theorem leNat_append_zeros (bytes : Bytes) (n : Nat) :
    leNat (bytes ++ List.replicate n 0) = leNat bytes := by
  have hzero : leNat (List.replicate n 0) = 0 := by
    induction n with
    | zero => rfl
    | succ n ih =>
        rw [List.replicate_succ, leNat, ih]
        rfl
  rw [leNat_append, hzero, Nat.mul_zero, Nat.add_zero]

theorem length_of_run_readExact {n : Nat} {inp piece rest : Bytes}
    (h : (readExact n : Reader Bytes).run buffer inp = .ret piece rest) : piece.length = n := by
  obtain ⟨bytes, left, -, hlen, hrun⟩ := run_call_ret h
  obtain ⟨rfl, -⟩ : bytes = piece ∧ left = rest := by simpa using hrun
  exact hlen

theorem run_readInto {inp bytes : Bytes} {start stop : Nat} (hle : start ≤ stop)
    (hstop : stop ≤ bytes.length) (k : Bytes → Reader Nat) :
    (readInto bytes start stop >>= k).run buffer inp =
      ((readExact (stop - start) : Reader Bytes) >>= fun piece =>
        k (bytes.take start ++ piece ++ bytes.drop stop)).run buffer inp := by
  have hold : ((bytes.take stop).drop start).length = stop - start := by
    rw [List.length_drop, List.length_take_of_le hstop]
  unfold readInto
  rw [slice_of_le hle hstop, Prog.ret_bind, Prog.bind_assoc, hold]
  refine Prog.run_bind_congr fun piece rest hread => ?_
  rw [copyFromSlice_of_le hle hstop (length_of_run_readExact hread), Prog.ret_bind]

/-- A byte in front of zeros. -/
theorem set_append_zeros {piece : Bytes} {n : Nat} (hn : 0 < n) (byte : UInt8) :
    (piece ++ List.replicate n 0).set piece.length byte =
      piece ++ [byte] ++ List.replicate (n - 1) 0 := by
  obtain ⟨m, rfl⟩ : ∃ m, n = m + 1 := ⟨n - 1, by omega⟩
  rw [List.set_append_right _ _ (le_refl _), Nat.sub_self, List.replicate_succ, List.set_cons_zero,
    List.append_assoc]
  rfl

theorem mapM_low {S : Sig} {bytes : Bytes} (h : 4 ≤ bytes.length) :
    ([0, 1, 2, 3].mapM (byteAt bytes) : Prog S Error Bytes) = .ret (bytes.take 4) := by
  obtain ⟨a, b, c, d, rest, rfl⟩ : ∃ a b c d rest, bytes = a :: b :: c :: d :: rest := by
    match bytes, h with
    | a :: b :: c :: d :: rest, _ => exact ⟨a, b, c, d, rest, rfl⟩
  rfl

theorem leNat_take_zeros (bytes : Bytes) (n : Nat) :
    leNat ((bytes ++ List.replicate n 0).take 4) = leNat (bytes.take 4) := by
  rw [List.take_append, List.take_replicate, leNat_append_zeros]

/-! ## The readers -/

theorem varintExtraBytes_le (first : UInt8) : varintExtraBytes first ≤ 6 := by
  unfold varintExtraBytes
  split_ifs <;> decide

theorem run_readVarint (inp : Bytes) :
    readVarint.run buffer inp = RsyncWin.readVarint.run buffer inp := by
  unfold readVarint RsyncWin.readVarint
  refine Prog.run_bind_congr fun first rest _ => ?_
  dsimp only
  by_cases hlong : varintExtraBytes first > 4
  · rw [if_pos hlong, if_pos hlong]
    rfl
  · rw [if_neg hlong, if_neg hlong]
    simp only [Prog.pure_eq]
    by_cases hzero : varintExtraBytes first = 0
    · rw [if_pos hzero, if_pos hzero, putByte_of_lt (by simp), Prog.ret_bind,
        mapM_low (by simp), Prog.ret_bind]
      simp [leNat]
    · rw [if_neg hzero, if_neg hzero,
        run_readInto (Nat.zero_le _) (by rw [List.length_replicate]; omega)]
      refine Prog.run_bind_congr fun piece rest hread => ?_
      have hlen : piece.length = varintExtraBytes first := length_of_run_readExact hread
      have hbytes : (List.replicate 5 (0 : UInt8)).take 0 ++ piece ++
          (List.replicate 5 (0 : UInt8)).drop (varintExtraBytes first) =
            piece ++ List.replicate (5 - varintExtraBytes first) 0 := by
        rw [List.take_zero, List.nil_append, List.drop_replicate]
      rw [hbytes, sub_of_le (by omega), Prog.ret_bind, bit_of_lt (by omega), Prog.ret_bind,
        subU8_one (by omega), Prog.ret_bind, putByte_of_lt (by simp; omega), Prog.ret_bind, ← hlen,
        set_append_zeros (by omega), mapM_low (by simp; omega), Prog.ret_bind, leNat_take_zeros]

theorem run_readVarlong {minBytes : Nat} (hmin : 1 ≤ minBytes) (hmax : minBytes ≤ 8) (inp : Bytes) :
    (readVarlong minBytes).run buffer inp = (RsyncWin.readVarlong minBytes).run buffer inp := by
  have hguard : ¬ ¬ (1 ≤ minBytes ∧ minBytes ≤ 8) := fun h => h ⟨hmin, hmax⟩
  unfold readVarlong RsyncWin.readVarlong
  rw [if_neg hguard, if_neg hguard]
  simp only [Prog.pure_eq]
  refine Prog.run_bind_congr fun pref rest hread => ?_
  have hpref : pref.length = minBytes := length_of_run_readExact hread
  obtain ⟨first, tail, rfl⟩ := List.exists_cons_of_length_pos (by omega : 0 < pref.length)
  rw [List.length_cons] at hpref
  rw [byteAt_of_lt (by simp), Prog.ret_bind]
  rw [List.getD_cons_zero, List.headD_cons, List.tail_cons]
  by_cases hlong : minBytes + varintExtraBytes first > 8
  · rw [if_pos hlong, if_pos hlong]
    rfl
  · have htail : (((first :: tail).take (first :: tail).length).drop 1) = tail := by simp
    have hsub : minBytes - 1 = tail.length := by omega
    have hbytes : (List.replicate 8 (0 : UInt8)).take 0 ++ tail ++
        (List.replicate 8 (0 : UInt8)).drop tail.length =
          tail ++ List.replicate (8 - tail.length) 0 := by
      rw [List.take_zero, List.nil_append, List.drop_replicate]
    rw [if_neg hlong, if_neg hlong, slice_of_le (by simp) (le_refl _), Prog.ret_bind, htail,
      sub_of_le hmin, Prog.ret_bind, hsub, copyFromSlice_of_le (Nat.zero_le _) (by simp; omega)
        (Nat.sub_zero _).symm, Prog.ret_bind, hbytes]
    by_cases hzero : varintExtraBytes first = 0
    · rw [if_pos hzero, if_pos hzero, Prog.ret_bind, putByte_of_lt (by simp; omega), Prog.ret_bind,
        set_append_zeros (by omega), leNat_append_zeros]
    · rw [if_neg hzero, if_neg hzero, Prog.ret_bind,
        run_readInto (Nat.le_add_right _ _) (by simp; omega), Nat.add_sub_cancel_left]
      refine Prog.run_bind_congr fun piece rest hread => ?_
      have hlen : piece.length = varintExtraBytes first := length_of_run_readExact hread
      have hmore : (tail ++ List.replicate (8 - tail.length) (0 : UInt8)).take tail.length ++ piece ++
          (tail ++ List.replicate (8 - tail.length) (0 : UInt8)).drop
            (tail.length + varintExtraBytes first) =
          (tail ++ piece) ++ List.replicate (8 - tail.length - varintExtraBytes first) 0 := by
        rw [List.take_left, List.drop_append, List.drop_of_length_le (by omega), List.nil_append,
          Nat.add_sub_cancel_left, List.drop_replicate]
      have hlast : minBytes + varintExtraBytes first - 1 = (tail ++ piece).length := by
        rw [List.length_append]
        omega
      have hsix := varintExtraBytes_le first
      rw [hmore, sub_of_le (by omega), Prog.ret_bind, bit_of_lt (by omega), Prog.ret_bind,
        subU8_one (by omega), Prog.ret_bind, sub_of_le (by omega), Prog.ret_bind, hlast,
        putByte_of_lt (by simp; omega), Prog.ret_bind, set_append_zeros (by omega),
        leNat_append_zeros]

/-- A quiet reader fails with errors of the stream only. -/
theorem run_ne_panic {r : Reader Nat} (h : Quiet r) (inp rest : Bytes) (message : String) :
    r.run buffer inp ≠ .fail (.panic message) rest := by
  intro hrun
  rcases (h inp.length).run with ⟨left, hwait⟩ | ⟨e, left, hfail, hquiet⟩ | ⟨a, left, hret, -⟩
  · rw [hwait] at hrun
    cases hrun
  · rw [hfail] at hrun
    exact hquiet message (Final.fail.inj hrun).1
  · rw [hret] at hrun
    cases hrun

/-! ## The writers -/

theorem trimCount_eq {bytes : Bytes} {minBytes : Nat} : ∀ {count : Nat}, count < bytes.length →
    trimCount bytes minBytes count = .ret (RsyncWin.trimCount bytes minBytes count)
  | 0, _ => rfl
  | count + 1, h => by
      unfold trimCount RsyncWin.trimCount
      by_cases hmin : minBytes < count + 1
      · rw [if_pos hmin, byteAt_of_lt h, Prog.ret_bind]
        by_cases hzero : bytes.getD (count + 1) 0 = 0
        · rw [if_pos hzero, if_pos ⟨hmin, hzero⟩]
          exact trimCount_eq (by omega)
        · rw [if_neg hzero, if_neg fun h => hzero h.2]
          rfl
      · rw [if_neg hmin, if_neg fun h => hmin h.1]
        rfl

theorem writeAll_slice {bytes : Bytes} {count : Nat} (h : count ≤ bytes.length) :
    (do
      let (bytes, count) ← (pure (bytes, count) : Writer (Bytes × Nat))
      let out ← slice bytes 0 count
      writeAll out) = (writeAll (bytes.take count) : Writer Unit) := by
  rw [Prog.pure_eq, Prog.ret_bind]
  dsimp only
  rw [slice_of_le (Nat.zero_le _) h]
  rfl

theorem writeVarBytes_eq {w n minBytes : Nat} (hn : n < 256 ^ w) (hle : minBytes ≤ w) :
    writeVarBytes (leBytes w n) minBytes =
      RsyncWin.writeVarBytes (0 :: leBytes w n) w minBytes := by
  have hbytes : (List.replicate (w + 1) (0 : UInt8)).take 1 ++ leBytes w n ++
      (List.replicate (w + 1) (0 : UInt8)).drop (w + 1) = 0 :: leBytes w n := by
    rw [List.drop_of_length_le (by simp), List.append_nil, List.replicate_succ, List.take_succ_cons,
      List.take_zero]
    rfl
  have hlen : (0 :: leBytes w n).length = w + 1 := by simp
  have hcount := trimCount_le_start (0 :: leBytes w n) minBytes w
  obtain ⟨-, hge⟩ := trimCount_spec (le_refl w) hn hle
  unfold writeVarBytes RsyncWin.writeVarBytes
  rw [leBytes_length]
  dsimp only
  rw [copyFromSlice_of_le (by omega) (by simp) (by simp), Prog.ret_bind, hbytes,
    trimCount_eq (by omega), Prog.ret_bind]
  generalize RsyncWin.trimCount (0 :: leBytes w n) minBytes w = count at hcount hge ⊢
  by_cases hseven : count ≤ 7
  · have hroom : (usizeSub 7 count : Writer Nat) = .ret (7 - count) := if_pos hseven
    have hshift : 7 - count + minBytes < 8 := by omega
    rw [sub_of_le hseven, Prog.ret_bind, hroom, Prog.ret_bind, bit_of_lt hshift, Prog.ret_bind,
      byteAt_of_lt (by omega), Prog.ret_bind]
    by_cases hbit : bitU8 (7 - count + minBytes) ≤ (0 :: leBytes w n).getD count 0
    · rw [if_pos hbit, if_pos hbit, subU8_one hshift, Prog.ret_bind, putByte_of_lt (by omega),
        Prog.ret_bind]
      exact writeAll_slice (by rw [List.length_set]; omega)
    · rw [if_neg hbit, if_neg hbit]
      by_cases hshared : count > minBytes
      · have hsmall : 2 ^ (7 - count + minBytes) * 2 < 256 := by
          have hpow := Nat.pow_le_pow_right (by decide : 0 < 2)
            (by omega : 7 - count + minBytes ≤ 6)
          omega
        have hmul : (mulU8 (bitU8 (7 - count + minBytes)) 2 : Writer UInt8) =
            .ret (bitU8 (7 - count + minBytes) * 2) := by
          refine if_pos ?_
          rw [bitU8_toNat hshift]
          exact hsmall
        have hdouble : bitU8 (7 - count + minBytes) * 2 = bitU8 (7 - count + minBytes + 1) := by
          apply UInt8.toNat_inj.mp
          rw [UInt8.toNat_mul, bitU8_toNat hshift, bitU8_toNat (by omega), pow_succ]
          exact Nat.mod_eq_of_lt hsmall
        rw [if_pos hshared, if_pos hshared, hmul, Prog.ret_bind, hdouble, subU8_one (by omega),
          Prog.ret_bind, putByte_of_lt (by omega), Prog.ret_bind]
        exact writeAll_slice (by rw [List.length_set]; omega)
      · rw [if_neg hshared, if_neg hshared, putByte_of_lt (by omega), Prog.ret_bind]
        exact writeAll_slice (by rw [List.length_set]; omega)
  · have hroom : (usizeSub 7 count : Writer Nat) =
        .fail (.panic "attempt to subtract with overflow") := if_neg hseven
    have hsub : (sub 7 count : Writer Nat) = .fail (.panic "attempt to subtract with overflow") :=
      if_neg hseven
    rw [hroom, hsub]
    rfl

theorem writeVarint_eq {n : Nat} (hn : n ≤ i32Max) : writeVarint n = RsyncWin.writeVarint n := by
  have hguard : ¬ n > i32Max := by omega
  have hlt : n < 256 ^ 4 := by
    unfold i32Max at hn
    omega
  unfold writeVarint RsyncWin.writeVarint
  rw [if_neg hguard, if_neg hguard, writeVarBytes_eq hlt (by decide)]

theorem writeVarlong_eq {n minBytes : Nat} (hn : n ≤ u64Max) (hmin : 1 ≤ minBytes)
    (hmax : minBytes ≤ 8) : writeVarlong n minBytes = RsyncWin.writeVarlong n minBytes := by
  have hguard : ¬ ¬ (1 ≤ minBytes ∧ minBytes ≤ 8) := fun h => h ⟨hmin, hmax⟩
  have hlt : n < 256 ^ 8 := by
    unfold u64Max at hn
    omega
  unfold writeVarlong RsyncWin.writeVarlong
  rw [if_neg hguard, if_neg hguard, writeVarBytes_eq hlt hmax]

/-! ## Round trips -/

theorem roundTrips_congr {w : Writer Unit} {r r' : Reader Nat} {n : Nat}
    (h : ∀ inp, r.run buffer inp = r'.run buffer inp) :
    RoundTrips w () r n ↔ RoundTrips w () r' n := by
  unfold RoundTrips Decodes
  simp only [h]

theorem roundTrips_varint {n : Nat} (hn : n ≤ i32Max) :
    RoundTrips (writeVarint n) () readVarint n := by
  rw [writeVarint_eq hn, roundTrips_congr run_readVarint]
  exact RsyncWin.roundTrips_varint hn

/-- Where a `u64` fits: not all eight bytes are needed, and the reader, which counts up to six
bytes behind the fixed ones, can be told of the rest. -/
def Fits (value minBytes : Nat) : Prop :=
  minBytes ≤ 7 ∧ value < 2 ^ 56 ∧ (minBytes = 1 → value < 2 ^ 49)

instance (value minBytes : Nat) : Decidable (Fits value minBytes) :=
  inferInstanceAs (Decidable (_ ∧ _))

/-- All eight bytes: `7 - count` underflows. -/
theorem not_writes_full {n minBytes : Nat} {cs : List Bytes} (hn : n ≤ u64Max)
    (hmin : 1 ≤ minBytes) (hmax : minBytes ≤ 8) (hfull : minBytes = 8 ∨ 2 ^ 56 ≤ n) :
    ¬ Writes (RsyncWin.writeVarlong n minBytes) cs () := by
  have hlt : n < 256 ^ 8 := by
    unfold u64Max at hn
    omega
  have hle := trimCount_le_start (0 :: leBytes 8 n) minBytes 8
  obtain ⟨hbound, hge⟩ := trimCount_spec (le_refl 8) hlt hmax
  have hcount : RsyncWin.trimCount (0 :: leBytes 8 n) minBytes 8 = 8 := by
    rcases hfull with rfl | hbig
    · omega
    · by_contra hne
      have hpow : 256 ^ RsyncWin.trimCount (0 :: leBytes 8 n) minBytes 8 ≤ 256 ^ 7 :=
        Nat.pow_le_pow_right (by decide) (by omega)
      omega
  have hguard : ¬ ¬ (1 ≤ minBytes ∧ minBytes ≤ 8) := fun h => h ⟨hmin, hmax⟩
  intro hwrites
  have hrun := hwrites []
  unfold RsyncWin.writeVarlong RsyncWin.writeVarBytes at hrun
  rw [if_neg hguard, hcount] at hrun
  cases hrun

theorem roundTrips_varlong_six {n : Nat} (hn : n < 2 ^ 48) :
    RoundTrips (RsyncWin.writeVarlong n 1) () (RsyncWin.readVarlong 1) n := by
  have hn6 : n < 256 ^ 6 := by omega
  obtain ⟨first, mid, hw, hlen, hsix, hvalue⟩ := writes_writeVarBytes (n := n) (w := 8) (c := 6)
    (le_refl 1) (by decide) (by decide) (by decide) (by decide) hn6
  have hguard : ¬ ¬ (1 ≤ 1 ∧ 1 ≤ 8) := by decide
  refine ⟨[first :: mid], ?_, ?_⟩
  · unfold RsyncWin.writeVarlong
    rw [if_neg hguard]
    exact hw
  · have hd := decodes_readVarlong (le_refl 1) hlen (by omega)
    rw [hvalue] at hd
    rwa [List.flatten_singleton]

/-- One fixed byte and seven bytes of value: the seventh is the top byte. -/
theorem trimCount_seven {n : Nat} (hlow : 2 ^ 48 ≤ n) (hhigh : n < 2 ^ 56) :
    RsyncWin.trimCount (0 :: leBytes 8 n) 1 8 = 7 ∧
      (0 :: leBytes 8 n).getD 7 0 = UInt8.ofNat (n / 256 ^ 6) := by
  have hlt : n < 256 ^ 7 := by omega
  have hle := trimCount_le (le_refl 8) hlt (by decide : 1 ≤ 7) (by decide : 7 ≤ 8)
  obtain ⟨hbound, hge⟩ := trimCount_spec (le_refl 8)
    (hlt.trans (by decide : 256 ^ 7 < 256 ^ 8)) (by decide : 1 ≤ 8)
  refine ⟨?_, ?_⟩
  · by_contra hne
    have hpow : 256 ^ RsyncWin.trimCount (0 :: leBytes 8 n) 1 8 ≤ 256 ^ 6 :=
      Nat.pow_le_pow_right (by decide) (by omega)
    omega
  · rw [List.getD_cons_succ, leBytes_getD n (by decide)]

/-- What is written then: seven bytes, or all eight. -/
theorem writeVarlong_seven {n : Nat} (hlow : 2 ^ 48 ≤ n) (hhigh : n < 2 ^ 56) :
    RsyncWin.writeVarlong n 1 =
      writeAll (if n < 2 ^ 49 then 0xfd :: leBytes 6 n else 0xfe :: leBytes 7 n) := by
  obtain ⟨hcount, htop⟩ := trimCount_seven hlow hhigh
  have hguard : ¬ ¬ (1 ≤ 1 ∧ 1 ≤ 8) := by decide
  have hroom : (usizeSub 7 7 : Writer Nat) = .ret (7 - 7) := rfl
  have hbyte : (UInt8.ofNat (n / 256 ^ 6)).toNat = n / 256 ^ 6 := by
    rw [UInt8.toNat_ofNat']
    exact Nat.mod_eq_of_lt (by omega)
  unfold RsyncWin.writeVarlong RsyncWin.writeVarBytes
  rw [if_neg hguard, hcount]
  dsimp only
  rw [hroom, htop]
  simp only [Prog.ret_bind]
  by_cases hone : n < 2 ^ 49
  · have hdiv : n / 256 ^ 6 = 1 := by omega
    rw [hdiv, if_neg (by decide), if_pos (by decide), if_pos hone, List.set_cons_zero,
      List.take_succ_cons, leBytes_take n (by decide)]
    rfl
  · have hbit : bitU8 (7 - 7 + 1) ≤ UInt8.ofNat (n / 256 ^ 6) := by
      rw [UInt8.le_iff_toNat_le, hbyte]
      show 2 ≤ n / 256 ^ 6
      omega
    rw [if_pos hbit, if_neg hone, List.set_cons_zero, List.take_succ_cons,
      leBytes_take n (by decide)]
    rfl

/-- The seventh byte is one bit, which the marker of six bytes leaves room for. -/
theorem roundTrips_seven {n : Nat} (hlow : 2 ^ 48 ≤ n) (hhigh : n < 2 ^ 49) :
    RoundTrips (RsyncWin.writeVarlong n 1) () (RsyncWin.readVarlong 1) n := by
  rw [writeVarlong_seven hlow (by omega), if_pos hhigh]
  refine roundTrips_writeAll ?_
  have hextra : (leBytes 6 n).length + 1 = 1 + varintExtraBytes 0xfd := by
    rw [leBytes_length]
    decide
  have hlast : UInt8.ofNat (n / 256 ^ 6) = varPayload 0xfd := by
    have hdiv : n / 256 ^ 6 = 1 := by omega
    rw [hdiv]
    decide
  have hvalue : leNat (leBytes 6 n ++ [varPayload 0xfd]) = n := by
    rw [← hlast, ← leBytes_succ_last, leNat_leBytes]
    exact Nat.mod_eq_of_lt (by omega)
  have hd := decodes_readVarlong (le_refl 1) hextra (by rw [leBytes_length]; decide)
  rwa [hvalue] at hd

/-- It is more than one bit: all seven bytes are sent behind the marker of six. -/
theorem not_roundTrips_seven {n : Nat} (hlow : 2 ^ 49 ≤ n) (hhigh : n < 2 ^ 56) :
    ¬ RoundTrips (RsyncWin.writeVarlong n 1) () (RsyncWin.readVarlong 1) n := by
  rw [writeVarlong_seven (by omega) hhigh, if_neg (by omega)]
  rintro ⟨cs, hw, hd⟩
  obtain rfl : [0xfe :: leBytes 7 n] = cs := by
    simpa using (writes_writeAll (ε := Error) (0xfe :: leBytes 7 n) []).symm.trans (hw [])
  have hextra : (leBytes 6 n).length + 1 = 1 + varintExtraBytes 0xfe := by
    rw [leBytes_length]
    decide
  have hsix := decodes_readVarlong (le_refl 1) hextra (by rw [leBytes_length]; decide)
    [UInt8.ofNat (n / 256 ^ 6)]
  have hrun := hd []
  rw [List.flatten_singleton, List.append_nil, leBytes_succ_last, ← List.cons_append, hsix] at hrun
  exact absurd (Final.ret.inj hrun).2 (by simp)

/-- What is written is read back, as far as it fits; nothing but the writer of a `u64` that does
not fit ever traps. -/
theorem varints_round_trip_iff (value minBytes : Nat) (inp rest : Bytes) (message : String) :
    (value ≤ i32Max → RoundTrips (writeVarint value) () readVarint value) ∧
      (value ≤ u64Max → 1 ≤ minBytes → minBytes ≤ 8 →
        (RoundTrips (writeVarlong value minBytes) () (readVarlong minBytes) value ↔
          Fits value minBytes)) ∧
      readVarint.run buffer inp ≠ .fail (.panic message) rest ∧
      (1 ≤ minBytes → minBytes ≤ 8 →
        (readVarlong minBytes).run buffer inp ≠ .fail (.panic message) rest) := by
  refine ⟨fun hvalue => roundTrips_varint hvalue, ?_, ?_, ?_⟩
  · intro hvalue hmin hmax
    rw [writeVarlong_eq hvalue hmin hmax, roundTrips_congr (run_readVarlong hmin hmax)]
    constructor
    · intro h
      obtain ⟨cs, hwrites, -⟩ := id h
      have hseven : ¬ (minBytes = 8 ∨ 2 ^ 56 ≤ value) :=
        fun hfull => not_writes_full hvalue hmin hmax hfull hwrites
      refine ⟨by omega, by omega, ?_⟩
      rintro rfl
      by_contra hlow
      exact not_roundTrips_seven (by omega) (by omega) h
    · rintro ⟨hseven, hvalue, hone⟩
      by_cases hmany : 2 ≤ minBytes
      · exact RsyncWin.roundTrips_varlong hmany hseven hvalue
      · obtain rfl : minBytes = 1 := by omega
        by_cases hsix : value < 2 ^ 48
        · exact roundTrips_varlong_six hsix
        · exact roundTrips_seven (by omega) (hone rfl)
  · rw [run_readVarint]
    exact run_ne_panic quiet_readVarint inp rest message
  · intro hmin hmax
    rw [run_readVarlong hmin hmax]
    exact run_ne_panic (quiet_readVarlong minBytes) inp rest message

/-- The seventh byte is lost. -/
theorem varlong_loses_seventh :
    ¬ RoundTrips (writeVarlong (2 ^ 49) 1) () (readVarlong 1) (2 ^ 49) := by
  rw [writeVarlong_eq (by decide) (by decide) (by decide),
    roundTrips_congr (run_readVarlong (by decide) (by decide))]
  exact not_roundTrips_seven (le_refl _) (by decide)

end Checked

end RsyncWin
