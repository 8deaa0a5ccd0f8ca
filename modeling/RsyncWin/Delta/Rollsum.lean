import Mathlib.Data.Int.ModEq
import Mathlib.Tactic.Linarith
import RsyncWin.Transfer.Checksum

/-!
# The rolling checksum (`rsync-delta/src/rollsum.rs`)

A window moves on by one byte: what leaves it is taken off both sums, what
comes in is added. Modulo 65536 the first sum is that of the bytes, the second
weighs each byte by its distance from the end of the window, so that moving on
gives what recomputing gives.
-/

namespace RsyncWin

open ByteString

/-- A result of `i64` arithmetic, or an overflow. -/
def checkedI64 (v : Int) : Option Int :=
  if -9223372036854775808 ≤ v ∧ v ≤ 9223372036854775807 then some v else none

/-- The sums are `u16`. -/
@[ext]
structure RollingChecksum where
  a : Nat
  b : Nat
  len : Nat
  a_lt : a < 65536
  b_lt : b < 65536
deriving DecidableEq

namespace RollingChecksum

def fromBlock (block : Bytes) : RollingChecksum where
  a := (rollingSums block).1
  b := (rollingSums block).2
  len := block.length
  a_lt := (@rollingStep_lt block (0, 0) (by decide) (by decide)).1
  b_lt := (@rollingStep_lt block (0, 0) (by decide) (by decide)).2

/-- `none` is a panic: the assertion on an empty window, or an overflow. -/
def roll (r : RollingChecksum) (outgoing incoming : UInt8) : Option RollingChecksum :=
  if r.len = 0 then none
  else do
    let a := modU16 (r.a - signedByte outgoing + signedByte incoming)
    let product ← checkedI64 (toSigned 64 r.len * signedByte outgoing)
    let difference ← checkedI64 (r.b - product)
    let sum ← checkedI64 (difference + a)
    some ⟨a, modU16 sum, r.len, modU16_lt _, modU16_lt _⟩

def digest (r : RollingChecksum) : Nat := r.b * 65536 + r.a

theorem digest_fromBlock (block : Bytes) : (fromBlock block).digest = rollingChecksum block := rfl

end RollingChecksum

/-! ## What the sums are -/

def byteSum (block : Bytes) : Int := (block.map signedByte).sum

/-- Each byte by its distance from the end. -/
def weightedSum : Bytes → Int
  | [] => 0
  | byte :: block => (block.length + 1) * signedByte byte + weightedSum block

theorem byteSum_cons (byte : UInt8) (block : Bytes) :
    byteSum (byte :: block) = signedByte byte + byteSum block := by
  simp [byteSum]

theorem byteSum_append (block : Bytes) (byte : UInt8) :
    byteSum (block ++ [byte]) = byteSum block + signedByte byte := by
  simp [byteSum]

theorem weightedSum_append (block : Bytes) (byte : UInt8) :
    weightedSum (block ++ [byte]) = weightedSum block + byteSum block + signedByte byte := by
  induction block with
  | nil => simp [weightedSum, byteSum]
  | cons first block ih =>
      rw [List.cons_append, weightedSum, ih, weightedSum, byteSum_cons, List.length_append,
        List.length_singleton]
      push_cast
      ring

theorem modU16_modEq (value : Int) : (modU16 value : Int) ≡ value [ZMOD 65536] := by
  have hpos : 0 ≤ value % 65536 := Int.emod_nonneg _ (by decide)
  unfold modU16
  rw [Int.toNat_of_nonneg hpos]
  exact Int.mod_modEq _ _

/-- Numbers below the modulus are told apart by it. -/
theorem eq_of_modEq {m n : Nat} (hm : m < 65536) (hn : n < 65536)
    (h : (m : Int) ≡ n [ZMOD 65536]) : m = n := by
  have heq := h.eq
  omega

/-- The sums from any start: the first is added to the second once for each byte. -/
theorem rollingStep_modEq (block : Bytes) (sums : Nat × Nat) :
    ((block.foldl rollingStep sums).1 : Int) ≡ sums.1 + byteSum block [ZMOD 65536] ∧
      ((block.foldl rollingStep sums).2 : Int) ≡
        sums.2 + block.length * sums.1 + weightedSum block [ZMOD 65536] := by
  induction block generalizing sums with
  | nil => simp [byteSum, weightedSum, Int.ModEq]
  | cons byte block ih =>
      have ha := modU16_modEq (sums.1 + signedByte byte)
      have hb := modU16_modEq (sums.2 + modU16 (sums.1 + signedByte byte))
      obtain ⟨hfirst, hsecond⟩ := ih (rollingStep sums byte)
      constructor
      · calc ((List.foldl rollingStep (rollingStep sums byte) block).1 : Int)
            ≡ modU16 (sums.1 + signedByte byte) + byteSum block [ZMOD 65536] := hfirst
          _ ≡ sums.1 + signedByte byte + byteSum block [ZMOD 65536] := ha.add_right _
          _ ≡ sums.1 + byteSum (byte :: block) [ZMOD 65536] := by
              rw [byteSum_cons, Int.add_assoc]
      · calc ((List.foldl rollingStep (rollingStep sums byte) block).2 : Int)
            ≡ modU16 (sums.2 + modU16 (sums.1 + signedByte byte)) +
                block.length * modU16 (sums.1 + signedByte byte) + weightedSum block
              [ZMOD 65536] := hsecond
          _ ≡ sums.2 + (sums.1 + signedByte byte) + block.length * (sums.1 + signedByte byte) +
                weightedSum block [ZMOD 65536] :=
              ((hb.trans (ha.add_left _)).add (ha.mul_left _)).add_right _
          _ ≡ sums.2 + (byte :: block).length * sums.1 + weightedSum (byte :: block)
              [ZMOD 65536] := by
              rw [weightedSum, List.length_cons]
              push_cast
              ring_nf
              exact Int.ModEq.refl _

namespace RollingChecksum

theorem fromBlock_modEq (block : Bytes) :
    ((fromBlock block).a : Int) ≡ byteSum block [ZMOD 65536] ∧
      ((fromBlock block).b : Int) ≡ weightedSum block [ZMOD 65536] := by
  have h := rollingStep_modEq block (0, 0)
  simp only [Int.natCast_zero, Int.mul_zero, Int.zero_add] at h
  exact h

/-! ## Moving the window -/

theorem signedByte_bounds (byte : UInt8) : -128 ≤ signedByte byte ∧ signedByte byte ≤ 127 := by
  have hlt := byte.toNat_lt
  unfold signedByte toSigned
  split <;> omega

/-- Up to this length nothing overflows. -/
theorem roll_eq {r : RollingChecksum} (hne : r.len ≠ 0) (hlen : r.len ≤ 2 ^ 55)
    (outgoing incoming : UInt8) :
    r.roll outgoing incoming =
      some ⟨modU16 (r.a - signedByte outgoing + signedByte incoming),
        modU16 (r.b - r.len * signedByte outgoing +
          modU16 (r.a - signedByte outgoing + signedByte incoming)),
        r.len, modU16_lt _, modU16_lt _⟩ := by
  have hb := r.b_lt
  have ha := modU16_lt (r.a - signedByte outgoing + signedByte incoming)
  obtain ⟨hlow, hhigh⟩ := signedByte_bounds outgoing
  have hsigned : toSigned 64 r.len = r.len := toSigned_of_lt (by norm_num; omega)
  have hproduct : -(2 ^ 62) ≤ (r.len : Int) * signedByte outgoing ∧
      (r.len : Int) * signedByte outgoing ≤ 2 ^ 62 := by
    have hlen' : (r.len : Int) ≤ 2 ^ 55 := by exact_mod_cast hlen
    constructor <;> nlinarith
  unfold roll checkedI64
  rw [if_neg hne, hsigned, if_pos (by omega)]
  dsimp only [bind, Option.bind]
  rw [if_pos (by omega)]
  dsimp only
  rw [if_pos (by omega)]

theorem roll_fromBlock (x : UInt8) (xs : Bytes) (y : UInt8) (h : (x :: xs).length ≤ 2 ^ 55) :
    (fromBlock (x :: xs)).roll x y = some (fromBlock (xs ++ [y])) := by
  obtain ⟨ha, hb⟩ := fromBlock_modEq (x :: xs)
  obtain ⟨ha', hb'⟩ := fromBlock_modEq (xs ++ [y])
  rw [roll_eq (by simp [fromBlock]) h]
  have hfirst : modU16 ((fromBlock (x :: xs)).a - signedByte x + signedByte y) =
      (fromBlock (xs ++ [y])).a := by
    refine eq_of_modEq (modU16_lt _) (fromBlock (xs ++ [y])).a_lt ?_
    refine (modU16_modEq _).trans (((ha.sub_right _).add_right _).trans ?_)
    rw [byteSum_cons, byteSum_append] at *
    refine Int.ModEq.trans ?_ ha'.symm
    ring_nf
    exact Int.ModEq.refl _
  have hsecond : modU16 ((fromBlock (x :: xs)).b - (fromBlock (x :: xs)).len * signedByte x +
      (fromBlock (xs ++ [y])).a) = (fromBlock (xs ++ [y])).b := by
    refine eq_of_modEq (modU16_lt _) (fromBlock (xs ++ [y])).b_lt ?_
    refine (modU16_modEq _).trans (((hb.sub_right _).add ha').trans ?_)
    refine Int.ModEq.trans ?_ hb'.symm
    rw [weightedSum_append, byteSum_append, weightedSum]
    have hlen : ((fromBlock (x :: xs)).len : Int) = xs.length + 1 := by simp [fromBlock]
    rw [hlen]
    ring_nf
    exact Int.ModEq.refl _
  congr 1
  ext
  · exact hfirst
  · rw [← hfirst] at hsecond
    exact hsecond
  · simp [fromBlock]

end RollingChecksum

/-- **Rolling is recomputing.** A window that moves on by a byte has the sums of the new window,
and the sums of a window are those of its signed bytes, plain and weighted. -/
theorem rolling_recomputes :
    (∀ (x : UInt8) (xs : Bytes) (y : UInt8), (x :: xs).length ≤ 2 ^ 55 →
      (RollingChecksum.fromBlock (x :: xs)).roll x y =
        some (RollingChecksum.fromBlock (xs ++ [y]))) ∧
    ∀ block : Bytes,
      ((RollingChecksum.fromBlock block).a : Int) = byteSum block % 65536 ∧
        ((RollingChecksum.fromBlock block).b : Int) = weightedSum block % 65536 := by
  refine ⟨RollingChecksum.roll_fromBlock, fun block => ?_⟩
  obtain ⟨ha, hb⟩ := RollingChecksum.fromBlock_modEq block
  have ha_lt := (RollingChecksum.fromBlock block).a_lt
  have hb_lt := (RollingChecksum.fromBlock block).b_lt
  constructor
  · rw [← ha.eq, Int.emod_eq_of_lt (by omega) (by omega)]
  · rw [← hb.eq, Int.emod_eq_of_lt (by omega) (by omega)]

/-- The window `abc` moves on to `bcd`. -/
theorem rolling_recomputes_abc :
    (RollingChecksum.fromBlock [0x61, 0x62, 0x63]).roll 0x61 0x64 =
      some (RollingChecksum.fromBlock [0x62, 0x63, 0x64]) :=
  rolling_recomputes.1 0x61 [0x62, 0x63] 0x64 (by decide)

end RsyncWin
