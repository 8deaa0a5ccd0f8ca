import Mathlib.Data.List.Basic
import Mathlib.Tactic.Ring
import Mathlib.Tactic.Positivity

/-!
# Little-endian byte strings

Fixed-width little-endian coding of naturals, and the two's-complement reading
of such a word. Both directions are stated for every width, so that the 2-, 4-
and 8-byte words of a wire format are instances of one pair of lemmas.
-/

namespace ByteString

abbrev Bytes := List UInt8

/-- The low `w` bytes of `n`, least significant first. -/
def leBytes : Nat → Nat → Bytes
  | 0, _ => []
  | w + 1, n => UInt8.ofNat n :: leBytes w (n / 256)

/-- The number a little-endian byte string stands for. -/
def leNat : Bytes → Nat
  | [] => 0
  | b :: bs => b.toNat + 256 * leNat bs

@[simp] theorem leBytes_length (w n : Nat) : (leBytes w n).length = w := by
  induction w generalizing n with
  | zero => rfl
  | succ w ih => simp [leBytes, ih]

theorem leNat_leBytes (w n : Nat) : leNat (leBytes w n) = n % 256 ^ w := by
  induction w generalizing n with
  | zero => simp [leBytes, leNat, Nat.mod_one]
  | succ w ih =>
      rw [leBytes, leNat, ih, pow_succ, Nat.mul_comm (256 ^ w) 256, Nat.mod_mul]
      simp

theorem leNat_lt : ∀ bs : Bytes, leNat bs < 256 ^ bs.length
  | [] => by simp [leNat]
  | b :: bs => by
      have ih := leNat_lt bs
      have hb : b.toNat < 256 := b.toNat_lt
      rw [leNat, List.length_cons, pow_succ]
      omega

theorem leBytes_leNat : ∀ bs : Bytes, leBytes bs.length (leNat bs) = bs
  | [] => rfl
  | b :: bs => by
      have hb : b.toNat < 256 := b.toNat_lt
      have hdiv : (b.toNat + 256 * leNat bs) / 256 = leNat bs := by omega
      have hhead : UInt8.ofNat (b.toNat + 256 * leNat bs) = b := by
        apply UInt8.toNat_inj.mp
        rw [UInt8.toNat_ofNat']
        omega
      rw [List.length_cons, leNat, leBytes, hdiv, hhead, leBytes_leNat bs]

theorem leBytes_take : ∀ {c w : Nat} (n : Nat), c ≤ w → (leBytes w n).take c = leBytes c n
  | 0, _, _, _ => rfl
  | c + 1, w + 1, n, h => by
      rw [leBytes, leBytes, List.take_succ_cons, leBytes_take (n / 256) (by omega)]

/-- The most significant byte last. -/
theorem leBytes_succ_last (w n : Nat) :
    leBytes (w + 1) n = leBytes w n ++ [UInt8.ofNat (n / 256 ^ w)] := by
  induction w generalizing n with
  | zero => simp [leBytes]
  | succ w ih =>
      rw [leBytes, ih, leBytes, List.cons_append, Nat.div_div_eq_div_mul, pow_succ,
        Nat.mul_comm]

theorem leBytes_getD {k w : Nat} (n : Nat) (h : k < w) :
    (leBytes w n).getD k 0 = UInt8.ofNat (n / 256 ^ k) := by
  induction w generalizing k n with
  | zero => omega
  | succ w ih =>
      cases k with
      | zero => simp [leBytes]
      | succ k =>
          rw [leBytes, List.getD_cons_succ, ih _ (by omega), Nat.div_div_eq_div_mul, pow_succ,
            Nat.mul_comm]

theorem leNat_append (xs ys : Bytes) :
    leNat (xs ++ ys) = leNat xs + 256 ^ xs.length * leNat ys := by
  induction xs with
  | nil => simp [leNat]
  | cons x xs ih =>
      rw [List.cons_append, leNat, leNat, ih, List.length_cons, pow_succ]
      ring

theorem leNat_append_zero (bs : Bytes) : leNat (bs ++ [0]) = leNat bs := by
  rw [leNat_append]
  rfl

/-- Bytes past the width of the value do not count. -/
theorem leNat_take {bs : Bytes} {k : Nat} (h : leNat bs < 256 ^ k) :
    leNat (bs.take k) = leNat bs := by
  rcases Nat.le_total bs.length k with hk | hk
  · rw [List.take_of_length_le hk]
  · have hsplit := leNat_append (bs.take k) (bs.drop k)
    rw [List.take_append_drop, List.length_take_of_le hk] at hsplit
    have hzero : leNat (bs.drop k) = 0 := by
      by_contra hne
      have hmul : 256 ^ k ≤ 256 ^ k * leNat (bs.drop k) :=
        Nat.le_mul_of_pos_right _ (Nat.pos_of_ne_zero hne)
      omega
    rw [hsplit, hzero, Nat.mul_zero, Nat.add_zero]

/-! ## Two's complement -/

/-- The signed reading of a `w`-bit word. -/
def toSigned (w n : Nat) : Int :=
  if n < 2 ^ (w - 1) then (n : Int) else (n : Int) - 2 ^ w

/-- The `w`-bit word of an integer, truncating as a cast does. -/
def ofSigned (w : Nat) (v : Int) : Nat := (v % 2 ^ w).toNat

theorem ofSigned_natCast {w n : Nat} (h : n < 2 ^ w) : ofSigned w (n : Int) = n := by
  unfold ofSigned
  rw [Int.emod_eq_of_lt (by omega) (by exact_mod_cast h), Int.toNat_natCast]

theorem ofSigned_lt (w : Nat) (v : Int) : ofSigned w v < 2 ^ w := by
  have hpos : (0 : Int) < 2 ^ w := by positivity
  have hlt := Int.emod_lt_of_pos v hpos
  have hnn := Int.emod_nonneg v (ne_of_gt hpos)
  unfold ofSigned
  have hcast : ((2 ^ w : Nat) : Int) = 2 ^ w := by push_cast; rfl
  omega

theorem toSigned_ofSigned {w : Nat} (hw : 0 < w) {v : Int}
    (hlo : -(2 ^ (w - 1)) ≤ v) (hhi : v < 2 ^ (w - 1)) :
    toSigned w (ofSigned w v) = v := by
  obtain ⟨k, rfl⟩ : ∃ k, w = k + 1 := ⟨w - 1, by omega⟩
  simp only [Nat.add_sub_cancel] at hlo hhi
  have hpow : (2 : Int) ^ (k + 1) = 2 * 2 ^ k := by ring
  have hcast : ((2 ^ k : Nat) : Int) = 2 ^ k := by push_cast; rfl
  have hpos : (0 : Int) < 2 ^ k := by positivity
  unfold toSigned ofSigned
  simp only [Nat.add_sub_cancel]
  by_cases hv : 0 ≤ v
  · rw [Int.emod_eq_of_lt hv (by omega), if_pos (by omega)]
    omega
  · have hm : v % 2 ^ (k + 1) = v + 2 ^ (k + 1) := by
      rw [← Int.add_mul_emod_self_left v (2 ^ (k + 1)) 1, mul_one]
      exact Int.emod_eq_of_lt (by omega) (by omega)
    rw [hm, if_neg (by omega)]
    omega

theorem ofSigned_toSigned {w n : Nat} (h : n < 2 ^ w) : ofSigned w (toSigned w n) = n := by
  unfold toSigned
  split
  · exact ofSigned_natCast h
  · have hshift : ((n : Int) - 2 ^ w) % 2 ^ w = (n : Int) % 2 ^ w := by
      rw [Int.sub_emod_right]
    unfold ofSigned
    rw [hshift]
    exact ofSigned_natCast h

theorem toSigned_of_lt {w n : Nat} (h : n < 2 ^ (w - 1)) : toSigned w n = n := by
  unfold toSigned
  rw [if_pos h]

end ByteString
