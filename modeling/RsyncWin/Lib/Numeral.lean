import Mathlib.Data.List.Basic

/-!
# Numerals in text

Reading a number of a given radix up to a limit: an optional sign and at least
one digit, with a check behind every digit. Printing is `Nat.toDigits`. The radix
is at most ten.
-/

namespace Numeral

def IsDigit (radix : Nat) (ch : Char) : Prop := '0'.toNat ≤ ch.toNat ∧ ch.toNat - '0'.toNat < radix

instance (radix : Nat) (ch : Char) : Decidable (IsDigit radix ch) :=
  inferInstanceAs (Decidable (_ ∧ _))

/-- Digit by digit; the first value above the limit ends it. -/
def accumulate (radix limit : Nat) : Nat → List Char → Option Nat
  | acc, [] => some acc
  | acc, ch :: chs =>
      if IsDigit radix ch then
        let next := radix * acc + (ch.toNat - '0'.toNat)
        if next ≤ limit then accumulate radix limit next chs else none
      else none

def parseUnsigned (radix limit : Nat) : List Char → Option Nat
  | [] => none
  | ['+'] => none
  | '+' :: digits => accumulate radix limit 0 digits
  | digits => accumulate radix limit 0 digits

/-- Numbers from `-limit - 1` to `limit`. -/
def parseSigned (radix limit : Nat) : List Char → Option Int
  | ['-'] => none
  | '-' :: digits => (accumulate radix (limit + 1) 0 digits).map fun (n : Nat) => -(n : Int)
  | text => (parseUnsigned radix limit text).map fun (n : Nat) => (n : Int)

/-- What is read as `n`: digits of that value, perhaps behind a plus. -/
def Reads (radix : Nat) (text : List Char) (n : Nat) : Prop :=
  ∃ digits, (text = digits ∨ text = '+' :: digits) ∧ digits ≠ [] ∧
    (∀ ch ∈ digits, IsDigit radix ch) ∧ Nat.ofDigitChars radix digits 0 = n

variable {radix limit : Nat}

theorem le_ofDigitChars (hradix : 0 < radix) : ∀ (chs : List Char) (acc : Nat),
    acc ≤ Nat.ofDigitChars radix chs acc
  | [], acc => Nat.le_of_eq Nat.ofDigitChars_nil.symm
  | ch :: chs, acc => by
      have hmul : acc ≤ radix * acc := Nat.le_mul_of_pos_left acc hradix
      have ih := le_ofDigitChars hradix chs (radix * acc + (ch.toNat - '0'.toNat))
      rw [Nat.ofDigitChars_cons]
      omega

/-- The checks on the way are one check at the end. -/
theorem accumulate_eq_some_iff (hradix : 0 < radix) : ∀ {chs : List Char} {acc n : Nat},
    acc ≤ limit → (accumulate radix limit acc chs = some n ↔
      (∀ ch ∈ chs, IsDigit radix ch) ∧ Nat.ofDigitChars radix chs acc = n ∧ n ≤ limit)
  | [], acc, n, hacc => by
      rw [accumulate, Option.some.injEq, Nat.ofDigitChars_nil]
      constructor
      · rintro rfl
        exact ⟨List.forall_mem_nil _, rfl, hacc⟩
      · rintro ⟨-, rfl, -⟩
        rfl
  | ch :: chs, acc, n, hacc => by
      rw [accumulate, List.forall_mem_cons, Nat.ofDigitChars_cons]
      by_cases hdigit : IsDigit radix ch
      · rw [if_pos hdigit]
        dsimp only
        by_cases hnext : radix * acc + (ch.toNat - '0'.toNat) ≤ limit
        · rw [if_pos hnext, accumulate_eq_some_iff hradix hnext]
          exact ⟨fun h => ⟨⟨hdigit, h.1⟩, h.2⟩, fun h => ⟨h.1.2, h.2⟩⟩
        · rw [if_neg hnext]
          refine iff_of_false (by rintro ⟨⟩) ?_
          rintro ⟨-, hvalue, hn⟩
          have hle := le_ofDigitChars hradix chs (radix * acc + (ch.toNat - '0'.toNat))
          omega
      · rw [if_neg hdigit]
        exact iff_of_false (by rintro ⟨⟩) fun h => hdigit h.1.1

theorem not_isDigit_plus : ¬ IsDigit radix '+' := fun h => absurd h.1 (by decide)

theorem not_isDigit_minus : ¬ IsDigit radix '-' := fun h => absurd h.1 (by decide)

theorem parseUnsigned_eq_some_iff (hradix : 0 < radix) {text : List Char} {n : Nat} :
    parseUnsigned radix limit text = some n ↔ Reads radix text n ∧ n ≤ limit := by
  unfold Reads
  unfold parseUnsigned
  split
  · refine iff_of_false (by rintro ⟨⟩) ?_
    rintro ⟨⟨digits, rfl | h, hne, -⟩, -⟩
    · exact hne rfl
    · cases h
  · refine iff_of_false (by rintro ⟨⟩) ?_
    rintro ⟨⟨digits, rfl | h, hne, hdigits, -⟩, -⟩
    · exact not_isDigit_plus (hdigits '+' List.mem_cons_self)
    · exact hne (List.cons.inj h).2.symm
  · rename_i digits hdigits
    rw [accumulate_eq_some_iff hradix (Nat.zero_le limit)]
    constructor
    · rintro ⟨hall, hvalue, hn⟩
      exact ⟨⟨digits, Or.inr rfl, fun h => hdigits (by rw [h]), hall, hvalue⟩, hn⟩
    · rintro ⟨⟨digits', rfl | h, -, hall, hvalue⟩, hn⟩
      · exact absurd (hall '+' List.mem_cons_self) not_isDigit_plus
      · obtain rfl := (List.cons.inj h).2
        exact ⟨hall, hvalue, hn⟩
  · rename_i hnil hplus hsigned
    rw [accumulate_eq_some_iff hradix (Nat.zero_le limit)]
    constructor
    · rintro ⟨hall, hvalue, hn⟩
      exact ⟨⟨text, Or.inl rfl, fun h => hnil h, hall, hvalue⟩, hn⟩
    · rintro ⟨⟨digits, rfl | rfl, -, hall, hvalue⟩, hn⟩
      · exact ⟨hall, hvalue, hn⟩
      · exact absurd rfl (hsigned digits)

theorem parseSigned_bounds (hradix : 0 < radix) {text : List Char} {n : Int}
    (h : parseSigned radix limit text = some n) : -(limit : Int) - 1 ≤ n ∧ n ≤ limit := by
  unfold parseSigned at h
  split at h
  · cases h
  · obtain ⟨k, hk, rfl⟩ := Option.map_eq_some_iff.mp h
    have hle := ((accumulate_eq_some_iff hradix (Nat.zero_le _)).mp hk).2.2
    omega
  · obtain ⟨k, hk, rfl⟩ := Option.map_eq_some_iff.mp h
    have hle := ((parseUnsigned_eq_some_iff hradix).mp hk).2
    omega

/-! ## Printed numbers -/

theorem isDigit_digitChar {d : Nat} (hd : d < radix) (hradix : radix ≤ 10) :
    IsDigit radix (Nat.digitChar d) := by
  have hchar := Nat.toNat_digitChar_of_lt_ten (Nat.lt_of_lt_of_le hd hradix)
  have hzero : '0'.toNat = 48 := rfl
  unfold IsDigit
  omega

theorem isDigit_of_mem_toDigits (hone : 1 < radix) (hradix : radix ≤ 10) (n : Nat) :
    ∀ ch ∈ Nat.toDigits radix n, IsDigit radix ch := by
  induction n using Nat.strongRecOn with
  | ind n ih =>
      rcases Nat.lt_or_ge n radix with hlt | hge
      · rw [Nat.toDigits_of_lt_base hlt, List.forall_mem_singleton]
        exact isDigit_digitChar hlt hradix
      · rw [Nat.toDigits_of_base_le hone hge, List.forall_mem_append, List.forall_mem_singleton]
        exact ⟨ih (n / radix) (Nat.div_lt_self (by omega) hone),
          isDigit_digitChar (Nat.mod_lt n (by omega)) hradix⟩

theorem parseUnsigned_toDigits (hone : 1 < radix) (hradix : radix ≤ 10) {n : Nat}
    (hn : n ≤ limit) : parseUnsigned radix limit (Nat.toDigits radix n) = some n := by
  rw [parseUnsigned_eq_some_iff (by omega)]
  exact ⟨⟨_, Or.inl rfl, Nat.toDigits_ne_nil, isDigit_of_mem_toDigits hone hradix n,
    Nat.ofDigitChars_toDigits hone hradix⟩, hn⟩

/-- `to_string` of a signed number. -/
def printSigned (n : Int) : List Char :=
  if n < 0 then '-' :: Nat.toDigits 10 n.natAbs else Nat.toDigits 10 n.toNat

theorem head_toDigits_ne_minus (n : Nat) (rest : List Char) : Nat.toDigits 10 n ≠ '-' :: rest := by
  intro h
  have hminus : IsDigit 10 '-' :=
    isDigit_of_mem_toDigits (by decide) (by decide) n '-' (h ▸ List.mem_cons_self)
  exact not_isDigit_minus hminus

theorem parseSigned_printSigned {n : Int} (hlo : -(limit : Int) - 1 ≤ n) (hhi : n ≤ limit) :
    parseSigned 10 limit (printSigned n) = some n := by
  unfold printSigned
  by_cases hneg : n < 0
  · have hdigits : accumulate 10 (limit + 1) 0 (Nat.toDigits 10 n.natAbs) = some n.natAbs := by
      rw [accumulate_eq_some_iff (by decide) (Nat.zero_le _)]
      exact ⟨isDigit_of_mem_toDigits (by decide) (by decide) _, Nat.ofDigitChars_ten_toDigits,
        by omega⟩
    rw [if_pos hneg, parseSigned.eq_2 _ _ _ Nat.toDigits_ne_nil,
      hdigits, Option.map_some]
    congr 1
    omega
  · have hdigits : parseUnsigned 10 limit (Nat.toDigits 10 n.toNat) = some n.toNat :=
      parseUnsigned_toDigits (by decide) (by decide) (by omega)
    rw [if_neg hneg, parseSigned.eq_3 _ _ _ (head_toDigits_ne_minus _ _)
      (fun rest => head_toDigits_ne_minus _ rest), hdigits, Option.map_some]
    congr 1
    omega

end Numeral
