import Mathlib.Data.Int.Basic

/-!
# The proleptic Gregorian calendar

The years go through zero to the negative ones. Days are counted one by one from
a given date, forward and back.
-/

namespace Gregorian

structure Date where
  year : Int
  month : Nat
  day : Nat
deriving DecidableEq, Repr

def IsLeap (year : Int) : Prop := year % 4 = 0 ∧ (year % 100 ≠ 0 ∨ year % 400 = 0)

instance (year : Int) : Decidable (IsLeap year) := inferInstanceAs (Decidable (_ ∧ _))

def monthLength (year : Int) (month : Nat) : Nat :=
  if month = 2 then if IsLeap year then 29 else 28
  else if month = 4 ∨ month = 6 ∨ month = 9 ∨ month = 11 then 30
  else 31

structure Date.Valid (date : Date) : Prop where
  month_pos : 1 ≤ date.month
  month_le : date.month ≤ 12
  day_pos : 1 ≤ date.day
  day_le : date.day ≤ monthLength date.year date.month

def Date.next (date : Date) : Date :=
  if date.day < monthLength date.year date.month then { date with day := date.day + 1 }
  else if date.month < 12 then ⟨date.year, date.month + 1, 1⟩
  else ⟨date.year + 1, 1, 1⟩

/-- The number of a day, counted from the epoch. -/
inductive DayNumber (epoch : Date) : Date → Int → Prop
  | epoch : DayNumber epoch epoch 0
  | next {date : Date} {n : Int} : DayNumber epoch date n → DayNumber epoch date.next (n + 1)
  | back {date : Date} {n : Int} : date.Valid → DayNumber epoch date.next (n + 1) →
      DayNumber epoch date n

theorem monthLength_pos (year : Int) (month : Nat) : 1 ≤ monthLength year month := by
  unfold monthLength
  split_ifs <;> decide

theorem monthLength_le (year : Int) (month : Nat) : monthLength year month ≤ 31 := by
  unfold monthLength
  split_ifs <;> decide

theorem Date.Valid.next {date : Date} (h : date.Valid) : date.next.Valid := by
  obtain ⟨hmonth, hmonth', hday, hday'⟩ := h
  unfold Date.next
  by_cases hinside : date.day < monthLength date.year date.month
  · rw [if_pos hinside]
    exact ⟨hmonth, hmonth', Nat.le_add_left 1 _, hinside⟩
  · rw [if_neg hinside]
    by_cases hlast : date.month < 12
    · rw [if_pos hlast]
      exact ⟨Nat.le_add_left 1 _, hlast, Nat.le_refl 1, monthLength_pos _ _⟩
    · rw [if_neg hlast]
      exact ⟨Nat.le_refl 1, Nat.le_add_left 1 11, Nat.le_refl 1, monthLength_pos _ _⟩

/-! ## From any date to any other -/

section Connected

variable {P : Date → Prop} (h : ∀ date : Date, date.Valid → (P date ↔ P date.next))

include h

theorem iff_monthStart {year : Int} {month : Nat} (hmonth : 1 ≤ month) (hmonth' : month ≤ 12)
    {day : Nat} (hday : 1 ≤ day) (hday' : day ≤ monthLength year month) :
    P ⟨year, month, 1⟩ ↔ P ⟨year, month, day⟩ := by
  induction day, hday using Nat.le_induction with
  | base => exact Iff.rfl
  | succ day hday ih =>
      have hnext : Date.next ⟨year, month, day⟩ = ⟨year, month, day + 1⟩ := if_pos hday'
      rw [ih (by omega), h ⟨year, month, day⟩ ⟨hmonth, hmonth', hday, Nat.le_of_succ_le hday'⟩,
        hnext]

/-- The last day of a month leads to the next one. -/
theorem iff_monthEnd (year : Int) {month : Nat} (hmonth : 1 ≤ month) (hmonth' : month ≤ 12) :
    P ⟨year, month, 1⟩ ↔ P (if month < 12 then ⟨year, month + 1, 1⟩ else ⟨year + 1, 1, 1⟩) := by
  have hnext : Date.next ⟨year, month, monthLength year month⟩ =
      if month < 12 then ⟨year, month + 1, 1⟩ else ⟨year + 1, 1, 1⟩ := if_neg (lt_irrefl _)
  rw [iff_monthStart h hmonth hmonth' (monthLength_pos year month) le_rfl,
    h _ ⟨hmonth, hmonth', monthLength_pos year month, le_rfl⟩, hnext]

theorem iff_yearStart (year : Int) {month : Nat} (hmonth : 1 ≤ month) (hmonth' : month ≤ 12) :
    P ⟨year, 1, 1⟩ ↔ P ⟨year, month, 1⟩ := by
  induction month, hmonth using Nat.le_induction with
  | base => exact Iff.rfl
  | succ month hmonth ih =>
      rw [ih (by omega), iff_monthEnd h year hmonth (by omega), if_pos (by omega)]

theorem iff_nextYear (year : Int) : P ⟨year, 1, 1⟩ ↔ P ⟨year + 1, 1, 1⟩ := by
  have hstart : P ⟨year, 1, 1⟩ ↔ P ⟨year, 12, 1⟩ := iff_yearStart h year (by decide) (by decide)
  have hend := @iff_monthEnd P h year 12 (by decide) (by decide)
  rw [if_neg (by decide)] at hend
  rw [hstart, hend]

theorem iff_yearZero (year : Int) : P ⟨0, 1, 1⟩ ↔ P ⟨year, 1, 1⟩ := by
  induction year using Int.induction_on with
  | zero => exact Iff.rfl
  | succ year ih => rw [ih, iff_nextYear h]
  | pred year ih => rw [ih, iff_nextYear h (-(year : Int) - 1), Int.sub_add_cancel]

/-- What a step of one day keeps, either way, holds of all dates or of none. -/
theorem iff_of_valid {a b : Date} (ha : a.Valid) (hb : b.Valid) : P a ↔ P b := by
  have hall : ∀ date : Date, date.Valid → (P ⟨0, 1, 1⟩ ↔ P date) := fun date hdate =>
    (iff_yearZero h date.year).trans ((iff_yearStart h date.year hdate.month_pos hdate.month_le).trans
      (iff_monthStart h hdate.month_pos hdate.month_le hdate.day_pos hdate.day_le))
  exact (hall a ha).symm.trans (hall b hb)

end Connected

theorem DayNumber.valid {epoch date : Date} {n : Int} (hepoch : epoch.Valid)
    (h : DayNumber epoch date n) : date.Valid := by
  induction h with
  | epoch => exact hepoch
  | next _ ih => exact ih.next
  | back hdate _ _ => exact hdate

/-- A function that is zero at the epoch and one more for each next day is the number of days. -/
theorem dayNumber_iff {f : Date → Int} {epoch date : Date} {n : Int} (hepoch : epoch.Valid)
    (hzero : f epoch = 0) (hnext : ∀ date : Date, date.Valid → f date.next = f date + 1)
    (hdate : date.Valid) : DayNumber epoch date n ↔ n = f date := by
  constructor
  · intro h
    induction h with
    | epoch => exact hzero.symm
    | next hnumber ih =>
        have hvalid := hnumber.valid hepoch
        rw [hnext _ hvalid, ← ih hvalid]
    | back hvalid _ ih =>
        have heq := ih hvalid.next
        rw [hnext _ hvalid] at heq
        omega
  · rintro rfl
    have hstep : ∀ date : Date, date.Valid →
        (DayNumber epoch date (f date) ↔ DayNumber epoch date.next (f date.next)) := by
      intro date hvalid
      rw [hnext date hvalid]
      exact ⟨.next, .back hvalid⟩
    rw [← iff_of_valid hstep hepoch hdate, hzero]
    exact .epoch

end Gregorian
