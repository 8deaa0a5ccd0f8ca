import RsyncWin.Lib.Gregorian
import RsyncWin.Lib.Numeral
import RsyncWin.Batch.File

/-!
# The stop time (`rsync-cli/src/plan/mod.rs`)

A full date is turned into days by a closed formula, a clock time is put on the
day of now or the one behind it. The arithmetic on dates is checked at 64 bits.
-/

namespace RsyncWin

open ByteString

/-! ## Dates -/

def isLeapYear (year : Int) : Bool :=
  (year.tmod 4 = 0 && year.tmod 100 ≠ 0) || year.tmod 400 = 0

def daysInMonth (year : Int) (month : Nat) : Nat :=
  if [1, 3, 5, 7, 8, 10, 12].contains month then 31
  else if [4, 6, 9, 11].contains month then 30
  else if month = 2 then if isLeapYear year then 29 else 28
  else 0

/-- An `i64` result. -/
def i64 (v : Int) : Except Error Int :=
  if -9223372036854775808 ≤ v ∧ v ≤ 9223372036854775807 then .ok v
  else .error (.panic "attempt to compute with overflow")

def daysFromCivil (year : Int) (month day : Nat) : Except Error Int :=
  if ¬ (1 ≤ month ∧ month ≤ 12) then .error (.other "--stop-at month is outside 1..12")
  else
    let maxDay := daysInMonth year month
    if day = 0 ∨ day > maxDay then
      .error (.other "--stop-at day is outside the valid range for the month")
    else do
      let m : Int := month
      let d : Int := day
      let y ← i64 (year - if m ≤ 2 then 1 else 0)
      let shifted ← if y ≥ 0 then pure y else i64 (y - 399)
      let era := shifted.tdiv 400
      let eraYears ← i64 (era * 400)
      let yoe ← i64 (y - eraYears)
      let mp ← i64 (m + if m > 2 then -3 else 9)
      let monthDays ← i64 (153 * mp)
      let monthDays ← i64 (monthDays + 2)
      let doy ← i64 (monthDays.tdiv 5 + d)
      let doy ← i64 (doy - 1)
      let doe ← i64 (yoe * 365)
      let doe ← i64 (doe + yoe.tdiv 4)
      let doe ← i64 (doe - yoe.tdiv 100)
      let doe ← i64 (doe + doy)
      let eraDays ← i64 (era * 146097)
      let days ← i64 (eraDays + doe)
      i64 (days - 719468)

/-! ## Clock times -/

/-- `part.parse().context(message)`. -/
def parsePart {α : Type} (parse : Text → Option α) (message : String) (part : Text) :
    Except Error α :=
  match parse part with
  | some n => .ok n
  | none => .error (.other message)

def parseClockPart (message : String) (part : Text) : Except Error Nat :=
  parsePart (Numeral.parseUnsigned 10 u64Max) message part

def parseStopAtClockSeconds (value : Text) : Except Error Nat :=
  let parts := value.splitOn ':'
  if parts.length < 2 ∨ parts.length > 3 then
    .error (.other "--stop-at time must use HH:MM or HH:MM:SS")
  else do
    let hour ← parseClockPart "--stop-at hour is not valid" (parts.getD 0 [])
    let minute ← parseClockPart "--stop-at minute is not valid" (parts.getD 1 [])
    let second ← (if parts.length = 3 then
        parseClockPart "--stop-at second is not valid" (parts.getD 2 [])
      else pure 0)
    if hour > 23 ∨ minute > 59 ∨ second > 59 then
      .error (.other "--stop-at time is outside the valid clock range")
    else pure (hour * 3600 + minute * 60 + second)

/-- The seconds of `duration_since(UNIX_EPOCH)`. -/
def SystemTime.unixSeconds (time : SystemTime) : Option Nat :=
  if 0 ≤ time.secs then some time.secs.toNat else none

/-- With the seconds of a time below `2^63` none of the sums leaves `u64`. -/
def parseClockStopAtUtc (value : Text) (now : SystemTime) : Except Error SystemTime := do
  let targetSeconds ← parseStopAtClockSeconds value
  match now.unixSeconds with
  | none => .error (.other "system clock is before the Unix epoch")
  | some nowSeconds =>
      let dayStart := nowSeconds - nowSeconds % 86400
      let candidate := dayStart + targetSeconds
      if candidate ≤ nowSeconds then epochPlus (candidate + 86400) else epochPlus candidate

def parseFullStopAtUtc (value : Text) : Except Error SystemTime :=
  match splitOnce (· = 'T') value with
  | none => .error (.other "--stop-at full form must use y-m-dTh:m")
  | some (date, time) =>
      let dateParts := date.splitOnP fun ch => ch = '-' || ch = '/'
      if dateParts.length ≠ 3 then .error (.other "--stop-at full date must use y-m-d")
      else do
        let year ← parsePart (Numeral.parseSigned 10 i32Max) "--stop-at year is not valid"
          (dateParts.getD 0 [])
        let month ← parsePart (Numeral.parseUnsigned 10 4294967295)
          "--stop-at month is not valid" (dateParts.getD 1 [])
        let day ← parsePart (Numeral.parseUnsigned 10 4294967295) "--stop-at day is not valid"
          (dateParts.getD 2 [])
        let seconds ← parseStopAtClockSeconds time
        let days ← daysFromCivil year month day
        match i64 (days * 86400) >>= fun base => i64 (base + seconds) with
        | .error _ => .error (.other "--stop-at timestamp exceeds the supported range")
        | .ok epochSeconds =>
            if epochSeconds < 0 then
              .error (.other "--stop-at dates before 1970 are not supported")
            else epochPlus epochSeconds.toNat

/-! ## The formula -/

theorem isLeapYear_eq (year : Int) : isLeapYear year = decide (Gregorian.IsLeap year) := by
  rw [Bool.eq_iff_iff, decide_eq_true_iff]
  unfold isLeapYear Gregorian.IsLeap
  simp only [Bool.or_eq_true, Bool.and_eq_true, decide_eq_true_eq, ← Int.dvd_iff_tmod_eq_zero,
    ne_eq]
  omega

theorem daysInMonth_eq (year : Int) {month : Nat} (h : 1 ≤ month) (h' : month ≤ 12) :
    daysInMonth year month = Gregorian.monthLength year month := by
  unfold daysInMonth Gregorian.monthLength
  rw [isLeapYear_eq]
  interval_cases month <;> simp

/-- The day number in whole years, months counted from March, and days. -/
def civilDays (date : Gregorian.Date) : Int :=
  let y := if date.month ≤ 2 then date.year - 1 else date.year
  let mp : Int := if date.month ≤ 2 then date.month + 9 else date.month - 3
  365 * y + y / 4 - y / 100 + y / 400 + (153 * mp + 2) / 5 + date.day - 719469

theorem i64_of_le {v : Int} (h : -9223372036854775808 ≤ v) (h' : v ≤ 9223372036854775807) :
    i64 v = .ok v := if_pos ⟨h, h'⟩

theorem i64_eq_ok {v w : Int} (h : i64 v = .ok w) : w = v := by
  unfold i64 at h
  split at h
  · exact (Except.ok.inj h).symm
  · cases h

/-- The correction makes the truncated quotient the floor. -/
theorem era_of_neg {y : Int} (h : y < 0) : (y - 399).tdiv 400 = y / 400 := by
  have hneg : y - 399 = -(399 - y) := by omega
  rw [hneg, Int.neg_tdiv, Int.tdiv_eq_ediv_of_nonneg (by omega)]
  omega

/-- No step of the formula overflows, and it is the plain one. -/
theorem daysFromCivil_valid (date : Gregorian.Date) (hyear : IsI32 date.year)
    (hvalid : date.Valid) :
    daysFromCivil date.year date.month date.day = .ok (civilDays date) := by
  obtain ⟨year, month, day⟩ := date
  obtain ⟨hlo, hhi⟩ := hyear
  obtain ⟨hmonth, hmonth', hday, hday'⟩ := hvalid
  dsimp only at hlo hhi hmonth hmonth' hday hday' ⊢
  have hdays := Gregorian.monthLength_le year month
  unfold daysFromCivil
  rw [if_neg (not_not.mpr ⟨hmonth, hmonth'⟩)]
  dsimp only
  rw [daysInMonth_eq year hmonth hmonth', if_neg (by omega)]
  obtain ⟨y, hy⟩ : ∃ y : Int, y = year - if (month : Int) ≤ 2 then 1 else 0 := ⟨_, rfl⟩
  obtain ⟨mp, hmp⟩ : ∃ mp : Int, mp = month + if (month : Int) > 2 then -3 else 9 := ⟨_, rfl⟩
  have hy' : y = if month ≤ 2 then year - 1 else year := by
    rw [hy]
    split_ifs <;> omega
  have hmp' : mp = if month ≤ 2 then (month : Int) + 9 else month - 3 := by
    rw [hmp]
    split_ifs <;> omega
  have hybounds : -2147483649 ≤ y ∧ y ≤ 2147483647 := by
    rw [hy']
    split_ifs <;> omega
  have hmpbounds : 0 ≤ mp ∧ mp ≤ 11 := by
    rw [hmp']
    split_ifs <;> omega
  obtain ⟨shifted, hshifted, hera⟩ : ∃ shifted,
      (if y ≥ 0 then pure y else i64 (y - 399)) = Except.ok shifted ∧
        shifted.tdiv 400 = y / 400 := by
    by_cases hpos : y ≥ 0
    · exact ⟨y, if_pos hpos, Int.tdiv_eq_ediv_of_nonneg hpos⟩
    · exact ⟨y - 399, (if_neg hpos).trans (i64_of_le (by omega) (by omega)),
        era_of_neg (by omega)⟩
  have hchecked : ∀ rest : Int → Except Error Int, Except.ok y >>= rest = rest y := fun _ => rfl
  have hsame : ∀ (x x' : Except Error Int) (rest : Int → Except Error Int),
      (if y ≥ 0 then x >>= rest else x' >>= rest) = (if y ≥ 0 then x else x') >>= rest :=
    fun x x' rest => (apply_ite (· >>= rest) _ x x').symm
  have hyoe : 0 ≤ y - y / 400 * 400 ∧ y - y / 400 * 400 < 400 := by omega
  unfold civilDays
  dsimp only
  rw [← hy, ← hmp, ← hy', ← hmp', i64_of_le (by omega) (by omega), hchecked, hsame, hshifted]
  dsimp only [bind, Except.bind]
  rw [hera]
  generalize y / 400 = era at hyoe ⊢
  simp (disch := omega) only [i64_of_le, Int.tdiv_eq_ediv_of_nonneg]
  congr 1
  omega

theorem daysFromCivil_invalid (date : Gregorian.Date) (hinvalid : ¬ date.Valid) :
    ∃ message, daysFromCivil date.year date.month date.day = .error (.other message) := by
  unfold daysFromCivil
  by_cases hmonth : 1 ≤ date.month ∧ date.month ≤ 12
  · rw [if_neg (not_not.mpr hmonth)]
    dsimp only
    rw [daysInMonth_eq date.year hmonth.1 hmonth.2]
    by_cases hday : date.day = 0 ∨ date.day > Gregorian.monthLength date.year date.month
    · exact ⟨_, if_pos hday⟩
    · exact absurd ⟨hmonth.1, hmonth.2, by omega, by omega⟩ hinvalid
  · exact ⟨_, if_pos hmonth⟩

theorem civilDays_next {date : Gregorian.Date} (hvalid : date.Valid) :
    civilDays date.next = civilDays date + 1 := by
  obtain ⟨year, month, day⟩ := date
  obtain ⟨hmonth, hmonth', hday, hday'⟩ := hvalid
  dsimp only at hmonth hmonth' hday hday'
  unfold Gregorian.Date.next civilDays
  dsimp only
  by_cases hinside : day < Gregorian.monthLength year month
  · rw [if_pos hinside]
    dsimp only
    push_cast
    omega
  · -- the last day of a month: how long it is, and how far the next one starts
    obtain rfl : day = Gregorian.monthLength year month := by omega
    rw [if_neg hinside]
    unfold Gregorian.monthLength
    by_cases hleap : Gregorian.IsLeap year
    · simp only [if_pos hleap]
      unfold Gregorian.IsLeap at hleap
      interval_cases month <;> simp <;> omega
    · simp only [if_neg hleap]
      unfold Gregorian.IsLeap at hleap
      interval_cases month <;> simp <;> omega

/-- The day that the numbers start from. -/
def unixEpochDate : Gregorian.Date := ⟨1970, 1, 1⟩

theorem daysFromCivil_eq_ok_iff (date : Gregorian.Date) (hyear : IsI32 date.year) {n : Int} :
    daysFromCivil date.year date.month date.day = .ok n ↔
      date.Valid ∧ Gregorian.DayNumber unixEpochDate date n := by
  by_cases hvalid : date.Valid
  · rw [daysFromCivil_valid date hyear hvalid, Gregorian.dayNumber_iff
      ⟨by decide, by decide, by decide, by decide⟩ (f := civilDays) (by decide)
      (fun _ => civilDays_next) hvalid, Except.ok.injEq, and_iff_right hvalid, eq_comm]
  · obtain ⟨message, herror⟩ := daysFromCivil_invalid date hvalid
    rw [herror]
    exact iff_of_false (by rintro ⟨⟩) fun h => hvalid h.1

/-! ## The clock -/

/-- What a clock string says: `hour:minute` or `hour:minute:second`. -/
def ReadsClock (value : Text) (hour minute second : Nat) : Prop :=
  (hour ≤ 23 ∧ minute ≤ 59 ∧ second ≤ 59) ∧
  ∃ h m, Numeral.Reads 10 h hour ∧ Numeral.Reads 10 m minute ∧
    ((value = h ++ ':' :: m ∧ second = 0) ∨
      ∃ s, Numeral.Reads 10 s second ∧ value = h ++ ':' :: (m ++ ':' :: s))

theorem parseClockPart_eq_ok_iff {message : String} {part : Text} {n : Nat} :
    parseClockPart message part = .ok n ↔ Numeral.Reads 10 part n ∧ n ≤ u64Max := by
  rw [← Numeral.parseUnsigned_eq_some_iff (by decide)]
  unfold parseClockPart parsePart
  cases Numeral.parseUnsigned 10 u64Max part with
  | none => exact iff_of_false (by rintro ⟨⟩) (by rintro ⟨⟩)
  | some k => rw [Except.ok.injEq, Option.some.injEq]

theorem colon_notMem_of_reads {text : Text} {n : Nat} (h : Numeral.Reads 10 text n) :
    ':' ∉ text := by
  obtain ⟨digits, htext, -, hall, -⟩ := h
  have hdigits : ':' ∉ digits := fun hmem => absurd (hall ':' hmem) (by decide)
  rcases htext with rfl | rfl
  · exact hdigits
  · simpa using hdigits

theorem splitOn_colon (parts : List Text) (hne : parts ≠ []) (h : ∀ part ∈ parts, ':' ∉ part) :
    ([':'].intercalate parts).splitOn ':' = parts := List.splitOn_intercalate ':' h hne

theorem clockSeconds_eq_ok_iff {x y z : Except Error Nat} {seconds : Nat} :
    (x >>= fun hour => y >>= fun minute => z >>= fun second =>
      if hour > 23 ∨ minute > 59 ∨ second > 59 then
        .error (.other "--stop-at time is outside the valid clock range")
      else pure (hour * 3600 + minute * 60 + second)) = Except.ok seconds ↔
    ∃ hour minute second, x = .ok hour ∧ y = .ok minute ∧ z = .ok second ∧
      (hour ≤ 23 ∧ minute ≤ 59 ∧ second ≤ 59) ∧ seconds = hour * 3600 + minute * 60 + second := by
  constructor
  · intro h
    obtain ⟨hour, hx, h⟩ := except_bind_ok h
    obtain ⟨minute, hy, h⟩ := except_bind_ok h
    obtain ⟨second, hz, h⟩ := except_bind_ok h
    by_cases hrange : hour > 23 ∨ minute > 59 ∨ second > 59
    · rw [if_pos hrange] at h
      cases h
    · rw [if_neg hrange] at h
      exact ⟨hour, minute, second, hx, hy, hz, by omega, (Except.ok.inj h).symm⟩
  · rintro ⟨hour, minute, second, rfl, rfl, rfl, hrange, rfl⟩
    exact if_neg (by omega)

/-- The clock times are the strings that are taken, and they mean what they say. -/
theorem parseStopAtClockSeconds_eq_ok_iff {value : Text} {seconds : Nat} :
    parseStopAtClockSeconds value = .ok seconds ↔
      ∃ hour minute second, ReadsClock value hour minute second ∧
        seconds = hour * 3600 + minute * 60 + second := by
  have hmax : u64Max = 18446744073709551615 := rfl
  unfold parseStopAtClockSeconds
  constructor
  · have hjoin : [':'].intercalate (value.splitOn ':') = value := List.intercalate_splitOn ':'
    generalize value.splitOn ':' = parts at hjoin
    subst hjoin
    rcases parts with _ | ⟨hourText, _ | ⟨minuteText, _ | ⟨secondText, _ | ⟨more, rest⟩⟩⟩⟩
    · rintro ⟨⟩
    · rintro ⟨⟩
    · intro h
      obtain ⟨hour, minute, second, hx, hy, hz, hrange, hseconds⟩ := clockSeconds_eq_ok_iff.mp h
      obtain rfl := Except.ok.inj hz
      exact ⟨hour, minute, 0, ⟨hrange, hourText, minuteText, (parseClockPart_eq_ok_iff.mp hx).1,
        (parseClockPart_eq_ok_iff.mp hy).1, Or.inl ⟨by simp [List.intercalate], rfl⟩⟩, hseconds⟩
    · intro h
      obtain ⟨hour, minute, second, hx, hy, hz, hrange, hseconds⟩ := clockSeconds_eq_ok_iff.mp h
      exact ⟨hour, minute, second, ⟨hrange, hourText, minuteText,
        (parseClockPart_eq_ok_iff.mp hx).1, (parseClockPart_eq_ok_iff.mp hy).1,
        Or.inr ⟨secondText, (parseClockPart_eq_ok_iff.mp hz).1, by simp [List.intercalate]⟩⟩,
        hseconds⟩
    · intro h
      rw [if_pos (by simp)] at h
      cases h
  · rintro ⟨hour, minute, second, ⟨hrange, hourText, minuteText, hhour, hminute, hvalue⟩, rfl⟩
    have hcolon := colon_notMem_of_reads hhour
    have hcolon' := colon_notMem_of_reads hminute
    rcases hvalue with ⟨rfl, rfl⟩ | ⟨secondText, hsecond, rfl⟩
    · have hsplit := splitOn_colon [hourText, minuteText] (by simp)
        (by simp [hcolon, hcolon'])
      have hjoin : [':'].intercalate [hourText, minuteText] = hourText ++ ':' :: minuteText := by
        simp [List.intercalate]
      rw [← hjoin, hsplit]
      exact clockSeconds_eq_ok_iff.mpr ⟨hour, minute, 0,
        parseClockPart_eq_ok_iff.mpr ⟨hhour, by omega⟩,
        parseClockPart_eq_ok_iff.mpr ⟨hminute, by omega⟩, rfl, hrange, rfl⟩
    · have hsplit := splitOn_colon [hourText, minuteText, secondText] (by simp)
        (by simp [hcolon, hcolon', colon_notMem_of_reads hsecond])
      have hjoin : [':'].intercalate [hourText, minuteText, secondText] =
          hourText ++ ':' :: (minuteText ++ ':' :: secondText) := by
        simp [List.intercalate]
      rw [← hjoin, hsplit]
      exact clockSeconds_eq_ok_iff.mpr ⟨hour, minute, second,
        parseClockPart_eq_ok_iff.mpr ⟨hhour, by omega⟩,
        parseClockPart_eq_ok_iff.mpr ⟨hminute, by omega⟩,
        parseClockPart_eq_ok_iff.mpr ⟨hsecond, by omega⟩, hrange, rfl⟩

theorem ReadsClock.lt_day {value : Text} {hour minute second : Nat}
    (h : ReadsClock value hour minute second) : hour * 3600 + minute * 60 + second < 86400 := by
  obtain ⟨hrange, -⟩ := h
  omega

/-- The time as nanoseconds from the epoch. -/
def SystemTime.sinceEpoch (time : SystemTime) : Int := time.secs * 1000000000 + time.nanos

/-- The next time the clock shows what the string says, behind now and by no more than a day. -/
theorem parseClockStopAtUtc_of_reads {value : Text} {hour minute second : Nat}
    (h : ReadsClock value hour minute second) {now : SystemTime} (hnow : 0 ≤ now.secs) :
    ∃ next : Nat, parseClockStopAtUtc value now = epochPlus next ∧
      next % 86400 = hour * 3600 + minute * 60 + second ∧
      now.sinceEpoch < next * 1000000000 ∧
      next * 1000000000 ≤ now.sinceEpoch + 86400 * 1000000000 := by
  have hday := h.lt_day
  have htarget := parseStopAtClockSeconds_eq_ok_iff.mpr ⟨hour, minute, second, h, rfl⟩
  generalize hour * 3600 + minute * 60 + second = target at hday htarget ⊢
  obtain ⟨nowSeconds, hseconds⟩ : ∃ n : Nat, (n : Int) = now.secs :=
    ⟨_, Int.toNat_of_nonneg hnow⟩
  have hunix : now.unixSeconds = some nowSeconds := by
    unfold SystemTime.unixSeconds
    rw [if_pos hnow, ← hseconds, Int.toNat_natCast]
  have hnanos := now.nanos_lt
  unfold parseClockStopAtUtc SystemTime.sinceEpoch
  rw [htarget]
  dsimp only [bind, Except.bind]
  rw [hunix, ← hseconds]
  dsimp only
  by_cases hpassed : nowSeconds - nowSeconds % 86400 + target ≤ nowSeconds
  · rw [if_pos hpassed]
    exact ⟨_, rfl, by omega, by push_cast; omega, by push_cast; omega⟩
  · rw [if_neg hpassed]
    exact ⟨_, rfl, by omega, by push_cast; omega, by push_cast; omega⟩

theorem epochPlus_of_lt {secs : Nat} (h : secs < 2 ^ 63) :
    ∃ time, epochPlus secs = .ok time ∧ time.sinceEpoch = secs * 1000000000 := by
  refine ⟨_, dif_pos h, ?_⟩
  unfold SystemTime.sinceEpoch
  simp

theorem splitOnce_append {p : Char → Bool} {text head rest : Text}
    (h : splitOnce p text = some (head, rest)) : ∃ ch, p ch = true ∧ text = head ++ ch :: rest := by
  unfold splitOnce at h
  have hspan := List.takeWhile_append_dropWhile (p := fun ch => !p ch) (l := text)
  rw [List.span_eq_takeWhile_dropWhile] at h
  have hhead := List.head?_dropWhile_not (fun ch => !p ch) text
  cases hdrop : text.dropWhile fun ch => !p ch with
  | nil =>
      rw [hdrop] at h
      cases h
  | cons ch more =>
      rw [hdrop] at h hspan hhead
      obtain ⟨rfl, rfl⟩ := Prod.mk.inj (Option.some.inj h)
      exact ⟨ch, by simpa using hhead, hspan.symm⟩

theorem parsePart_eq_ok {α : Type} {parse : Text → Option α} {message : String} {part : Text}
    {n : α} (h : parsePart parse message part = .ok n) : parse part = some n := by
  unfold parsePart at h
  cases hparse : parse part with
  | none =>
      rw [hparse] at h
      cases h
  | some k =>
      rw [hparse] at h
      rw [Except.ok.inj h]

/-- A full stop time is the day of its date and the time of its clock. -/
theorem parseFullStopAtUtc_exact {value : Text} {time : SystemTime}
    (h : parseFullStopAtUtc value = .ok time) :
    ∃ (dateText clock : Text) (date : Gregorian.Date) (n : Int) (hour minute second seconds : Nat),
      value = dateText ++ 'T' :: clock ∧ date.Valid ∧
      Gregorian.DayNumber unixEpochDate date n ∧ ReadsClock clock hour minute second ∧
      (seconds : Int) = n * 86400 + (hour * 3600 + minute * 60 + second) ∧
      epochPlus seconds = .ok time := by
  unfold parseFullStopAtUtc at h
  cases hsplit : splitOnce (fun ch => decide (ch = 'T')) value with
  | none =>
      rw [hsplit] at h
      cases h
  | some split =>
      obtain ⟨dateText, clock⟩ := split
      obtain ⟨ch, hch, hvalue⟩ := splitOnce_append hsplit
      obtain rfl := of_decide_eq_true hch
      rw [hsplit] at h
      dsimp only at h
      split at h
      · cases h
      · obtain ⟨year, hyear, h⟩ := except_bind_ok h
        obtain ⟨month, hmonth, h⟩ := except_bind_ok h
        obtain ⟨day, hday, h⟩ := except_bind_ok h
        obtain ⟨target, htarget, h⟩ := except_bind_ok h
        obtain ⟨n, hn, h⟩ := except_bind_ok h
        have hbounds := Numeral.parseSigned_bounds (by decide) (parsePart_eq_ok hyear)
        have hi32 : IsI32 year := by
          unfold i32Max at hbounds
          exact ⟨by omega, by omega⟩
        obtain ⟨hvalid, hnumber⟩ :=
          (daysFromCivil_eq_ok_iff ⟨year, month, day⟩ hi32).mp hn
        obtain ⟨hour, minute, second, hclock, rfl⟩ := parseStopAtClockSeconds_eq_ok_iff.mp htarget
        cases hsum : i64 (n * 86400) >>= fun base =>
            i64 (base + (hour * 3600 + minute * 60 + second : Nat)) with
        | error e =>
            rw [hsum] at h
            cases h
        | ok epochSeconds =>
            rw [hsum] at h
            dsimp only at h
            obtain ⟨base, hbase, hepoch⟩ := except_bind_ok hsum
            obtain rfl := i64_eq_ok hbase
            obtain rfl := i64_eq_ok hepoch
            split at h
            · cases h
            · rename_i hsign
              refine ⟨dateText, clock, ⟨year, month, day⟩, n, hour, minute, second, _, hvalue,
                hvalid, hnumber, hclock, ?_, h⟩
              rw [Int.toNat_of_nonneg (by omega)]
              push_cast
              rfl

/-- **Stop-at dates are exact.** A date has days if and only if the calendar has it, and then as
many as are counted from the epoch one by one. A clock string stands for the next time behind now,
by a day at most, at which the clock reads it; where no `SystemTime` is that late, the sum panics. -/
theorem stop_at_exact :
    (∀ (year : Int) (month day : Nat), IsI32 year →
      (¬ Gregorian.Date.Valid ⟨year, month, day⟩ →
        ∃ message, daysFromCivil year month day = .error (.other message)) ∧
      (Gregorian.Date.Valid ⟨year, month, day⟩ →
        ∃ n, daysFromCivil year month day = .ok n ∧
          ∀ k, Gregorian.DayNumber ⟨1970, 1, 1⟩ ⟨year, month, day⟩ k ↔ k = n)) ∧
    ∀ (value : Text) (hour minute second : Nat), ReadsClock value hour minute second →
      ∀ now : SystemTime, 0 ≤ now.secs → ∃ next : Nat,
        next % 86400 = hour * 3600 + minute * 60 + second ∧
        now.sinceEpoch < next * 1000000000 ∧
        next * 1000000000 ≤ now.sinceEpoch + 86400 * 1000000000 ∧
        (next < 2 ^ 63 → ∃ time, parseClockStopAtUtc value now = .ok time ∧
          time.sinceEpoch = next * 1000000000) ∧
        (2 ^ 63 ≤ next → ∃ message, parseClockStopAtUtc value now = .error (.panic message)) := by
  constructor
  · intro year month day hyear
    refine ⟨fun hinvalid => daysFromCivil_invalid _ hinvalid, fun hvalid => ?_⟩
    have hdays := daysFromCivil_valid ⟨year, month, day⟩ hyear hvalid
    refine ⟨_, hdays, fun k => ?_⟩
    have hiff := @daysFromCivil_eq_ok_iff ⟨year, month, day⟩ hyear k
    rw [hdays, and_iff_right hvalid, Except.ok.injEq] at hiff
    exact hiff.symm.trans eq_comm
  · intro value hour minute second hreads now hnow
    obtain ⟨next, hparse, hclock, hbehind, hday⟩ := parseClockStopAtUtc_of_reads hreads hnow
    rw [hparse]
    exact ⟨next, hclock, hbehind, hday, epochPlus_of_lt, fun hlate => ⟨_, dif_neg (by omega)⟩⟩

/-- There is no 29th of February in 1900; at half past one minute the next `0:01` is tomorrow. -/
theorem reads_zero : Numeral.Reads 10 ['0'] 0 :=
  ⟨['0'], Or.inl rfl, by decide, List.forall_mem_singleton.mpr (by decide), by decide⟩

theorem reads_one : Numeral.Reads 10 ['1'] 1 :=
  ⟨['1'], Or.inl rfl, by decide, List.forall_mem_singleton.mpr (by decide), by decide⟩

theorem stop_at_exact_cases :
    (∃ message, daysFromCivil 1900 2 29 = .error (.other message)) ∧
    (∃ n, daysFromCivil 2000 2 29 = .ok n ∧
      ∀ k, Gregorian.DayNumber ⟨1970, 1, 1⟩ ⟨2000, 2, 29⟩ k ↔ k = n) ∧
    ∃ next : Nat, next % 86400 = 0 * 3600 + 1 * 60 + 0 ∧
      SystemTime.sinceEpoch ⟨90, 0, by decide, by decide, by decide⟩ < next * 1000000000 ∧
      next * 1000000000 ≤
        SystemTime.sinceEpoch ⟨90, 0, by decide, by decide, by decide⟩ + 86400 * 1000000000 ∧
      (next < 2 ^ 63 → ∃ time,
        parseClockStopAtUtc ['0', ':', '1'] ⟨90, 0, by decide, by decide, by decide⟩ = .ok time ∧
          time.sinceEpoch = next * 1000000000) ∧
      (2 ^ 63 ≤ next → ∃ message,
        parseClockStopAtUtc ['0', ':', '1'] ⟨90, 0, by decide, by decide, by decide⟩ =
          .error (.panic message)) :=
  ⟨(stop_at_exact.1 1900 2 29 (by unfold IsI32; decide)).1 fun h => absurd h.day_le (by decide),
    (stop_at_exact.1 2000 2 29 (by unfold IsI32; decide)).2
      ⟨by decide, by decide, by decide, by decide⟩,
    stop_at_exact.2 ['0', ':', '1'] 0 1 0
      ⟨by decide, ['0'], ['1'], reads_zero, reads_one, Or.inl ⟨rfl, rfl⟩⟩
      ⟨90, 0, by decide, by decide, by decide⟩ (by decide)⟩

/-- In the last second that a `SystemTime` has, the next midnight is none. -/
theorem midnight_past_the_last_second :
    ReadsClock ['0', ':', '0'] 0 0 0 ∧
    parseClockStopAtUtc ['0', ':', '0']
        ⟨9223372036854775807, 0, by decide, by decide, by decide⟩ =
      .error (.panic "overflow when adding duration to instant") :=
  ⟨⟨by decide, ['0'], ['0'], reads_zero, reads_zero, Or.inl ⟨rfl, rfl⟩⟩, by decide⟩

end RsyncWin
