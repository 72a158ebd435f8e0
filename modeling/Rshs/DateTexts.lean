/-
What the strings of the date formats denote.

A numeral is read back by `Nat.ofDigitChars`; a grammar rule for each format says which
numerals, names and separators a text consists of, for a date and a time of the day.
`format_exact` puts the two sides together, for every day that an `i32` counts.
-/
import Rshs.Dates

set_option autoImplicit false

namespace Rshs.DateTexts

open Calendar Rshs.Dates
open Rshs.Time (SystemTime NANOS secs_since_epoch zero_padded DAY_NAMES)

/-! ## Numerals -/

/-- The digits of a number, with zeros in front up to a width and no further. -/
structure Numeral (width n : ℕ) (cs : List Char) : Prop where
  digits : ∀ c ∈ cs, c.isDigit = true
  value : Nat.ofDigitChars 10 cs 0 = n
  width_le : width ≤ cs.length
  no_longer : width < cs.length → 10 ^ (cs.length - 1) ≤ n

/-- The zeros in front of a number. -/
def zeros (width n : ℕ) : List Char := List.replicate (width - (Nat.toDigits 10 n).length) '0'

theorem zero_padded_nat (width n : ℕ) : zero_padded width n = zeros width n ++ Nat.toDigits 10 n := by
  unfold zero_padded zeros
  dsimp only
  rw [if_neg (by omega), Int.natAbs_natCast]

/-- A number is as long as the width, or as its digits where these are more. -/
theorem zero_padded_length (width n : ℕ) :
    (zero_padded width n).length = max width (Nat.toDigits 10 n).length := by
  rw [zero_padded_nat, List.length_append, zeros, List.length_replicate]
  omega

/-- A padded number is a numeral of at least that width. -/
theorem zero_padded_numeral {width : ℕ} (hwidth : 0 < width) (n : ℕ) :
    Numeral width n (zero_padded width n) := by
  have hlen := zero_padded_length width n
  constructor
  · intro c hc
    rw [zero_padded_nat] at hc
    rcases List.mem_append.mp hc with hzero | hdigit
    · rw [List.eq_of_mem_replicate hzero]
      rfl
    · exact Nat.isDigit_of_mem_toDigits (by omega) (by omega) hdigit
  · rw [zero_padded_nat, Nat.ofDigitChars_append, zeros, Nat.ofDigitChars_replicate_zero,
      Nat.mul_zero, Nat.ofDigitChars_ten_toDigits]
  · omega
  · intro hlong
    apply Nat.le_of_not_lt
    intro hlt
    -- one digit less would do
    have hle := (Nat.length_toDigits_le_iff (by omega) (by omega)).mpr hlt
    omega

/-! ## Names -/

def month_name : ℕ → String
  | 1 => "Jan"
  | 2 => "Feb"
  | 3 => "Mar"
  | 4 => "Apr"
  | 5 => "May"
  | 6 => "Jun"
  | 7 => "Jul"
  | 8 => "Aug"
  | 9 => "Sep"
  | 10 => "Oct"
  | 11 => "Nov"
  | 12 => "Dec"
  | _ => ""

def weekday_name : Weekday → String
  | .Sunday => "Sun"
  | .Monday => "Mon"
  | .Tuesday => "Tue"
  | .Wednesday => "Wed"
  | .Thursday => "Thu"
  | .Friday => "Fri"
  | .Saturday => "Sat"

/-- The table of abbreviations has the name of every month. -/
theorem month_abbr_name {m : ℕ} (hm : 1 ≤ m ∧ m ≤ 12) : month_abbr m = some (month_name m) := by
  rw [month_abbr_some hm]
  obtain ⟨hlo, hhi⟩ := hm
  interval_cases m <;> rfl

/-- The table of weekdays has the name of every day at its place in the week. -/
theorem day_name_weekday (w : Weekday) : DAY_NAMES[w.index]? = some (weekday_name w) := by
  cases w <;> rfl

/-- The day count of a date has the date's weekday. -/
theorem day_name_date {t : Date} {n : ℕ} (hn : t.number = 719468 + n) :
    DAY_NAMES[(as_u64 (((n : ℤ) + 4).tmod 7)).toNat]? = some (weekday_name t.weekday) := by
  have hindex := index_weekday t
  have hdow : (as_u64 (((n : ℤ) + 4).tmod 7)).toNat = t.weekday.index := by
    rw [Int.tmod_eq_emod_of_nonneg (by omega), as_u64_ok (by omega) (by omega)]
    omega
  rw [hdow, day_name_weekday]

/-! ## Grammars -/

/-- A time of the day in hours, minutes and seconds. -/
structure Clock (time_of_day hours mins secs : ℕ) : Prop where
  mins_lt : mins < 60
  secs_lt : secs < 60
  total : 3600 * hours + 60 * mins + secs = time_of_day

/-- The hours, minutes and seconds that the formats print are those of the time of day. -/
theorem clock (time_of_day : ℕ) :
    Clock time_of_day (time_of_day / 3600) (time_of_day % 3600 / 60) (time_of_day % 60) := by
  constructor <;> omega

/-- `DD-Mon-YYYY HH:MM`. -/
inductive Rfc850 (t : Date) (time_of_day : ℕ) : List Char → Prop
  | text {year hours mins secs : ℕ} {ds ys hs ms : List Char} (hyear : t.year = year)
      (hclock : Clock time_of_day hours mins secs) (hds : Numeral 2 t.day ds)
      (hys : Numeral 4 year ys) (hhs : Numeral 2 hours hs) (hms : Numeral 2 mins ms) :
      Rfc850 t time_of_day (ds ++ ['-'] ++ (month_name t.month).toList ++ ['-'] ++ ys ++ [' '] ++
        hs ++ [':'] ++ ms)

/-- `WD, DD Mon YYYY HH:MM:SS GMT`. -/
inductive Rfc1123 (t : Date) (time_of_day : ℕ) : List Char → Prop
  | text {year hours mins secs : ℕ} {ds ys hs ms ss : List Char} (hyear : t.year = year)
      (hclock : Clock time_of_day hours mins secs) (hds : Numeral 2 t.day ds)
      (hys : Numeral 4 year ys) (hhs : Numeral 2 hours hs) (hms : Numeral 2 mins ms)
      (hss : Numeral 2 secs ss) :
      Rfc1123 t time_of_day ((weekday_name t.weekday).toList ++ ", ".toList ++ ds ++ [' '] ++
        (month_name t.month).toList ++ [' '] ++ ys ++ [' '] ++ hs ++ [':'] ++ ms ++ [':'] ++ ss ++
        " GMT".toList)

/-- `YYYY-MM-DDTHH:MM:SSZ`. -/
inductive Rfc3339 (t : Date) (time_of_day : ℕ) : List Char → Prop
  | text {year hours mins secs : ℕ} {ys os ds hs ms ss : List Char} (hyear : t.year = year)
      (hclock : Clock time_of_day hours mins secs) (hys : Numeral 4 year ys)
      (hos : Numeral 2 t.month os) (hds : Numeral 2 t.day ds) (hhs : Numeral 2 hours hs)
      (hms : Numeral 2 mins ms) (hss : Numeral 2 secs ss) :
      Rfc3339 t time_of_day (ys ++ ['-'] ++ os ++ ['-'] ++ ds ++ ['T'] ++ hs ++ [':'] ++ ms ++
        [':'] ++ ss ++ ['Z'])

/-! ## The date of an instant -/

/-- The date a number of seconds after the epoch. -/
def date_of (as_secs : ℕ) : Date := epoch.after (as_secs / 86400)

/-- The date of a time is the one of its day, counted from the epoch. -/
theorem date_of_number (as_secs : ℕ) :
    (date_of as_secs).number = 719468 + (as_secs / 86400 : ℕ) := by
  unfold date_of
  rw [number_after, epoch_number]

theorem date_of_year (as_secs : ℕ) : ∃ year : ℕ, (date_of as_secs).year = year := by
  have hn := date_of_number as_secs
  obtain ⟨era, yoe, doe, -, -, -, -, -, hyear⟩ := civil_parts (date_of as_secs) (by omega)
  have hle : march_year (date_of as_secs).year (date_of as_secs).month ≤ (date_of as_secs).year := by
    unfold march_year
    split <;> omega
  exact ⟨(date_of as_secs).year.toNat, by omega⟩

section Instant

variable {as_secs : ℕ} (hdays : as_secs / 86400 < 2 ^ 31)

include hdays

/-- `civil_from_days` finds the date, without an overflow. -/
theorem civil_date_of : civil_from_days (as_secs / 86400 : ℕ) =
    some ((date_of as_secs).year, ((date_of as_secs).month : ℤ), ((date_of as_secs).day : ℤ)) := by
  have hn := date_of_number as_secs
  exact civil_number (by omega) (by omega) (by omega)

/-- **The date the conversion finds is the only one it could be.** -/
theorem civil_iff (t : Date) :
    civil_from_days (as_secs / 86400 : ℕ) = some (t.year, (t.month : ℤ), (t.day : ℤ)) ↔
      t = date_of as_secs := by
  rw [civil_date_of hdays]
  constructor
  · intro h
    obtain ⟨hyear, hmonth, hday⟩ : _ ∧ _ ∧ _ := by simpa using h
    exact Date.ext hyear.symm hmonth.symm hday.symm
  · intro h
    rw [h]

/-- No other date is as far from the epoch. -/
theorem number_iff (t : Date) :
    t.number - epoch.number = (as_secs / 86400 : ℕ) ↔ t = date_of as_secs := by
  rw [epoch_number]
  constructor
  · intro h
    apply (civil_iff hdays t).mp
    exact civil_number (by omega) (by omega) (by omega)
  · intro h
    have hn := date_of_number as_secs
    rw [h]
    omega

/-- The parts of a time are its date and its time of day. -/
theorem parts_date_of : ∃ p, parts as_secs = some p ∧ p.days = (as_secs / 86400 : ℕ) ∧
    p.Are (date_of as_secs) (as_secs % 86400) := by
  have hcount : day_count as_secs = (as_secs / 86400 : ℕ) := by
    unfold day_count
    rw [as_i32_ok (by omega) (by omega)]
    omega
  have hcivil := civil_date_of hdays
  rw [← hcount] at hcivil
  obtain ⟨p, hp, hpdays, hare⟩ := parts_some (by omega) hcivil
  exact ⟨p, hp, hpdays.trans hcount, hare⟩

variable {st : SystemTime} (hst : secs_since_epoch st = some as_secs)

include hst

theorem format_rfc3339_denotes :
    ∃ text, format_rfc3339 st = some text ∧ Rfc3339 (date_of as_secs) (as_secs % 86400) text := by
  obtain ⟨p, hp, -, hare⟩ := parts_date_of hdays
  obtain ⟨year, hyear⟩ := date_of_year as_secs
  refine ⟨_, format_rfc3339_eq hst hp, ?_⟩
  rw [hare.year, hyear, hare.month, hare.day, hare.hours, hare.mins, hare.secs]
  apply Rfc3339.text hyear (clock _) <;> exact zero_padded_numeral (by omega) _

theorem format_rfc850_denotes :
    ∃ text, format_rfc850 st = some text ∧ Rfc850 (date_of as_secs) (as_secs % 86400) text := by
  obtain ⟨p, hp, -, hare⟩ := parts_date_of hdays
  obtain ⟨year, hyear⟩ := date_of_year as_secs
  have hmonth := month_abbr_name (date_of as_secs).month_valid
  rw [← hare.month] at hmonth
  refine ⟨_, format_rfc850_eq hst hp hmonth, ?_⟩
  rw [hare.year, hyear, hare.day, hare.hours, hare.mins]
  apply Rfc850.text hyear (clock _) <;> exact zero_padded_numeral (by omega) _

theorem format_rfc1123_denotes :
    ∃ text, format_rfc1123 st = some text ∧ Rfc1123 (date_of as_secs) (as_secs % 86400) text := by
  obtain ⟨p, hp, hpdays, hare⟩ := parts_date_of hdays
  obtain ⟨year, hyear⟩ := date_of_year as_secs
  have hmonth := month_abbr_name (date_of as_secs).month_valid
  have hname := day_name_date (date_of_number as_secs)
  rw [← hare.month] at hmonth
  rw [← hpdays] at hname
  have hfour : i64 (p.days + 4) = some (p.days + 4) := i64_ok (by omega) (by omega)
  have htext := format_rfc1123_eq hst hp hmonth hfour
  rw [hname, Option.map_some] at htext
  refine ⟨_, htext, ?_⟩
  rw [hare.year, hyear, hare.day, hare.hours, hare.mins, hare.secs]
  apply Rfc1123.text hyear (clock _) <;> exact zero_padded_numeral (by omega) _

end Instant

/-- **Date formatting is exact.** As long as the days fit an `i32` nothing overflows, the
date found is the one date that lies so many days after the epoch, and each string denotes
that date, the time of the day and, where it names one, the date's weekday. -/
theorem format_exact {st : SystemTime} {as_secs : ℕ} (hst : secs_since_epoch st = some as_secs)
    (hdays : as_secs / 86400 < 2 ^ 31) :
    (∀ t : Date, t.number - epoch.number = (as_secs / 86400 : ℕ) ↔ t = date_of as_secs) ∧
    (∀ t : Date, civil_from_days (as_secs / 86400 : ℕ) =
      some (t.year, (t.month : ℤ), (t.day : ℤ)) ↔ t = date_of as_secs) ∧
    (∃ text, format_rfc3339 st = some text ∧
      Rfc3339 (date_of as_secs) (as_secs % 86400) text) ∧
    (∃ text, format_rfc1123 st = some text ∧
      Rfc1123 (date_of as_secs) (as_secs % 86400) text) ∧
    (∃ text, format_rfc850 st = some text ∧
      Rfc850 (date_of as_secs) (as_secs % 86400) text) :=
  ⟨number_iff hdays, civil_iff hdays, format_rfc3339_denotes hdays hst,
    format_rfc1123_denotes hdays hst, format_rfc850_denotes hdays hst⟩

/-- A leap day at noon. -/
theorem format_exact_leap_day : ∃ text, format_rfc3339 (951825600 * NANOS) = some text ∧
    Rfc3339 (date_of 951825600) 43200 text :=
  have hst : secs_since_epoch (951825600 * NANOS) = some 951825600 := by decide
  (format_exact hst (by decide)).2.2.1

end Rshs.DateTexts
