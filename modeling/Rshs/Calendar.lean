/-
The proleptic Gregorian calendar.

A `Date` carries that it is one: its month is one of twelve and its day one of the
month's. `next` is the day after, and `number` counts the days since the first of March
of the year zero, by a formula: `number_next` says that the two fit. So dates are found
by their numbers, and a formula that goes the other way is right as soon as it inverts
`number`.

Weekdays have a `next` of their own; a date's weekday is so many of them after that of the
day the numbers start at, and `index_weekday` is its place in the week.
-/
import Mathlib.Data.Int.Notation
import Mathlib.Logic.Function.Iterate
import Mathlib.Algebra.Order.Ring.Int
import Mathlib.Tactic.IntervalCases

set_option autoImplicit false

namespace Calendar

/-! ## Dates -/

/-- A year with a day more: every fourth, but of the hundredths only every fourth. -/
def Leap (y : ℤ) : Prop := (y % 4 = 0 ∧ y % 100 ≠ 0) ∨ y % 400 = 0

instance (y : ℤ) : Decidable (Leap y) := inferInstanceAs (Decidable (_ ∨ _))

def month_length (y : ℤ) (m : ℕ) : ℕ :=
  if m = 2 then if Leap y then 29 else 28
  else if m = 4 ∨ m = 6 ∨ m = 9 ∨ m = 11 then 30 else 31

theorem month_length_pos (y : ℤ) (m : ℕ) : 28 ≤ month_length y m := by
  unfold month_length
  split
  · split <;> omega
  · split <;> omega

theorem month_length_le (y : ℤ) (m : ℕ) : month_length y m ≤ 31 := by
  unfold month_length
  split
  · split <;> omega
  · split <;> omega

@[ext]
structure Date where
  year : ℤ
  month : ℕ
  day : ℕ
  month_valid : 1 ≤ month ∧ month ≤ 12
  day_valid : 1 ≤ day ∧ day ≤ month_length year month

/-- The day after. -/
def Date.next (t : Date) : Date :=
  if hday : t.day < month_length t.year t.month then
    { t with
      day := t.day + 1
      day_valid := ⟨by omega, hday⟩ }
  else if hmonth : t.month < 12 then
    { year := t.year
      month := t.month + 1
      day := 1
      month_valid := ⟨by omega, hmonth⟩
      day_valid := ⟨le_rfl, le_trans (by omega) (month_length_pos _ _)⟩ }
  else
    { year := t.year + 1
      month := 1
      day := 1
      month_valid := ⟨le_rfl, by omega⟩
      day_valid := ⟨le_rfl, le_trans (by omega) (month_length_pos _ _)⟩ }

/-! ## The number of a date -/

/-- The year of a month, when it begins in March. -/
def march_year (y : ℤ) (m : ℕ) : ℤ := if m ≤ 2 then y - 1 else y

/-- The months passed since March. -/
def march_month (m : ℕ) : ℕ := if m ≤ 2 then m + 9 else m - 3

/-- The days passed since the first of March. -/
def march_day (m d : ℕ) : ℕ := (153 * march_month m + 2) / 5 + (d - 1)

/-- The days before the first of March of a year. -/
def days_before (y : ℤ) : ℤ := 365 * y + y / 4 - y / 100 + y / 400

/-- The days passed since the first of March of the year zero. -/
def Date.number (t : Date) : ℤ := days_before (march_year t.year t.month) + march_day t.month t.day

theorem days_before_succ (y : ℤ) :
    days_before (y + 1) = days_before y + 365 + (if Leap (y + 1) then 1 else 0) := by
  unfold days_before
  by_cases h : Leap (y + 1)
  · rw [if_pos h]
    unfold Leap at h
    omega
  · rw [if_neg h]
    unfold Leap at h
    omega

/-- The months from March on are as long as the formula says. -/
theorem march_month_length {y : ℤ} {m : ℕ} (hm : 1 ≤ m ∧ m ≤ 12) (hfeb : m ≠ 2) :
    (153 * (march_month m + 1) + 2) / 5 = (153 * march_month m + 2) / 5 + month_length y m := by
  obtain ⟨hlow, hhigh⟩ := hm
  unfold month_length march_month
  rw [if_neg hfeb]
  interval_cases m <;> first | rfl | exact absurd rfl hfeb

/-- **The day after has the number after.** -/
theorem number_next (t : Date) : t.next.number = t.number + 1 := by
  obtain ⟨y, m, d, hm, hd⟩ := t
  unfold Date.next
  dsimp only
  split
  · -- within a month
    unfold Date.number march_day
    dsimp only
    omega
  -- the last day of a month
  · rename_i hday
    have hlast : d = month_length y m := by omega
    split
    · rename_i hmonth
      unfold Date.number
      dsimp only
      unfold march_day
      by_cases hfeb : m = 2
      · -- the end of a year that began in March
        have hyear := days_before_succ (y - 1)
        rw [Int.sub_add_cancel] at hyear
        clear hm hd
        subst hfeb
        have hmarch : march_month (2 + 1) = 0 := rfl
        have hlate : march_month 2 = 11 := rfl
        have hthis : march_year y (2 + 1) = y := rfl
        have hbefore : march_year y 2 = y - 1 := rfl
        rw [hmarch, hlate, hthis, hbefore]
        unfold month_length at hlast
        rw [if_pos rfl] at hlast
        by_cases hleap : Leap y
        · rw [if_pos hleap] at hlast hyear
          omega
        · rw [if_neg hleap] at hlast hyear
          omega
      -- the months from March on follow one another within the year that begins in March
      · have hlength := march_month_length (y := y) hm hfeb
        have hyear : march_year y (m + 1) = march_year y m := by
          unfold march_year
          split <;> split <;> omega
        have hnext : march_month (m + 1) = march_month m + 1 := by
          unfold march_month
          split <;> split <;> omega
        rw [hyear, hnext]
        omega
    -- New Year: the number goes on within the same year from March
    · have hdec : m = 12 := by omega
      unfold Date.number
      dsimp only
      clear hm hd
      subst hdec
      have h31 : d = 31 := hlast
      have hthis : march_year (y + 1) 1 = march_year y 12 := Int.add_sub_cancel y 1
      rw [h31, hthis]
      change _ + (306 : ℤ) = _ + (305 : ℤ) + 1
      omega

/-! ## Days after a date -/

/-- The date a number of days after another. -/
def Date.after (t : Date) (n : ℕ) : Date := Date.next^[n] t

theorem number_after (t : Date) (n : ℕ) : (t.after n).number = t.number + n := by
  induction n with
  | zero => exact (add_zero _).symm
  | succ n ih =>
    unfold Date.after at ih ⊢
    rw [Function.iterate_succ_apply', number_next, ih]
    push_cast
    omega

/-! ## Weekdays -/

inductive Weekday
  | Sunday
  | Monday
  | Tuesday
  | Wednesday
  | Thursday
  | Friday
  | Saturday
deriving DecidableEq

namespace Weekday

/-- The weekday after. -/
def next : Weekday → Weekday
  | Sunday => Monday
  | Monday => Tuesday
  | Tuesday => Wednesday
  | Wednesday => Thursday
  | Thursday => Friday
  | Friday => Saturday
  | Saturday => Sunday

/-- The weekday a number of days after another. -/
def after (w : Weekday) (n : ℕ) : Weekday := next^[n] w

/-- The days since a Sunday. -/
def index : Weekday → ℕ
  | Sunday => 0
  | Monday => 1
  | Tuesday => 2
  | Wednesday => 3
  | Thursday => 4
  | Friday => 5
  | Saturday => 6

theorem index_next (w : Weekday) : w.next.index = (w.index + 1) % 7 := by cases w <;> rfl

theorem index_after (w : Weekday) (n : ℕ) : (w.after n).index = (w.index + n) % 7 := by
  induction n with
  | zero => cases w <;> rfl
  | succ n ih =>
    unfold after at ih ⊢
    rw [Function.iterate_succ_apply', index_next, ih]
    omega

end Weekday

/-- The weekday of a date: the first of March of the year zero is a Wednesday. -/
def Date.weekday (t : Date) : Weekday := Weekday.Wednesday.after (t.number % 7).toNat

theorem index_weekday (t : Date) : (t.weekday.index : ℤ) = (t.number + 3) % 7 := by
  have hindex := Weekday.index_after .Wednesday (t.number % 7).toNat
  have hwed : Weekday.index .Wednesday = 3 := rfl
  rw [hwed] at hindex
  unfold Date.weekday
  omega

end Calendar
