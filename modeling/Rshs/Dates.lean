/-
The dates of `utils/time.rs` in fixed-width integers.

Every operation of the source that can overflow returns nothing when it does, every cast
keeps the bits it keeps, and an index outside a table returns nothing. So a function
returns when the source does not panic.

`civil_from_days` is right on every day that its first addition leaves non-negative:
`civil_parts` finds the era and the year, and the rest is the number of a date, read
backwards. Before that the era is negative, and the product with it overflows.
-/
import Rshs.Time
import Rshs.Calendar
import Mathlib.Tactic.Ring
import Mathlib.Data.Int.Lemmas

set_option autoImplicit false

namespace Rshs.Dates

open Calendar Rshs.Time

/-! ## Fixed-width integers -/

/-- What an operation of some width returns. -/
def checked (lo hi x : ℤ) : Option ℤ := if lo ≤ x ∧ x < hi then some x else none

def i64 (x : ℤ) : Option ℤ := checked (-2 ^ 63) (2 ^ 63) x

def u64 (x : ℤ) : Option ℤ := checked 0 (2 ^ 64) x

def u32 (x : ℤ) : Option ℤ := checked 0 (2 ^ 32) x

def as_i32 (x : ℤ) : ℤ := x.bmod (2 ^ 32)

def as_i64 (x : ℤ) : ℤ := x.bmod (2 ^ 64)

def as_u32 (x : ℤ) : ℤ := x % 2 ^ 32

def as_u64 (x : ℤ) : ℤ := x % 2 ^ 64

theorem i64_ok {x : ℤ} (hlo : -2 ^ 63 ≤ x) (hhi : x < 2 ^ 63) : i64 x = some x := if_pos ⟨hlo, hhi⟩

theorem u64_ok {x : ℤ} (hlo : 0 ≤ x) (hhi : x < 2 ^ 64) : u64 x = some x := if_pos ⟨hlo, hhi⟩

theorem u32_ok {x : ℤ} (hlo : 0 ≤ x) (hhi : x < 2 ^ 32) : u32 x = some x := if_pos ⟨hlo, hhi⟩

theorem as_i32_ok {x : ℤ} (hlo : -2 ^ 31 ≤ x) (hhi : x < 2 ^ 31) : as_i32 x = x :=
  Int.bmod_eq_of_le (by omega) (by omega)

theorem as_i64_ok {x : ℤ} (hlo : -2 ^ 63 ≤ x) (hhi : x < 2 ^ 63) : as_i64 x = x :=
  Int.bmod_eq_of_le (by omega) (by omega)

theorem as_u32_ok {x : ℤ} (hlo : 0 ≤ x) (hhi : x < 2 ^ 32) : as_u32 x = x :=
  Int.emod_eq_of_lt hlo hhi

theorem as_u64_ok {x : ℤ} (hlo : 0 ≤ x) (hhi : x < 2 ^ 64) : as_u64 x = x :=
  Int.emod_eq_of_lt hlo hhi

/-! ## The functions -/

/-- The year of an era, from the day of the era. -/
def year_in_era (doe : ℤ) : Option ℤ := do
  let t ← u64 (doe - doe / 1460)
  let t ← u64 (t + doe / 36524)
  let t ← u64 (t - doe / 146096)
  return t / 365

/-- The day of a year, from the day of the era. -/
def day_in_year (doe yoe : ℤ) : Option ℤ := do
  let t ← u64 (365 * yoe)
  let t ← u64 (t + yoe / 4)
  let t ← u64 (t - yoe / 100)
  u64 (doe - t)

/-- The months since March, the month and its day, from the day of the year. -/
def month_and_day (doy : ℤ) : Option (ℤ × ℤ) := do
  let t ← u64 (5 * doy)
  let t ← u64 (t + 2)
  let mp := t / 153
  let t ← u64 (153 * mp)
  let t ← u64 (t + 2)
  let t ← u64 (doy - t / 5)
  let d ← u64 (t + 1)
  let m ← (if mp < 10 then u64 (mp + 3) else u64 (mp - 9))
  return (m, d)

/-- Days since the epoch to year, month and day. -/
def civil_from_days (z : ℤ) : Option (ℤ × ℤ × ℤ) := do
  let z ← i64 (z + 719468)
  let low ← (if 0 ≤ z then some z else i64 (z - 146096))
  let era ← i64 (low.tdiv 146097)
  let start ← i64 (era * 146097)
  let doe ← i64 (z - start)
  let doe := as_u64 doe
  let yoe ← year_in_era doe
  let years ← u64 (as_u64 era * 400)
  let y ← u64 (yoe + years)
  let y := as_i64 y
  let doy ← day_in_year doe yoe
  let (m, d) ← month_and_day doy
  let y ← (if m ≤ 2 then i64 (y + 1) else some y)
  return (as_i32 y, as_u32 m, as_u32 d)

/-- The values that each format computes first. -/
structure Parts where
  days : ℤ
  hours : ℤ
  mins : ℤ
  secs : ℤ
  year : ℤ
  month : ℤ
  day : ℤ

def parts (as_secs : ℕ) : Option Parts :=
  let total_secs := as_i64 as_secs
  let days := as_i32 (total_secs.tdiv 86400)
  let time_of_day := total_secs.tmod 86400
  (civil_from_days days).map fun date =>
    { days := days
      hours := time_of_day.tdiv 3600
      mins := (time_of_day.tmod 3600).tdiv 60
      secs := time_of_day.tmod 60
      year := date.1
      month := date.2.1
      day := date.2.2 }

/-- `MONTHS[(month - 1) as usize]`. -/
def month_abbr (month : ℤ) : Option String := do
  let i ← u32 (month - 1)
  MONTHS[i.toNat]?

/-- `01-Jan-1970 00:00`, empty before the epoch. -/
def format_rfc850 (st : SystemTime) : Option (List Char) :=
  match secs_since_epoch st with
  | none => some []
  | some as_secs => do
    let p ← parts as_secs
    let month ← month_abbr p.month
    return zero_padded 2 p.day ++ ['-'] ++ month.toList ++ ['-'] ++ zero_padded 4 p.year ++ [' '] ++
      zero_padded 2 p.hours ++ [':'] ++ zero_padded 2 p.mins

/-- `Thu, 01 Jan 1970 00:00:00 GMT`, empty before the epoch. -/
def format_rfc1123 (st : SystemTime) : Option (List Char) :=
  match secs_since_epoch st with
  | none => some []
  | some as_secs => do
    let p ← parts as_secs
    let four_on ← i64 (p.days + 4)
    let dow := as_u64 (four_on.tmod 7)
    let day_name ← DAY_NAMES[dow.toNat]?
    let month ← month_abbr p.month
    return day_name.toList ++ ", ".toList ++ zero_padded 2 p.day ++ [' '] ++ month.toList ++ [' '] ++
      zero_padded 4 p.year ++ [' '] ++ zero_padded 2 p.hours ++ [':'] ++ zero_padded 2 p.mins ++
      [':'] ++ zero_padded 2 p.secs ++ " GMT".toList

/-- `1970-01-01T00:00:00Z`, empty before the epoch. -/
def format_rfc3339 (st : SystemTime) : Option (List Char) :=
  match secs_since_epoch st with
  | none => some []
  | some as_secs => do
    let p ← parts as_secs
    return zero_padded 4 p.year ++ ['-'] ++ zero_padded 2 p.month ++ ['-'] ++ zero_padded 2 p.day ++
      ['T'] ++ zero_padded 2 p.hours ++ [':'] ++ zero_padded 2 p.mins ++ [':'] ++
      zero_padded 2 p.secs ++ ['Z']

/-- Before the epoch there is nothing to write. -/
theorem format_before {st : SystemTime} (h : secs_since_epoch st = none) :
    format_rfc850 st = some [] ∧ format_rfc1123 st = some [] ∧ format_rfc3339 st = some [] := by
  unfold format_rfc850 format_rfc1123 format_rfc3339
  rw [h]
  exact ⟨rfl, rfl, rfl⟩

theorem format_epoch : format_rfc3339 0 = some "1970-01-01T00:00:00Z".toList := by decide +kernel

/-! ## The calendar behind the conversion -/

/-- The year of an era a day falls in, counted in centuries, groups of four years and
single years. -/
theorem year_of_era {c q r doy : ℕ} (hc : c ≤ 3) (hq : q ≤ 24) (hr : r ≤ 3) (hdoy : doy ≤ 365)
    (hlast : doy = 365 → r = 3 ∧ (q < 24 ∨ c = 3)) {doe : ℕ}
    (hdoe : doe = 36524 * c + 1461 * q + 365 * r + doy) :
    (doe - doe / 1460 + doe / 36524 - doe / 146096) / 365 = 100 * c + 4 * q + r := by
  by_cases hend : doe = 146096
  · -- the last day of the era
    rw [hend]
    omega
  · have hera : doe / 146096 = 0 := Nat.div_eq_of_lt (by omega)
    have hcentury : doe / 36524 = c := by
      have hrest : 1461 * q + 365 * r + doy < 36524 := by omega
      rw [hdoe, Nat.add_assoc, Nat.add_assoc, Nat.mul_add_div (by omega), ← Nat.add_assoc,
        Nat.div_eq_of_lt hrest, Nat.add_zero]
    -- the days a century or a group of four falls short of are less than two years
    have hshort : doe = 1460 * (25 * c + q) + (24 * c + q + 365 * r + doy) := by omega
    have hyears : doe / 1460 = 25 * c + q + (24 * c + q + 365 * r + doy) / 1460 := by
      rw [hshort, Nat.mul_add_div (by omega)]
    rw [hera, hcentury, hyears]
    have hrest : (24 * c + q + 365 * r + doy) / 1460 ≤ 1 := by omega
    have hone : (24 * c + q + 365 * r + doy) / 1460 ≤ doy := by omega
    have hdays : doy - (24 * c + q + 365 * r + doy) / 1460 < 365 := by omega
    have hsum : doe - (25 * c + q + (24 * c + q + 365 * r + doy) / 1460) + c - 0
        = 365 * (100 * c + 4 * q + r) + (doy - (24 * c + q + 365 * r + doy) / 1460) := by omega
    rw [hsum, Nat.mul_add_div (by omega), Nat.div_eq_of_lt hdays, Nat.add_zero]

/-- A day is in the month the formula picks. -/
theorem month_of_day {y : ℤ} {m d : ℕ} (hm : 1 ≤ m ∧ m ≤ 12) (hd : 1 ≤ d ∧ d ≤ month_length y m) :
    march_day m d ≤ 365 ∧ (march_day m d = 365 → Leap y ∧ m = 2) ∧ march_month m ≤ 11 ∧
      (5 * march_day m d + 2) / 153 = march_month m := by
  by_cases hfeb : m = 2
  · have hmonth : march_month m = 11 := by
      rw [hfeb]
      rfl
    have hlen : month_length y m ≤ 29 ∧ (d = 29 → Leap y) := by
      have hle := hd.2
      unfold month_length at hle ⊢
      rw [if_pos hfeb] at hle ⊢
      split
      · rename_i hleap
        exact ⟨le_rfl, fun _ => hleap⟩
      · rename_i hleap
        rw [if_neg hleap] at hle
        exact ⟨by omega, fun h => by omega⟩
    unfold march_day
    rw [hmonth]
    refine ⟨by omega, fun h => ⟨hlen.2 (by omega), hfeb⟩, by omega, by omega⟩
  · have hlength := march_month_length (y := y) hm hfeb
    have hle : march_month m ≤ 10 := by
      unfold march_month
      split <;> omega
    unfold march_day
    refine ⟨by omega, fun h => by omega, by omega, by omega⟩

/-- A year is one of an era of four hundred, in centuries, groups of four years and
single years. -/
theorem year_parts (y : ℤ) : ∃ (era : ℤ) (c q r : ℕ), c ≤ 3 ∧ q ≤ 24 ∧ r ≤ 3 ∧
    y = 400 * era + (100 * c + 4 * q + r : ℕ) := by
  refine ⟨y / 400, (y % 400 / 100).toNat, (y % 100 / 4).toNat, (y % 4).toNat, ?_, ?_, ?_, ?_⟩ <;>
    omega

/-- The days before a year, by its parts. -/
theorem days_before_parts {era : ℤ} {c q r : ℕ} (hc : c ≤ 3) (hq : q ≤ 24) (hr : r ≤ 3) :
    days_before (400 * era + (100 * c + 4 * q + r : ℕ))
      = 146097 * era + (36524 * c + 1461 * q + 365 * r : ℕ) := by
  have hfour : (400 * era + (100 * c + 4 * q + r : ℕ)) / 4 = 100 * era + 25 * c + q := by omega
  have hcentury : (400 * era + (100 * c + 4 * q + r : ℕ)) / 100 = 4 * era + c := by omega
  have hera : (400 * era + (100 * c + 4 * q + r : ℕ)) / 400 = era := by omega
  unfold days_before
  rw [hfour, hcentury, hera]
  push_cast
  ring

/-- What stands behind the first day of a year ends before the next. -/
theorem last_day {era : ℤ} {c q r : ℕ} {y : ℤ} {m : ℕ} (hc : c ≤ 3) (hq : q ≤ 24) (hr : r ≤ 3)
    (hY : march_year y m = 400 * era + (100 * c + 4 * q + r : ℕ)) (hleap : Leap y) (hfeb : m = 2) :
    r = 3 ∧ (q < 24 ∨ c = 3) := by
  have hy : y = march_year y m + 1 := by
    rw [hfeb]
    exact (Int.sub_add_cancel y 1).symm
  rw [hY] at hy
  push_cast at hy
  unfold Leap at hleap
  have hr3 : r = 3 := by omega
  refine ⟨hr3, ?_⟩
  by_contra hnot
  -- the hundredth year of a century but the last
  have hq24 : y = 100 * (4 * era + c + 1) ∧ c < 3 := by omega
  omega

/-- **The era, the year and the day of the year** the conversion finds in the number of a
date. -/
theorem civil_parts (t : Date) (h : 0 ≤ t.number) :
    ∃ era yoe doe : ℕ, t.number = 146097 * era + doe ∧ doe < 146097 ∧ yoe < 400 ∧
      (doe - doe / 1460 + doe / 36524 - doe / 146096) / 365 = yoe ∧
      doe = 365 * yoe + yoe / 4 - yoe / 100 + march_day t.month t.day ∧
      march_year t.year t.month = yoe + era * 400 := by
  obtain ⟨y, m, d, hm, hd⟩ := t
  obtain ⟨hdoy, hleap, hlate, hmonth⟩ := month_of_day hm hd
  obtain ⟨era, c, q, r, hc, hq, hr, hY⟩ := year_parts (march_year y m)
  have hlast : march_day m d = 365 → r = 3 ∧ (q < 24 ∨ c = 3) := by
    intro h365
    obtain ⟨hy, hfeb⟩ := hleap h365
    exact last_day hc hq hr hY hy hfeb
  obtain ⟨doe, hdoe⟩ : ∃ doe, doe = 36524 * c + 1461 * q + 365 * r + march_day m d := ⟨_, rfl⟩
  have hn : days_before (march_year y m) + march_day m d = 146097 * era + doe := by
    rw [hY, days_before_parts hc hq hr, hdoe]
    push_cast
    ring
  have hlt : doe < 146097 := by
    clear hn h
    omega
  unfold Date.number at h ⊢
  dsimp only at h ⊢
  rw [hn] at h ⊢
  have hfour : (100 * c + 4 * q + r) / 4 = 25 * c + q := by omega
  have hcentury : (100 * c + 4 * q + r) / 100 = c := by omega
  refine ⟨era.toNat, 100 * c + 4 * q + r, doe, by omega, hlt, by omega,
    year_of_era hc hq hr hdoy hlast hdoe, ?_, ?_⟩
  · rw [hfour, hcentury]
    clear hn h
    omega
  · rw [hY]
    omega

theorem year_in_era_ok {doe yoe : ℕ} (hdoe : doe < 146097)
    (h : (doe - doe / 1460 + doe / 36524 - doe / 146096) / 365 = yoe) :
    year_in_era doe = some (yoe : ℤ) := by
  have hshort : u64 ((doe : ℤ) - doe / 1460) = some ((doe : ℤ) - doe / 1460) :=
    u64_ok (by omega) (by omega)
  have hlong : u64 ((doe : ℤ) - doe / 1460 + doe / 36524)
      = some ((doe : ℤ) - doe / 1460 + doe / 36524) := u64_ok (by omega) (by omega)
  have hera : u64 ((doe : ℤ) - doe / 1460 + doe / 36524 - doe / 146096)
      = some ((doe : ℤ) - doe / 1460 + doe / 36524 - doe / 146096) := u64_ok (by omega) (by omega)
  unfold year_in_era
  simp only [Option.bind_eq_bind, Option.pure_def]
  rw [hshort, Option.bind_some, hlong, Option.bind_some, hera, Option.bind_some, Option.some_inj]
  omega

theorem day_in_year_ok {doe yoe doy : ℕ} (hyoe : yoe < 400)
    (h : doe = 365 * yoe + yoe / 4 - yoe / 100 + doy) (hdoe : doe < 146097) :
    day_in_year doe yoe = some (doy : ℤ) := by
  have hdays : u64 (365 * (yoe : ℤ)) = some (365 * (yoe : ℤ)) := u64_ok (by omega) (by omega)
  have hfour : u64 (365 * (yoe : ℤ) + yoe / 4) = some (365 * (yoe : ℤ) + yoe / 4) :=
    u64_ok (by omega) (by omega)
  have hcentury : u64 (365 * (yoe : ℤ) + yoe / 4 - yoe / 100)
      = some (365 * (yoe : ℤ) + yoe / 4 - yoe / 100) := u64_ok (by omega) (by omega)
  have hrest : (doe : ℤ) - (365 * (yoe : ℤ) + yoe / 4 - yoe / 100) = doy := by omega
  unfold day_in_year
  simp only [Option.bind_eq_bind]
  rw [hdays, Option.bind_some, hfour, Option.bind_some, hcentury, Option.bind_some, hrest]
  exact u64_ok (by omega) (by omega)

theorem month_and_day_ok {m d : ℕ} (hm : 1 ≤ m ∧ m ≤ 12) (hd : 1 ≤ d) (hdoy : march_day m d ≤ 365)
    (hmonth : (5 * march_day m d + 2) / 153 = march_month m) :
    month_and_day (march_day m d) = some ((m : ℤ), (d : ℤ)) := by
  have hday : march_day m d = (153 * march_month m + 2) / 5 + (d - 1) := rfl
  have hback : (march_month m < 10 ∧ march_month m + 3 = m) ∨
      (10 ≤ march_month m ∧ march_month m - 9 = m) := by
    unfold march_month
    split <;> omega
  generalize march_day m d = doy at hdoy hmonth hday ⊢
  generalize march_month m = mp at hmonth hday hback
  have hfive : u64 (5 * (doy : ℤ)) = some (5 * (doy : ℤ)) := u64_ok (by omega) (by omega)
  have htwo : u64 (5 * (doy : ℤ) + 2) = some (5 * (doy : ℤ) + 2) := u64_ok (by omega) (by omega)
  have hmp : (5 * (doy : ℤ) + 2) / 153 = mp := by omega
  have hdays : u64 (153 * (mp : ℤ)) = some (153 * (mp : ℤ)) := u64_ok (by omega) (by omega)
  have hdays' : u64 (153 * (mp : ℤ) + 2) = some (153 * (mp : ℤ) + 2) := u64_ok (by omega) (by omega)
  have hfirst : (doy : ℤ) - (153 * (mp : ℤ) + 2) / 5 = d - 1 := by omega
  have hsub : u64 ((d : ℤ) - 1) = some ((d : ℤ) - 1) := u64_ok (by omega) (by omega)
  have hadd : u64 (d : ℤ) = some (d : ℤ) := u64_ok (by omega) (by omega)
  have hpick : (if (mp : ℤ) < 10 then u64 (mp + 3) else u64 (mp - 9)) = some (m : ℤ) := by
    rcases hback with ⟨hlt, heq⟩ | ⟨hge, heq⟩
    · rw [if_pos (by omega), ← heq]
      exact u64_ok (by omega) (by omega)
    · have hsub9 : (mp : ℤ) - 9 = m := by omega
      rw [if_neg (by omega), hsub9]
      exact u64_ok (by omega) (by omega)
  unfold month_and_day
  simp only [Option.bind_eq_bind, Option.pure_def]
  rw [hfive, Option.bind_some, htwo, Option.bind_some, hmp, hdays, Option.bind_some, hdays',
    Option.bind_some, hfirst, hsub, Option.bind_some, Int.sub_add_cancel, hadd, Option.bind_some,
    hpick, Option.bind_some]

/-- **The conversion inverts the number of a date**, and nothing in it overflows. -/
theorem civil_number {t : Date} {z : ℤ} (hz : t.number = z + 719468) (h : 0 ≤ t.number)
    (hbound : t.number < 2 ^ 32) :
    civil_from_days z = some (t.year, (t.month : ℤ), (t.day : ℤ)) := by
  obtain ⟨era, yoe, doe, hn, hdoe, hyoe, hdays, hsplit, hyear⟩ := civil_parts t h
  obtain ⟨hdoy, -, -, hmonth⟩ := month_of_day t.month_valid t.day_valid
  have hyear_ok := year_in_era_ok hdoe hdays
  have hday_ok := day_in_year_ok hyoe hsplit hdoe
  have hmonth_ok := month_and_day_ok t.month_valid t.day_valid.1 hdoy hmonth
  have hlong : t.day ≤ 31 := le_trans t.day_valid.2 (month_length_le _ _)
  have hm := t.month_valid
  have hback : (if (t.month : ℤ) ≤ 2 then march_year t.year t.month + 1
      else march_year t.year t.month) = t.year := by
    unfold march_year
    split <;> split <;> omega
  -- the bounds below are found by arithmetic, and only these facts help
  clear hsplit hmonth hdays hdoy
  generalize march_year t.year t.month = y at hback hyear
  have hrange : 0 ≤ t.year ∧ t.year < 20000000 := by
    rw [← hback]
    split <;> omega
  have hera : era < 30000 := by omega
  -- the 400-year era is found exactly, the day count being positive
  have hlow : (146097 * (era : ℤ) + doe).tdiv 146097 = era := by
    rw [Int.tdiv_eq_ediv_of_nonneg (by omega)]
    omega
  have hera_ok : i64 (era : ℤ) = some (era : ℤ) := i64_ok (by omega) (by omega)
  have hstart : i64 ((era : ℤ) * 146097) = some ((era : ℤ) * 146097) := i64_ok (by omega) (by omega)
  have hdoe_eq : 146097 * (era : ℤ) + doe - era * 146097 = doe := by omega
  have hdoe_ok : i64 (doe : ℤ) = some (doe : ℤ) := i64_ok (by omega) (by omega)
  have hyears : u64 ((era : ℤ) * 400) = some ((era : ℤ) * 400) := u64_ok (by omega) (by omega)
  have hy : u64 ((yoe : ℤ) + era * 400) = some y := by
    rw [hyear]
    exact u64_ok (by omega) (by omega)
  have hy_back : (if (t.month : ℤ) ≤ 2 then i64 (y + 1) else some y) = some t.year := by
    rw [← hback]
    split
    · exact i64_ok (by omega) (by omega)
    · rfl
  have hnumber : i64 (146097 * (era : ℤ) + doe) = some (146097 * (era : ℤ) + doe) :=
    i64_ok (by omega) (by omega)
  -- each checked operation returns, in the order of the function
  unfold civil_from_days
  simp only [Option.bind_eq_bind, Option.pure_def]
  rw [← hz, hn, hnumber, Option.bind_some, if_pos (by omega), Option.bind_some,
    hlow, hera_ok, Option.bind_some, hstart, Option.bind_some, hdoe_eq, hdoe_ok, Option.bind_some,
    as_u64_ok (by omega) (by omega), hyear_ok, Option.bind_some,
    as_u64_ok (x := (era : ℤ)) (by omega) (by omega), hyears, Option.bind_some, hy, Option.bind_some,
    as_i64_ok (by omega) (by omega), hday_ok, Option.bind_some, hmonth_ok, Option.bind_some, hy_back,
    Option.bind_some, as_i32_ok (by omega) (by omega), as_u32_ok (by omega) (by omega),
    as_u32_ok (by omega) (by omega)]

/-- The first of March of the year zero. -/
def first_day : Date where
  year := 0
  month := 3
  day := 1
  month_valid := by decide
  day_valid := by decide

/-- The first of January 1970. -/
def epoch : Date where
  year := 1970
  month := 1
  day := 1
  month_valid := by decide
  day_valid := by decide

theorem epoch_number : epoch.number = 719468 := by decide

/-- Days that are not before the first are those of a date. -/
theorem civil_some {z : ℤ} (hlo : -719468 ≤ z) (hhi : z < 2 ^ 31) :
    ∃ t : Date, civil_from_days z = some (t.year, (t.month : ℤ), (t.day : ℤ)) := by
  have hfirst : first_day.number = 0 := by decide
  have hnumber := number_after first_day (z + 719468).toNat
  rw [hfirst] at hnumber
  refine ⟨first_day.after (z + 719468).toNat, civil_number ?_ ?_ ?_⟩ <;> omega

/-- **Before the first day the product with the era overflows.** -/
theorem civil_none {z : ℤ} (hlo : -2 ^ 31 ≤ z) (hhi : z < -719468) : civil_from_days z = none := by
  obtain ⟨low, hlow⟩ : ∃ low, low = z + 719468 - 146096 := ⟨_, rfl⟩
  obtain ⟨era, hera⟩ : ∃ era, era = low.tdiv 146097 := ⟨_, rfl⟩
  have hera_neg : -15000 ≤ era ∧ era ≤ -1 := by
    rw [hera, ← Int.neg_neg low, Int.neg_tdiv, Int.tdiv_eq_ediv_of_nonneg (by omega)]
    omega
  have hyears : u64 (as_u64 era * 400) = none := by
    unfold u64 checked as_u64
    exact if_neg (by omega)
  have hdays : -15000 * 146097 ≤ era * 146097 ∧ era * 146097 ≤ 0 := by omega
  unfold civil_from_days
  simp only [Option.bind_eq_bind, Option.pure_def]
  rw [i64_ok (x := z + 719468) (by omega) (by omega), Option.bind_some, if_neg (by omega),
    ← hlow, i64_ok (x := low) (by omega) (by omega), Option.bind_some, ← hera,
    i64_ok (x := era) (by omega) (by omega), Option.bind_some,
    i64_ok (x := era * 146097) (by omega) (by omega), Option.bind_some,
    i64_ok (x := z + 719468 - era * 146097) (by omega) (by omega), Option.bind_some, hyears]
  cases year_in_era (as_u64 (z + 719468 - era * 146097)) with
  | none => rfl
  | some yoe => rfl

/-! ## When the formats return -/

/-- The days since the epoch, as the source counts them. -/
def day_count (as_secs : ℕ) : ℤ := as_i32 (as_secs / 86400)

theorem day_count_bounds (as_secs : ℕ) :
    -2 ^ 31 ≤ day_count as_secs ∧ day_count as_secs < 2 ^ 31 := by
  have hlo := Int.le_bmod (x := as_secs / 86400) (m := 2 ^ 32) (by omega)
  have hhi := Int.bmod_lt (x := as_secs / 86400) (m := 2 ^ 32) (by omega)
  unfold day_count as_i32
  omega

/-- The values of a date and of a time of the day. -/
structure Parts.Are (p : Parts) (t : Date) (time_of_day : ℕ) : Prop where
  hours : p.hours = (time_of_day / 3600 : ℕ)
  mins : p.mins = (time_of_day % 3600 / 60 : ℕ)
  secs : p.secs = (time_of_day % 60 : ℕ)
  year : p.year = t.year
  month : p.month = t.month
  day : p.day = t.day

/-- The values are those of the date the conversion finds. -/
theorem parts_some {as_secs : ℕ} {t : Date} (h : as_secs < 2 ^ 63)
    (ht : civil_from_days (day_count as_secs) = some (t.year, (t.month : ℤ), (t.day : ℤ))) :
    ∃ p, parts as_secs = some p ∧ p.days = day_count as_secs ∧ p.Are t (as_secs % 86400) := by
  have hnonneg : (0 : ℤ) ≤ as_secs := by omega
  have hday : (0 : ℤ) ≤ as_secs % 86400 := by omega
  have hhour : (0 : ℤ) ≤ as_secs % 86400 % 3600 := by omega
  unfold day_count at ht ⊢
  unfold parts
  dsimp only
  rw [as_i64_ok (by omega) (by omega), Int.tdiv_eq_ediv_of_nonneg hnonneg, ht,
    Int.tmod_eq_emod_of_nonneg hnonneg, Int.tdiv_eq_ediv_of_nonneg hday,
    Int.tmod_eq_emod_of_nonneg hday, Int.tdiv_eq_ediv_of_nonneg hhour,
    Int.tmod_eq_emod_of_nonneg hday, Option.map_some]
  refine ⟨_, rfl, ?_, ?_⟩
  · dsimp only
  · constructor <;> dsimp only <;> omega

theorem parts_none {as_secs : ℕ} (h : as_secs < 2 ^ 63)
    (ht : civil_from_days (day_count as_secs) = none) : parts as_secs = none := by
  unfold day_count at ht
  unfold parts
  dsimp only
  rw [as_i64_ok (by omega) (by omega), Int.tdiv_eq_ediv_of_nonneg (by omega), ht]
  rfl

theorem month_abbr_some {m : ℕ} (hm : 1 ≤ m ∧ m ≤ 12) :
    month_abbr m = some (MONTHS.getD (m - 1) "") := by
  obtain ⟨hlo, hhi⟩ := hm
  unfold month_abbr
  rw [u32_ok (by omega) (by omega)]
  interval_cases m <;> rfl

section Texts

variable {st : SystemTime} {as_secs : ℕ} {p : Parts} {month day_name : String}
variable (hst : secs_since_epoch st = some as_secs) (hp : parts as_secs = some p)

include hst hp

theorem format_rfc850_eq (hmonth : month_abbr p.month = some month) :
    format_rfc850 st = some (zero_padded 2 p.day ++ ['-'] ++ month.toList ++ ['-'] ++
      zero_padded 4 p.year ++ [' '] ++ zero_padded 2 p.hours ++ [':'] ++ zero_padded 2 p.mins) := by
  unfold format_rfc850
  rw [hst]
  dsimp only
  rw [hp]
  simp only [Option.bind_eq_bind, Option.bind_some, Option.pure_def]
  rw [hmonth]
  rfl

theorem format_rfc1123_eq (hmonth : month_abbr p.month = some month)
    (hfour : i64 (p.days + 4) = some (p.days + 4)) :
    format_rfc1123 st = (DAY_NAMES[(as_u64 ((p.days + 4).tmod 7)).toNat]?).map fun day_name =>
      day_name.toList ++ ", ".toList ++ zero_padded 2 p.day ++ [' '] ++ month.toList ++ [' '] ++
        zero_padded 4 p.year ++ [' '] ++ zero_padded 2 p.hours ++ [':'] ++ zero_padded 2 p.mins ++
        [':'] ++ zero_padded 2 p.secs ++ " GMT".toList := by
  unfold format_rfc1123
  rw [hst]
  dsimp only
  rw [hp]
  simp only [Option.bind_eq_bind, Option.bind_some, Option.pure_def]
  rw [hfour, Option.bind_some, hmonth]
  generalize DAY_NAMES[(as_u64 ((p.days + 4).tmod 7)).toNat]? = found
  cases found with
  | none => rfl
  | some day_name => rfl

theorem format_rfc3339_eq :
    format_rfc3339 st = some (zero_padded 4 p.year ++ ['-'] ++ zero_padded 2 p.month ++ ['-'] ++
      zero_padded 2 p.day ++ ['T'] ++ zero_padded 2 p.hours ++ [':'] ++ zero_padded 2 p.mins ++
      [':'] ++ zero_padded 2 p.secs ++ ['Z']) := by
  unfold format_rfc3339
  rw [hst]
  dsimp only
  rw [hp]
  rfl

end Texts

/-- All three formats return. -/
def Return (st : SystemTime) : Prop :=
  (format_rfc850 st).isSome ∧ (format_rfc1123 st).isSome ∧ (format_rfc3339 st).isSome

/-- The day count the source makes of the seconds is one the formats return on: not so
far before the epoch that the remainder by seven is negative, or, back to the first
day, a Sunday. -/
def Counted (as_secs : ℕ) : Prop :=
  -4 ≤ day_count as_secs ∨ (-719468 ≤ day_count as_secs ∧ (7 : ℤ) ∣ day_count as_secs + 4)

/-- The weekday is in the table when the remainder is not negative. -/
theorem day_name_isSome (days : ℤ) :
    (DAY_NAMES[(as_u64 ((days + 4).tmod 7)).toNat]?).isSome = true ↔
      -4 ≤ days ∨ (7 : ℤ) ∣ days + 4 := by
  have hlen : DAY_NAMES.length = 7 := rfl
  rw [isSome_getElem?, hlen]
  unfold as_u64
  by_cases h : -4 ≤ days
  · rw [Int.tmod_eq_emod_of_nonneg (by omega)]
    omega
  · -- the remainder of a negative number is not positive
    rw [← Int.neg_neg (days + 4), Int.neg_tmod, Int.tmod_eq_emod_of_nonneg (by omega)]
    omega

section When

variable {st : SystemTime} {as_secs : ℕ} (hst : secs_since_epoch st = some as_secs)
variable (h : as_secs < 2 ^ 63)

include hst h

theorem format_rfc850_isSome :
    (format_rfc850 st).isSome = true ↔ -719468 ≤ day_count as_secs := by
  obtain ⟨hlo, hhi⟩ := day_count_bounds as_secs
  by_cases hfirst : -719468 ≤ day_count as_secs
  · obtain ⟨t, ht⟩ := civil_some hfirst hhi
    obtain ⟨p, hp, -, hare⟩ := parts_some h ht
    have hmonth := month_abbr_some t.month_valid
    rw [← hare.month] at hmonth
    rw [format_rfc850_eq hst hp hmonth]
    exact iff_of_true rfl hfirst
  · -- before the first day the conversion panics
    have hparts := parts_none h (civil_none hlo (not_le.mp hfirst))
    unfold format_rfc850
    rw [hst]
    dsimp only
    rw [hparts]
    exact iff_of_false Bool.false_ne_true hfirst

theorem format_rfc1123_isSome : (format_rfc1123 st).isSome = true ↔ Counted as_secs := by
  obtain ⟨hlo, hhi⟩ := day_count_bounds as_secs
  unfold Counted
  by_cases hfirst : -719468 ≤ day_count as_secs
  · obtain ⟨t, ht⟩ := civil_some hfirst hhi
    obtain ⟨p, hp, hdays, hare⟩ := parts_some h ht
    have hmonth := month_abbr_some t.month_valid
    rw [← hare.month] at hmonth
    have hfour : i64 (p.days + 4) = some (p.days + 4) := i64_ok (by omega) (by omega)
    rw [format_rfc1123_eq hst hp hmonth hfour, Option.isSome_map, day_name_isSome, hdays]
    exact or_congr_right (and_iff_right hfirst).symm
  · have hparts := parts_none h (civil_none hlo (not_le.mp hfirst))
    unfold format_rfc1123
    rw [hst]
    dsimp only
    rw [hparts]
    refine iff_of_false Bool.false_ne_true ?_
    rintro (hlate | ⟨hday, -⟩)
    · omega
    · exact hfirst hday

theorem format_rfc3339_isSome :
    (format_rfc3339 st).isSome = true ↔ -719468 ≤ day_count as_secs := by
  obtain ⟨hlo, hhi⟩ := day_count_bounds as_secs
  by_cases hfirst : -719468 ≤ day_count as_secs
  · obtain ⟨t, ht⟩ := civil_some hfirst hhi
    obtain ⟨p, hp, -, -⟩ := parts_some h ht
    rw [format_rfc3339_eq hst hp]
    exact iff_of_true rfl hfirst
  · have hparts := parts_none h (civil_none hlo (not_le.mp hfirst))
    unfold format_rfc3339
    rw [hst]
    dsimp only
    rw [hparts]
    exact iff_of_false Bool.false_ne_true hfirst

/-- **When the formats return.** At an instant whose seconds fit an `i64` none of the
three panics exactly when the day count is one they return on. -/
theorem returns_iff : Return st ↔ Counted as_secs := by
  unfold Return
  rw [format_rfc850_isSome hst h, format_rfc1123_isSome hst h, format_rfc3339_isSome hst h]
  unfold Counted
  omega

end When

/-- A leap day is one the formats return on. -/
theorem returns_iff_leap_day :
    Return (951825600 * NANOS) ↔ Counted 951825600 :=
  have hst : secs_since_epoch (951825600 * NANOS) = some 951825600 := by decide
  returns_iff hst (by decide)

/-- The times a file system keeps are on days that an `i32` counts. -/
theorem timestamp_returns (time : Timestamp) : Return time.to_system_time := by
  cases hst : secs_since_epoch time.to_system_time with
  | none =>
    unfold Return
    rw [(format_before hst).1, (format_before hst).2.1, (format_before hst).2.2]
    exact ⟨rfl, rfl, rfl⟩
  | some as_secs =>
    have hdays : as_secs / 86400 < 2 ^ 31 := by
      have hlt := time.sec_lt
      have hnsec := time.nsec_lt
      unfold secs_since_epoch at hst
      split at hst
      · have hsecs := Option.some.inj hst
        unfold Timestamp.to_system_time NANOS at *
        omega
      · exact absurd hst (by simp)
    have hcount : day_count as_secs = (as_secs / 86400 : ℕ) := by
      unfold day_count
      rw [as_i32_ok] <;> omega
    rw [returns_iff hst (by omega)]
    unfold Counted
    omega

/-- The day after the last an `i32` counts is one some five million years before the
first. -/
theorem day_count_wraps :
    ¬ ∀ (st : SystemTime) (as_secs : ℕ), secs_since_epoch st = some as_secs → as_secs < 2 ^ 63 →
      Return st := by
  intro hall
  have hsecs : secs_since_epoch (86400 * 2 ^ 31 * NANOS) = some (86400 * 2 ^ 31) := by decide
  have hbound : 86400 * 2 ^ 31 < 2 ^ 63 := by omega
  have hday : day_count (86400 * 2 ^ 31) = -2 ^ 31 := by decide
  have hsome := (format_rfc850_isSome hsecs hbound).mp (hall _ _ hsecs hbound).1
  omega

end Rshs.Dates
