/-
`utils/time.rs`: what a time is, and the tables of the date formats.

A `SystemTime` is a number of nanoseconds since the epoch, negative before it, and a
`Timestamp` is what a file system keeps: seconds and nanoseconds. The seconds stay
within the days an `i32` counts, some five million years around the epoch. The formats
themselves are in `Dates`.
-/
import Rshs.Text
import Mathlib.Data.Int.Notation
import Mathlib.Order.Basic
import Mathlib.Algebra.Order.Ring.Int

set_option autoImplicit false

namespace Rshs.Time

/-- A time in nanoseconds from the epoch. -/
abbrev SystemTime := ℤ

/-- The nanoseconds of a second. -/
def NANOS : ℕ := 1000000000

/-- A time as `statx` reports it. -/
structure Timestamp where
  tv_sec : ℤ
  tv_nsec : ℕ
  nsec_lt : tv_nsec < NANOS
  sec_ge : -(86400 * 2 ^ 31) ≤ tv_sec
  sec_lt : tv_sec < 86400 * 2 ^ 31
deriving DecidableEq

/-- `SystemTime::new`, of the standard library. -/
def Timestamp.to_system_time (t : Timestamp) : SystemTime := t.tv_sec * NANOS + t.tv_nsec

/-- `duration_since(UNIX_EPOCH)`, in whole seconds. -/
def secs_since_epoch (st : SystemTime) : Option ℕ :=
  if 0 ≤ st then some (st.toNat / NANOS) else none

/-! ## Tables and numerals -/

def MONTHS : List String :=
  ["Jan", "Feb", "Mar", "Apr", "May", "Jun", "Jul", "Aug", "Sep", "Oct", "Nov", "Dec"]

def DAY_NAMES : List String := ["Sun", "Mon", "Tue", "Wed", "Thu", "Fri", "Sat"]

/-- A number with zeros in front of it, up to a width. -/
def zero_padded (width : ℕ) (n : ℤ) : List Char :=
  let digits := Nat.toDigits 10 n.natAbs
  if n < 0 then '-' :: (List.replicate (width - 1 - digits.length) '0' ++ digits)
  else List.replicate (width - digits.length) '0' ++ digits

end Rshs.Time
