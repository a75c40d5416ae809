import Askr.Data.Bytes

/-!
# Values of SQLite

What a statement computes with: the cells of a column that is `NOT NULL`, `CAST … AS INTEGER`, sums
that leave the 64 bits and go on as `REAL`, and deadlines, which are the sums of a clock and a
number of seconds in a column of integer affinity.

Floating-point numbers are a parameter (`Doubles`). A deadline beyond 64 bits is one of them; it is
later than every clock, and no more than that is ever asked of it, so `Deadline.beyond` has no
value.
-/

namespace Sqlite

open Bytes

/-- `u64 as i64`. -/
def asI64 (n : Nat) : Int := if n < 9223372036854775808 then n else n - 18446744073709551616

theorem asI64_of_lt {n : Nat} (h : n < 9223372036854775808) : asI64 n = n := if_pos h

theorem asI64_neg {n : Nat} (h : ¬ n < 9223372036854775808) (h' : n < 18446744073709551616) :
    asI64 n < 0 := by
  rw [asI64, if_neg h]
  omega

/-- Floating-point numbers: the one next to an integer, sums, `CAST … AS INTEGER`, and how one is
printed. -/
structure Doubles where
  Real : Type
  ofInt : Int → Real
  add : Real → Real → Real
  toInt : Real → Int
  text : Real → Bytes

/-- A cell of a column that is `NOT NULL`. -/
inductive Cell (d : Doubles) where
  | integer (n : Int)
  | real (x : d.Real)
  | text (s : Bytes)
  | blob (b : Bytes)

/-- `+` of two integers: out of range, the sum is one of floating-point numbers. -/
def addI64 (d : Doubles) (a b : Int) : Cell d :=
  if InI64 (a + b) then .integer (a + b) else .real (d.add (d.ofInt a) (d.ofInt b))

/-- The digits a text starts with, as a number. -/
def leadingDigits (s : Bytes) : Nat :=
  (s.takeWhile isDigit).foldl (fun n b => n * 10 + (b.toNat - 48)) 0

/-- The longest start of a text that is an integer: spaces, a sign and digits; `0` without any, and
the end of the range beyond it. -/
def intPrefix (s : Bytes) : Int :=
  let n : Int := match s.dropWhile isSpace1 with
    | 45 :: r => -(leadingDigits r : Int)
    | 43 :: r => leadingDigits r
    | r => leadingDigits r
  max (-9223372036854775808) (min n 9223372036854775807)

/-- `CAST(… AS INTEGER)`. -/
def Cell.castInteger {d : Doubles} : Cell d → Int
  | .integer n => n
  | .real x => d.toInt x
  | .text s => intPrefix s
  | .blob b => intPrefix b

/-- A column of deadlines, in seconds: `NULL`, an integer, or a number beyond 64 bits. -/
inductive Deadline where
  | never
  | due (t : Nat)
  | beyond
deriving DecidableEq

/-- `CASE WHEN ttl > 0 THEN unixepoch() + ttl ELSE NULL END`. -/
def deadline (now ttl : Nat) : Deadline :=
  if asI64 ttl > 0 then
    if now + ttl < 9223372036854775808 then .due (now + ttl) else .beyond
  else .never

/-- `expires_at IS NOT NULL AND expires_at <= unixepoch()`. -/
def Deadline.passed (now : Nat) : Deadline → Bool
  | .never => false
  | .due t => t ≤ now
  | .beyond => false

theorem passed_deadline {now ttl now' : Nat} (httl : ttl < 18446744073709551616)
    (hnow' : now' < 9223372036854775808) :
    (deadline now ttl).passed now' = decide (0 < ttl ∧ now + ttl ≤ now') := by
  by_cases hlt : ttl < 9223372036854775808
  · rw [deadline, asI64_of_lt hlt]
    by_cases hpos : (ttl : Int) > 0
    · rw [if_pos hpos]
      by_cases hin : now + ttl < 9223372036854775808
      · rw [if_pos hin, Deadline.passed]
        exact decide_eq_decide.2 (by omega)
      · rw [if_neg hin, Deadline.passed, eq_comm, decide_eq_false_iff_not]
        omega
    · rw [if_neg hpos, Deadline.passed, eq_comm, decide_eq_false_iff_not]
      omega
  · have hneg := asI64_neg hlt httl
    rw [deadline, if_neg (by omega), Deadline.passed, eq_comm, decide_eq_false_iff_not]
    omega

end Sqlite
