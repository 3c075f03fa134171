import TermCalc.Number.Notation

/-!
# Numbers

A number is an integer of any size or a double. Comparisons are between exact values and never
round; the text of a number reads back as that number.

A NaN equals nothing, not even itself. Each is a double of its own, though, and gets a mark when it
arises, by which it is known to be the same NaN wherever it turns up again.

* `Num`, `Num.value?`: a number and its exact value; a NaN has none.
* `Num.equal`, `Num.less`, `Num.lessEq`: comparisons of exact values, false at a NaN.
* `Num.isFresh`, `Num.mark`: NaNs without a mark, and how they get one.
* `Num.same`: equality that knows a marked NaN again.
* `Num.text`: integers in decimal, doubles by their shortest decimal.
* `Num.writable`: integers of more than 4300 digits are never converted from or to text.
-/

namespace TermCalc

/-- A number: an integer of any size or a double. -/
inductive Num where
  | int (value : Int)
  | float (value : Float)
  /-- A NaN with its mark. -/
  | nan (mark : Nat)
  deriving DecidableEq

/-- **The exact value** of a number that is one. All finite ones are integer multiples of the least
positive double, `2 ^ -1074`, and `steps` says how many of it. -/
inductive Exact where
  | infinite (negative : Bool)
  | finite (steps : Int)
  deriving DecidableEq

namespace Exact

/-- The strict order, infinities at the ends. -/
def less : Exact → Exact → Bool
  | .infinite a, .infinite b => a && !b
  | .infinite a, .finite _ => a
  | .finite _, .infinite b => !b
  | .finite x, .finite y => x < y

end Exact

namespace Num

/-- The number one in steps. -/
def stepsOfOne : Nat := Nat.pow 2 1074

/-- The exact value of a double. -/
def exactOfParts : Parts → Option Exact
  | .nan => none
  | .infinite negative => some (.infinite negative)
  | .finite negative m q =>
    let steps := m * Nat.pow 2 (q + 1074).toNat
    some (.finite (if negative then -(steps : Int) else steps))

/-- **The exact value**; `none` for a NaN. -/
def value? : Num → Option Exact
  | .int z => some (.finite (z * stepsOfOne))
  | .float x => exactOfParts (doubleParts x)
  | .nan _ => none

/-- Equality of exact values. Two integers are compared as they are. -/
def equal : Num → Num → Bool
  | .int a, .int b => a == b
  | a, b =>
    match a.value?, b.value? with
    | some x, some y => x == y
    | _, _ => false

/-- The strict order of exact values. Two integers are compared as they are. -/
def less : Num → Num → Bool
  | .int a, .int b => a < b
  | a, b =>
    match a.value?, b.value? with
    | some x, some y => x.less y
    | _, _ => false

/-- The order of exact values. -/
def lessEq (a b : Num) : Bool := a.less b || a.equal b

/-- Whether a number is below zero; `-0.0` is not. -/
def isNegative (a : Num) : Bool := a.less (.int 0)

/-- Whether a number is zero, of either sign. -/
def isZero (a : Num) : Bool := a.equal (.int 0)

/-- Whether a number is a NaN without a mark. -/
def isFresh : Num → Bool
  | .float x => doubleParts x == .nan
  | _ => false

/-- A number with the mark `next` if it is a fresh NaN, and the mark that is free then. -/
def mark (next : Nat) (a : Num) : Num × Nat :=
  if a.isFresh then (.nan next, next + 1) else (a, next)

/-- Equality of exact values, where a marked NaN is the same as itself. -/
def same : Num → Num → Bool
  | .nan j, .nan k => j == k
  | a, b => a.equal b

/-- The decimal text of an integer. -/
def intText (z : Int) : List Char :=
  if z < 0 then '-' :: Nat.toDigits 10 z.natAbs else Nat.toDigits 10 z.natAbs

/-- **The text of a number.** -/
def chars : Num → List Char
  | .int z => intText z
  | .float x => doubleText x
  | .nan _ => nanText

/-- The text of a number as a string. -/
def text (a : Num) : String := String.ofList a.chars

/-- The most digits that an integer may have where it is converted from or to text. -/
def maxDigits : Nat := 4300

/-- The least number with more than `maxDigits` digits. -/
@[irreducible] def digitBound : Nat := Nat.pow 10 maxDigits

theorem lt_digitBound {n : Nat} (h : n < Nat.pow 10 4) : n < digitBound := by
  have hdigits : 4 ≤ maxDigits := by decide
  unfold digitBound
  generalize maxDigits = k at hdigits
  exact Nat.lt_of_lt_of_le h (Nat.pow_le_pow_right (by decide) hdigits)

/-- Whether an integer has at most `maxDigits` digits. -/
def intWritable (z : Int) : Bool := z.natAbs < digitBound

/-- A power of ten has one digit more than its exponent. -/
theorem intWritable_pow {n : Nat} (hn : maxDigits ≤ n) : intWritable (Nat.pow 10 n) = false := by
  have hbound : digitBound ≤ Nat.pow 10 n := by
    unfold digitBound
    generalize maxDigits = k at hn
    exact Nat.pow_le_pow_right (by decide) hn
  rw [intWritable, Int.natAbs_natCast]
  exact decide_eq_false (Nat.not_lt.2 hbound)

/-- Whether the text of a number may be formed. -/
def writable : Num → Bool
  | .int z => intWritable z
  | .float _ | .nan _ => true

end Num

end TermCalc
