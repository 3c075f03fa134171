import TermCalc.Number.Basic

/-!
# Arithmetic

Integer operations are exact. An operation that meets a double is done in doubles, its other
operand rounded first; an integer too large for that overflows.

* `Num.add`, `Num.subtract`, `Num.multiply`, `Num.negate`, `Num.magnitude`.
* `Num.divide`: exact where an integer divides another, else the double nearest to the quotient.
* `Num.power`: integer powers are exact; in doubles, finite numbers with an infinite power overflow.
* `factorial`.

`none` stands for overflow throughout. A NaN that comes out of an operation is a fresh one, whether
or not its operands were NaNs.
-/

namespace TermCalc

namespace Num

/-- A NaN. -/
def notANumber : Float := 0 / 0

/-- The double nearest to a number; `none` for an integer beyond the range of doubles. -/
def toDouble? : Num → Option Float
  | .int z => doubleOfInt? z
  | .float x => some x
  | .nan _ => some notANumber

/-- An operation on two numbers, in integers if both are. -/
def lift₂ (onInt : Int → Int → Int) (onFloat : Float → Float → Float) : Num → Num → Option Num
  | .int a, .int b => some (.int (onInt a b))
  | a, b => do
    let x ← a.toDouble?
    let y ← b.toDouble?
    return .float (onFloat x y)

/-- The sum. -/
def add : Num → Num → Option Num := lift₂ (· + ·) (· + ·)

/-- The difference. -/
def subtract : Num → Num → Option Num := lift₂ (· - ·) (· - ·)

/-- The product. -/
def multiply : Num → Num → Option Num := lift₂ (· * ·) (· * ·)

/-- The number with the other sign. -/
def negate : Num → Num
  | .int z => .int (-z)
  | .float x => .float (-x)
  | .nan _ => .float notANumber

/-- The number without its sign. -/
def magnitude : Num → Num
  | .int z => .int z.natAbs
  | .float x => .float x.abs
  | .nan _ => .float notANumber

/-- **The quotient** by a divisor other than zero. -/
def divide : Num → Num → Option Num
  | .int n, .int d =>
    if n % d = 0 then some (.int (n / d))
    else
      let x := nearestDouble ((n < 0) != (d < 0)) n.natAbs d.natAbs
      if x.isInf then none else some (.float x)
  | a, b => do
    let x ← a.toDouble?
    let y ← b.toDouble?
    return .float (x / y)

end Num

/-- Whether a double is an integer, and whether that integer is odd. -/
def doubleParity? (x : Float) : Option Bool :=
  match doubleParts x with
  | .nan | .infinite _ => none
  | .finite _ m q =>
    if 0 ≤ q then some (q == 0 && m % 2 == 1)
    else
      let step := Nat.pow 2 (-q).toNat
      if m % step = 0 then some (m / step % 2 == 1) else none

/-- Whether a double is an odd integer. -/
def isOddDouble (x : Float) : Bool := doubleParity? x == some true

/-- **A power of doubles**, the base not below zero unless the exponent is an integer, and not
zero where the exponent is below zero. `none` where finite numbers have an infinite power. -/
def floatPower (base exponent : Float) : Option Float :=
  if exponent == 0 then some 1
  else if base.isNaN then some base
  else if exponent.isNaN then some (if base == 1 then 1 else exponent)
  else if exponent.isInf then
    let size := base.abs
    some (if size == 1 then 1 else if (0 < exponent) == (1 < size : Bool) then exponent.abs else 0)
  else if base.isInf then
    if 0 < exponent then some (if isOddDouble exponent then base else base.abs)
    else some (if isOddDouble exponent && base < 0 then -0.0 else 0)
  else if base == 0 then some (if isOddDouble exponent then base else 0)
  else
    let negative := base < 0 && isOddDouble exponent
    let size := Float.pow base.abs exponent
    if size.isInf then none else some (if negative then -size else size)

namespace Num

/-- The power of an integer. Powers of 0, 1 and -1 are told from the parity of the exponent, however
large it is. -/
def intPower (base : Int) (exponent : Nat) : Int :=
  if 1 < base.natAbs then Int.pow base exponent
  else if exponent = 0 then 1
  else if exponent % 2 = 0 then base * base
  else base

/-- **The power**, under the conditions of `floatPower`. -/
def power : Num → Num → Option Num
  | .int base, .int exponent =>
    if 0 ≤ exponent then some (.int (intPower base exponent.toNat))
    else do
      let x ← doubleOfInt? base
      let y ← doubleOfInt? exponent
      (floatPower x y).map .float
  | a, b => do
    let x ← a.toDouble?
    let y ← b.toDouble?
    (floatPower x y).map .float

theorem intPower_eq (base : Int) (exponent : Nat) :
    intPower base exponent = Int.pow base exponent := by
  unfold intPower
  split
  · rfl
  · rename_i h
    have hsquare : base * base * base = base := by
      have : base = 0 ∨ base = 1 ∨ base = -1 := by omega
      rcases this with rfl | rfl | rfl <;> rfl
    induction exponent with
    | zero => exact (Int.pow_zero base).symm
    | succ n ih =>
      refine Eq.trans ?_ ((congrArg (· * base) ih).trans (Int.pow_succ base n).symm)
      by_cases hn : n = 0
      · simp [hn]
      · by_cases hp : n % 2 = 0
        · simp [hn, hp, show (n + 1) % 2 ≠ 0 by omega, hsquare]
        · simp [hn, hp, show (n + 1) % 2 = 0 by omega]

/-- Whether a number is a double with a fraction, or no finite double. -/
def isFractional : Num → Bool
  | .int _ => false
  | .float x => (doubleParity? x).isNone
  | .nan _ => true

end Num

/-- The product of the integers from `low + 1` to `low + count`, halves first, which keeps the
factors of a step about equally long. -/
def productAbove : Nat → Nat → Nat → Nat
  | 0, _, _ => 1
  | fuel + 1, low, count =>
    if count = 0 then 1
    else if count = 1 then low + 1
    else productAbove fuel low (count / 2) * productAbove fuel (low + count / 2) (count - count / 2)

/-- **The factorial.** -/
def factorial (n : Nat) : Nat := productAbove (n + 1) 0 n

/-- The largest number whose factorial is attempted; the argument must fit a machine word. -/
def factorialLimit : Int := 0x7FFFFFFFFFFFFFFF

end TermCalc
