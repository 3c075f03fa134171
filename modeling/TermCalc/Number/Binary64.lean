/-!
# Doubles as exact numbers

A finite double is `±m · 2 ^ q` with `m < 2 ^ 53`. This module reads that form off the bits and
rounds an exact quotient back to a double, so that all decisions between the two are made in
integers.

* `Parts`, `doubleParts`: what the bits of a double say.
* `roundDiv`: an integer quotient to the nearest, a half to the even neighbour.
* `nearestDouble`: a quotient to the nearest double, a half to the even neighbour; infinity from
  half a step above the largest finite double on.
-/

namespace TermCalc

/-- What a double stands for. -/
inductive Parts where
  | nan
  | infinite (negative : Bool)
  /-- The number `mantissa * 2 ^ exponent`, below zero if `negative`. -/
  | finite (negative : Bool) (mantissa : Nat) (exponent : Int)
  deriving DecidableEq, Repr

/-- The weight of the sign bit, `2 ^ 63`. -/
def signBit : Nat := 0x8000000000000000

/-- The weight of the lowest bit of the exponent, `2 ^ 52`. It is also the leading bit of the
mantissa that is not stored. -/
def hiddenBit : Nat := 0x10000000000000

/-- **The number behind the bits** of a double: one sign bit, eleven of exponent, 52 of fraction. -/
def doubleParts (x : Float) : Parts :=
  let bits : Nat := x.toBits.toNat
  let negative := bits / signBit == 1
  let biased : Nat := bits / hiddenBit % 2048
  let fraction := bits % hiddenBit
  if biased = 2047 then if fraction = 0 then .infinite negative else .nan
  else if biased = 0 then .finite negative fraction (-1074)
  else .finite negative (hiddenBit + fraction) ((biased : Int) - 1075)

/-- A quotient rounded to the nearest integer, a half to the even one. -/
def roundDiv (num den : Nat) : Nat :=
  let quotient := num / den
  let twice := 2 * (num % den)
  if twice < den then quotient
  else if den < twice then quotient + 1
  else quotient + quotient % 2

/-- The bits of infinity. -/
def infinityBits : Nat := 2047 * hiddenBit

/-- The double with given bits below the sign bit. -/
def signedDouble (negative : Bool) (bits : Nat) : Float :=
  Float.ofBits (UInt64.ofNat ((if negative then signBit else 0) + bits))

/-- **The double nearest to `num / den`**, a half to the even neighbour.

The step between doubles near the quotient is `2 ^ step`, never below `2 ^ -1074`. The quotient
counted in steps, rounded, is the mantissa; as the bits of a double count all steps below it,
a mantissa that rounds up to `2 ^ 53` needs no case of its own. -/
def nearestDouble (negative : Bool) (num den : Nat) : Float :=
  if num = 0 then signedDouble negative 0
  else
    let guess : Int := num.log2 - den.log2 - 52
    let scaled (step : Int) : Nat × Nat :=
      if step < 0 then (num * Nat.pow 2 (-step).toNat, den) else (num, den * Nat.pow 2 step.toNat)
    let (n, d) := scaled guess
    let step := max (if n / d < hiddenBit then guess - 1 else guess) (-1074)
    let (n, d) := scaled step
    let bits := (step + 1074).toNat * hiddenBit + roundDiv n d
    signedDouble negative (min bits infinityBits)

/-- The double nearest to an integer; `none` beyond the range of finite doubles. -/
def doubleOfInt? (z : Int) : Option Float :=
  let x := nearestDouble (z < 0) z.natAbs 1
  if x.isInf then none else some x

end TermCalc
