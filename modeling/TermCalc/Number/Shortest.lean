import TermCalc.Number.Binary64

/-!
# The fewest digits that read back

Every double has a shortest decimal that rounds to it. For one, two, … seventeen digits the two
neighbours of the number on that decimal grid are tried in exact arithmetic; the first grid with
a neighbour that rounds to the number wins, of two the nearer, and of two equally near the even.

* `Decimal`: digits and the place of the point.
* `roundsTo`: the interval of numbers that round to a double, ends included if its mantissa is even.
* `shortest`: the search.
-/

namespace TermCalc

/-- The number `0.d₁d₂… * 10 ^ point`, with the digits of `digits` after the point. -/
structure Decimal where
  digits : List Char
  point : Int
  deriving DecidableEq, Repr

/-- The quotient `num / den * 10 ^ e` as a quotient. -/
def scale10 (num den : Nat) (e : Int) : Nat × Nat :=
  if e < 0 then (num, den * Nat.pow 10 (-e).toNat) else (num * Nat.pow 10 e.toNat, den)

/-- The quotient `m * 2 ^ q` as a quotient. -/
def scale2 (m : Nat) (q : Int) : Nat × Nat :=
  if q < 0 then (m, Nat.pow 2 (-q).toNat) else (m * Nat.pow 2 q.toNat, 1)

/-- Whether the quotient `num / den` rounds to the double `m * 2 ^ q`.

In quarters of a step the double is `4 * m`; half a step above it the interval ends, and half a
step below, or a quarter where the steps below are half as wide. -/
def roundsTo (m : Nat) (q : Int) (num den : Nat) : Bool :=
  let (n, d) := scale2 1 q
  let quarters := 4 * (num * d)
  let unit := den * n
  let low := if m = hiddenBit ∧ q ≠ -1074 then 4 * m - 1 else 4 * m - 2
  let high := 4 * m + 2
  if m % 2 = 0 then low * unit ≤ quarters && quarters ≤ high * unit
  else low * unit < quarters && quarters < high * unit

/-- The decimal exponent above a quotient: the least `k ≥ start` with `num / den < 10 ^ k`. -/
def exponentAbove (num den : Nat) : Nat → Int → Int
  | 0, k => k
  | fuel + 1, k =>
    let (n, d) := scale10 num den (-k)
    if n < d then k else exponentAbove num den fuel (k + 1)

/-- The grid point with `count` digits that reads back as `m * 2 ^ q`, if there is one. -/
def onGrid (m : Nat) (q : Int) (point : Int) (count : Nat) : Option Nat :=
  let (num, den) := scale2 m q
  let (n, d) := scale10 num den (count - point)
  let reads (digits : Nat) : Bool :=
    let (a, b) := scale10 digits 1 (point - count)
    roundsTo m q a b
  let below := n / d
  let gap := 2 * (n % d)
  match reads below && below ≠ 0, reads (below + 1) with
  | true, true =>
    some (if gap < d ∨ (gap = d ∧ below % 2 = 0) then below else below + 1)
  | true, false => some below
  | false, true => some (below + 1)
  | false, false => none

/-- The first grid from `count` digits on, `fuel` grids at most, that has a point to read back. -/
def searchGrids (m : Nat) (q : Int) (point : Int) : Nat → Nat → Nat × Nat
  | 0, count => (0, count)
  | fuel + 1, count =>
    match onGrid m q point count with
    | some digits => (digits, count)
    | none => searchGrids m q point fuel (count + 1)

/-- The digit list without the zeros at its end. -/
def trimZeros (digits : List Char) : List Char :=
  (digits.reverse.dropWhile (· == '0')).reverse

/-- **The shortest decimal** of the double `m * 2 ^ q`, for `m` above zero. -/
def shortest (m : Nat) (q : Int) : Decimal :=
  let (num, den) := scale2 m q
  let bits : Int := (m.log2 : Int) + q
  let start := (bits * 30103) / 100000 - 1
  let point := exponentAbove num den 4 start
  let (digits, count) := searchGrids m q point 17 1
  let text := Nat.toDigits 10 digits
  ⟨trimZeros text, point + (text.length - count)⟩

end TermCalc
