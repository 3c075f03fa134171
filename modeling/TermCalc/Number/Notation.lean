import TermCalc.Number.Shortest

/-!
# How doubles are written and read

* `Decimal.text`: positional for decimal exponents from -4 to 15, with at least one digit on
  either side of the point; else scientific, with a sign and at least two digits of exponent.
* `doubleText`: the text of a double, its shortest decimal or a word for what is no number.
* `doubleOfDecimal`: the double nearest to a decimal with an exponent, infinity beyond the range.
-/

namespace TermCalc

/-- The exponent part of scientific notation. -/
def exponentText (e : Int) : List Char :=
  let digits := Nat.toDigits 10 e.natAbs
  'e' :: (if e < 0 then '-' else '+') :: (if digits.length < 2 then '0' :: digits else digits)

/-- **A decimal as text.** -/
def Decimal.text (x : Decimal) : List Char :=
  let e := x.point - 1
  if -4 ≤ e ∧ e < 16 then
    if x.point ≤ 0 then '0' :: '.' :: (List.replicate (-x.point).toNat '0' ++ x.digits)
    else
      let whole := x.digits.take x.point.toNat
      let fraction := x.digits.drop x.point.toNat
      whole ++ List.replicate (x.point.toNat - whole.length) '0' ++
        '.' :: (if fraction.isEmpty then ['0'] else fraction)
  else
    match x.digits with
    | [] => exponentText e
    | [d] => d :: exponentText e
    | d :: rest => d :: '.' :: (rest ++ exponentText e)

/-- The text of a NaN. -/
def nanText : List Char := ['n', 'a', 'n']

/-- **A double as text.** -/
def doubleText (x : Float) : List Char :=
  match doubleParts x with
  | .nan => nanText
  | .infinite negative => (if negative then ['-'] else []) ++ ['i', 'n', 'f']
  | .finite negative m q =>
    (if negative then ['-'] else []) ++ (if m = 0 then ['0', '.', '0'] else (shortest m q).text)

/-- **The double nearest to `±digits * 10 ^ exponent`**, where `digits` has `count` digits.

A decimal of more than 400 digits before the point is beyond all doubles, and one with 400 zeros
after the point is below them, so neither power of ten is formed. -/
def doubleOfDecimal (negative : Bool) (digits count : Nat) (exponent : Int) : Float :=
  if digits = 0 ∨ count + exponent < -400 then nearestDouble negative 0 1
  else if 400 < exponent then signedDouble negative infinityBits
  else
    let (num, den) := scale10 digits 1 exponent
    nearestDouble negative num den

end TermCalc
