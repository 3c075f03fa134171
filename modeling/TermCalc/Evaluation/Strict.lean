import TermCalc.Failure
import TermCalc.Number.Arithmetic
import TermCalc.Registry.Primitive
import TermCalc.Term.Equality

/-!
# Primitives without effects

The primitives that only compute a value from the values of their arguments.

* `one`, `two`, `three`: the arguments of a call. A declaration may give a primitive an arity
  that it cannot unpack.
* `numberArg`, `stringArg`, `integerArg`, `truthArg`: arguments of a kind.
* `Primitive.compute?`: all of them; `none` for a primitive with effects.
-/

namespace TermCalc

/-- A computed value, or what is wrong with the arguments. -/
abbrev Computed := Except Failure Term

/-- The only argument. -/
def one : List Term → Except Failure Term
  | [a] => .ok a
  | _ => .error .cannotUnpack

/-- Two arguments. -/
def two : List Term → Except Failure (Term × Term)
  | [a, b] => .ok (a, b)
  | _ => .error .cannotUnpack

/-- Three arguments. -/
def three : List Term → Except Failure (Term × Term × Term)
  | [a, b, c] => .ok (a, b, c)
  | _ => .error .cannotUnpack

/-- A fault in an argument, as it is reported. -/
def badArgument {α : Type} (fault : ArgumentFault) : Except Failure α :=
  .error (Failure.argument fault).reported

/-- An argument that must be a number. -/
def numberArg (op : String) : Term → Except Failure Num
  | .num n => .ok n
  | t => badArgument (.notNumeric op t.typeName)

/-- An argument that must be a string. -/
def stringArg (op : String) : Term → Except Failure String
  | .str s => .ok s
  | t => badArgument (.notString op t.typeName)

/-- An argument that must be an integer. -/
def integerArg (op : String) : Term → Except Failure Int
  | .num (.int z) => .ok z
  | t => badArgument (.notInteger op t.typeName)

/-- A value that must be a truth value. -/
def truthArg : Term → Except Failure Bool
  | .truth b => .ok b
  | t => badArgument (.notTruth t.typeName)

/-- A number, or overflow. -/
def orOverflow : Option Num → Computed
  | some n => .ok (.num n)
  | none => .error .overflow

/-- Two numbers as arguments. -/
def twoNumbers (op : String) (args : List Term) : Except Failure (Num × Num) := do
  let (a, b) ← two args
  let x ← numberArg op a
  let y ← numberArg op b
  return (x, y)

/-- An operation on two numbers. -/
def arithmetic (op : String) (f : Num → Num → Option Num) (args : List Term) : Computed := do
  let (x, y) ← twoNumbers op args
  orOverflow (f x y)

/-- A comparison of two numbers. -/
def comparison (op : String) (f : Num → Num → Bool) (args : List Term) : Computed := do
  let (x, y) ← twoNumbers op args
  return .truth (f x y)

/-- An operation on one number. -/
def unary (op : String) (f : Num → Num) (args : List Term) : Computed := do
  let a ← one args
  let x ← numberArg op a
  return .num (f x)

/-- Negation of one number, difference of two. -/
def difference (args : List Term) : Computed :=
  match args with
  | [a] => unary "-" Num.negate [a]
  | args => arithmetic "-" Num.subtract args

/-- **The quotient.** -/
def quotient (args : List Term) : Computed := do
  let (n, d) ← twoNumbers "MathDivide" args
  if d.isZero then .error .divisionByZero else orOverflow (n.divide d)

/-- **The power.** A negative base has no real power whose exponent is a fraction. -/
def powerOf (args : List Term) : Computed := do
  let (base, exponent) ← twoNumbers "MathPower" args
  if base.isZero && exponent.isNegative then .error .divisionByZero
  else if base.isNegative && exponent.isFractional then
    .error (Failure.noRealPower base exponent).reported
  else
    match base.power exponent with
    | some n => .ok (.num n)
    | none => .error (Failure.powerOverflow base exponent).reported

/-- The factorial of an integer that is not negative. -/
def factorialOf (args : List Term) : Computed := do
  let a ← one args
  let n ← integerArg "Factorial" a
  if n < 0 then badArgument (.negativeFactorial n)
  else if factorialLimit < n then .error .overflow
  else .ok (.num (.int (factorial n.toNat)))

/-- The number of characters of a string, or of items of a list. -/
def lengthOf (args : List Term) : Computed := do
  match ← one args with
  | .str s => return .num (.int s.length)
  | .list items => return .num (.int items.length)
  | t => badArgument (.notMeasurable t.typeName)

/-- Strings one behind the other. -/
def joined (args : List Term) : Computed := do
  let parts ← args.mapM (stringArg "Concat")
  return .str (String.join parts)

/-- **Part of a string**: `length` characters from the one numbered `index`, counted from 1. -/
def substring (args : List Term) : Computed := do
  let (a, b, c) ← three args
  let index ← integerArg "StringMid" a
  let length ← integerArg "StringMid" b
  let text ← stringArg "StringMid" c
  if index < 1 ∨ length < 0 ∨ text.length < index - 1 + length then
    badArgument (.stringRange index (index + length - 1) text.length)
  else
    return .str ((text.drop (index - 1).toNat).take length.toNat).copy

/-- The name of an atom. -/
def nameOf (args : List Term) : Computed := do
  match ← one args with
  | .atom name _ => return .str name
  | t => badArgument (.notAtom t.typeName)

/-- **The item of a list** with a number, counted from 1. -/
def itemOf (args : List Term) : Computed := do
  let (a, b) ← two args
  match a with
  | .list items =>
    let n ← integerArg "Nth" b
    match if n < 1 then none else items[(n - 1).toNat]? with
    | some item => return item
    | none => badArgument (.listIndex n items.length)
  | t => badArgument (.notList t.typeName)

/-- Whether two values are equal, where that is decided. -/
def equality (a b : Term) : Except Failure Bool :=
  match a.equal? b with
  | some b => .ok b
  | none => .error .bareValue

/-- Whether two values are equal. -/
def sameAs (args : List Term) : Computed := do
  let (a, b) ← two args
  let same ← equality a b
  return .truth same

/-- Whether two values differ. -/
def differs (args : List Term) : Computed := do
  let (a, b) ← two args
  let same ← equality a b
  return .truth !same

/-- The other truth value. -/
def negation (args : List Term) : Computed := do
  let a ← one args
  let b ← truthArg a
  return .truth !b

/-- The atom with a name. -/
def atomOf (args : List Term) : Computed := do
  let a ← one args
  let name ← stringArg "Atom" a
  return .atom name .none

/-- **What a primitive without effects computes.** -/
def Primitive.compute? : Primitive → Option (List Term → Computed)
  | .add => some (arithmetic "MathAdd" Num.add)
  | .subtract => some (arithmetic "MathSubtract" Num.subtract)
  | .multiply => some (arithmetic "MathMultiply" Num.multiply)
  | .divide => some quotient
  | .negate => some (unary "MathNegate" Num.negate)
  | .power => some powerOf
  | .abs => some (unary "MathAbs" Num.magnitude)
  | .factorial => some factorialOf
  | .minus => some difference
  | .lessThan => some (comparison "LessThan" Num.less)
  | .greaterThan => some (comparison "GreaterThan" fun x y => y.less x)
  | .lessOrEqual => some (comparison "LessOrEqual" Num.lessEq)
  | .greaterOrEqual => some (comparison "GreaterOrEqual" fun x y => y.lessEq x)
  | .equals => some sameAs
  | .notEquals => some differs
  | .not => some negation
  | .length => some lengthOf
  | .concat => some joined
  | .stringMid => some substring
  | .atom => some atomOf
  | .string => some nameOf
  | .list => some fun args => .ok (.list args)
  | .nth => some itemOf
  | .hold => some one
  | .and | .or | .writeString | .write | .newLine | .eval | .set | .prog | .ifThen
  | .whileDo => none

end TermCalc
