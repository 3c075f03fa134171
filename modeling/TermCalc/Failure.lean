import TermCalc.Flags
import TermCalc.Operator
import TermCalc.Token.Basic

/-!
# Failures

Every way in which reading, declaring, evaluating or printing can fail, by cause.

* `SourceFault`: what is wrong with a source at some place.
* `ArgumentFault`: what is wrong with an argument of a builtin.
* `FileFault`: why a file cannot be read.
* `Failure`: all causes.
* `Failure.message?`: the wording. Failures of the arithmetic, of the limits of conversion and of
  files have none.
* `Failure.reported`: the failure that arises instead where a number in the wording is too long.
* `Term.noted`: a term as notes show it, which fails at such a number too.
-/

namespace TermCalc

/-- What is wrong with a source. -/
inductive SourceFault where
  | unterminatedString (start : Pos)
  | unterminatedComment
  | unexpectedCharacter (c : Char)
  | expected (wanted : Mark) (got : Token)
  | unexpectedEnd
  | unexpectedToken (got : Token)
  | unterminatedBlock
  | unboundOperator (fixity : Fixity) (name : String)
  /-- A fault in a caller's own words. -/
  | reported (message : String)
  deriving DecidableEq

/-- The wording of a fault in a source. -/
def SourceFault.message : SourceFault → String
  | unterminatedString start => "Unterminated string starting at " ++ start.text
  | unterminatedComment => "Unterminated comment"
  | unexpectedCharacter c => "Unexpected character: " ++ quoted (String.singleton c)
  | expected wanted got => "Expected " ++ wanted.kindName ++ ", got " ++ got.shownInError
  | unexpectedEnd => "Unexpected end of input"
  | unexpectedToken got => "Unexpected token " ++ got.shownInError
  | unterminatedBlock => "Unterminated block"
  | unboundOperator fixity name =>
    fixity.name ++ " operator '" ++ name ++ "' is not bound to a builtin"
  | reported message => message

/-- Whether the numbers in the wording of a fault may be written out. -/
def SourceFault.writable : SourceFault → Bool
  | unterminatedString start => start.writable
  | expected _ got | unexpectedToken got => got.value.writable
  | _ => true

/-- What is wrong with an argument. `op` is the builtin's own name for itself and `got` the kind of
the argument. -/
inductive ArgumentFault where
  | notNumeric (op got : String)
  | notString (op got : String)
  | notInteger (op got : String)
  | notTruth (got : String)
  | negativeFactorial (n : Int)
  | notMeasurable (got : String)
  | stringRange (first last : Int) (length : Nat)
  | notAtom (got : String)
  | notList (got : String)
  | listIndex (n : Int) (length : Nat)
  | notAssignable (got : String)
  deriving DecidableEq

/-- The wording of a fault in an argument. -/
def ArgumentFault.message : ArgumentFault → String
  | notNumeric op got => op ++ " requires numeric arguments, got " ++ got
  | notString op got => op ++ " requires string arguments, got " ++ got
  | notInteger op got => op ++ " requires an integer argument, got " ++ got
  | notTruth got => "expected a boolean, got " ++ got
  | negativeFactorial n => "Factorial requires a non-negative integer, got " ++ showInt n
  | notMeasurable got => "Length requires a string or list, got " ++ got
  | stringRange first last length =>
    "StringMid range " ++ showInt first ++ ".." ++ showInt last ++
      " is outside a string of length " ++ showInt length
  | notAtom got => "String requires an atom, got " ++ got
  | notList got => "Nth requires a list, got " ++ got
  | listIndex n length =>
    "Nth index " ++ showInt n ++ " is outside a list of length " ++ showInt length
  | notAssignable got => "cannot assign to " ++ got

/-- Whether the numbers in the wording of a fault may be written out. -/
def ArgumentFault.writable : ArgumentFault → Bool
  | negativeFactorial n | listIndex n _ => Num.intWritable n
  | stringRange first last _ => Num.intWritable first && Num.intWritable last
  | _ => true

/-- Why a file cannot be read. -/
inductive FileFault where
  | missing
  /-- The path leads to a directory. -/
  | isDirectory
  /-- The path goes on behind a file. -/
  | notDirectory
  /-- A path cannot hold the null character. -/
  | nullInPath
  /-- The path or a part of it is longer than paths may be. -/
  | tooLong
  deriving DecidableEq, Repr

/-- How many arguments a builtin takes and how many it got. -/
structure ArityMismatch where
  name : String
  expected : Int
  actual : Int
  variadic : Bool
  maximum : Option Int
  deriving DecidableEq

/-- The wording of an arity mismatch. -/
def ArityMismatch.message (e : ArityMismatch) : String :=
  let wanted :=
    match e.variadic, e.maximum with
    | true, some maximum => showInt e.expected ++ " to " ++ showInt maximum
    | true, none => "at least " ++ showInt e.expected
    | false, _ => showInt e.expected
  "'" ++ e.name ++ "' expects " ++ wanted ++ " argument(s), got " ++ showInt e.actual

/-- Whether the numbers in the wording of a mismatch may be written out. -/
def ArityMismatch.writable (e : ArityMismatch) : Bool :=
  Num.intWritable e.expected && Num.intWritable e.actual &&
    (!e.variadic || e.maximum.all Num.intWritable)

/-- **Every way to fail.** -/
inductive Failure where
  /-- A source cannot be read. -/
  | source (file : String) (pos : Pos) (fault : SourceFault)
  /-- A character was asked for at the end of a text. -/
  | endOfText (position : Nat)
  /-- A position lies outside a text. -/
  | outsideText (position : Int) (length : Nat)
  /-- A number was read where no number starts. -/
  | malformedNumber
  /-- An integer is too long to be converted from or to text. -/
  | tooManyDigits
  /-- A declaration came after the registry was frozen. -/
  | frozen
  | duplicateBuiltin (name : String)
  | duplicateOperator (fixity : Fixity) (name : String)
  | notCallable (name : String)
  | negativeArity (name : String) (arity : Int)
  | badMaximum (name : String) (arity : Int)
  | noImplementation (label : String)
  | aliasMismatch (name : String) (arity : Int) (flags : Flags) (base : String) (baseArity : Nat)
      (baseFlags : Flags)
  | malformedDeclaration (fields : List Term)
  | unknownName (name : String)
  | wrongArity (mismatch : ArityMismatch)
  /-- A call asked for more arguments than the stack holds. -/
  | shallowStack (name : String) (wanted : Int) (held : Nat)
  | notOneResult (name : String)
  | emptyStack
  | divisionByZero
  | noRealPower (base exponent : Num)
  | powerOverflow (base exponent : Num)
  | argument (fault : ArgumentFault)
  /-- A value has no expression. -/
  | notExpression (typeName : String)
  /-- What is to be printed is no expression. -/
  | notPrintable (typeName : String)
  /-- A list was to be looked up as an operator. -/
  | listLookedUp
  /-- A number is beyond the range of doubles or of factorials. -/
  | overflow
  /-- An implementation cannot unpack the number of arguments it was handed. -/
  | cannotUnpack
  /-- An index lies outside a list, a stack or a spelling. -/
  | noSuchIndex
  /-- An equality met a value that stands inside an expression. -/
  | bareValue
  | unreadable (fault : FileFault)
  /-- An expression is to be evaluated whose text is missing. -/
  | missingText
  /-- Printing an operator looser than the loosest would never end. -/
  | endlessParentheses
  deriving Inhabited

namespace Failure

/-- The fields of a declaration between parentheses. One field has a comma behind it. -/
def shownFields (fields : List Term) : String :=
  match fields with
  | [field] => "(" ++ field.shown ++ ",)"
  | fields => "(" ++ String.ofList (Term.charsOfList fields) ++ ")"

/-- **The wording of a failure**, where it has one. -/
def message? : Failure → Option String
  | source file pos fault => some (file ++ ":" ++ pos.text ++ ": " ++ fault.message)
  | endOfText position => some ("end of stream at position " ++ showInt position)
  | outsideText position length =>
    some ("position " ++ showInt position ++ " is outside [0, " ++ showInt length ++ "]")
  | frozen => some "builtin registry is frozen"
  | duplicateBuiltin name => some ("builtin '" ++ name ++ "' is already registered")
  | duplicateOperator fixity name =>
    some (fixity.name ++ " operator '" ++ name ++ "' is already declared")
  | notCallable name => some ("implementation of '" ++ name ++ "' is not callable")
  | negativeArity name arity =>
    some ("arity of '" ++ name ++ "' must be non-negative, got " ++ showInt arity)
  | badMaximum name arity =>
    some ("maximum arity of '" ++ name ++ "' needs the VARIABLE flag and must be at least " ++
      showInt arity)
  | noImplementation label => some ("no implementation named '" ++ label ++ "'")
  | aliasMismatch name arity flags base baseArity baseFlags =>
    some ("alias '" ++ name ++ "' declares arity " ++ showInt arity ++ ", flags " ++
      showInt flags.code ++ " but '" ++ base ++ "' has arity " ++ showInt baseArity ++ ", flags " ++
      showInt baseFlags.code)
  | malformedDeclaration fields => some ("malformed builtin declaration: " ++ shownFields fields)
  | unknownName name => some ("no such operation: '" ++ name ++ "'")
  | wrongArity mismatch => some mismatch.message
  | shallowStack name wanted held =>
    some ("'" ++ name ++ "' invoked with " ++ showInt wanted ++
      " argument(s) but the stack holds " ++ showInt held)
  | notOneResult name => some ("'" ++ name ++ "' did not push exactly one result")
  | emptyStack => some "evaluation stack underflow"
  | divisionByZero => some "Division by zero"
  | noRealPower base exponent =>
    some ("MathPower: " ++ base.text ++ " ^ " ++ exponent.text ++ " has no real value")
  | powerOverflow base exponent =>
    some ("MathPower: " ++ base.text ++ " ^ " ++ exponent.text ++ " overflows")
  | argument fault => some fault.message
  | notExpression typeName => some ("cannot convert " ++ typeName ++ " to an expression")
  | notPrintable typeName => some ("cannot print " ++ typeName)
  | listLookedUp => some "unhashable type: 'list'"
  | malformedNumber | tooManyDigits | overflow | cannotUnpack | noSuchIndex | bareValue
  | unreadable _ | missingText | endlessParentheses => none

/-- Whether the numbers in the wording of a failure may be written out. What counts the characters
of a text or the values on a stack always may. -/
def writable : Failure → Bool
  | source _ pos fault => pos.writable && fault.writable
  | outsideText position _ => Num.intWritable position
  | negativeArity _ arity | badMaximum _ arity => Num.intWritable arity
  | aliasMismatch _ arity _ _ baseArity _ => Num.intWritable arity && Num.intWritable baseArity
  | malformedDeclaration fields => Term.allWritable fields
  | wrongArity mismatch => mismatch.writable
  | shallowStack _ wanted _ => Num.intWritable wanted
  | noRealPower base exponent | powerOverflow base exponent => base.writable && exponent.writable
  | argument fault => fault.writable
  | _ => true

/-- A failure as it is reported: one whose wording cannot be written out gives way to that limit. -/
def reported (f : Failure) : Failure := if f.writable then f else tooManyDigits

theorem reported_of_writable {f : Failure} (h : f.writable = true) : f.reported = f := if_pos h

end Failure

/-- A term as notes show it. -/
def Term.noted (t : Term) : Except Failure String :=
  if t.writable then .ok t.shown else .error .tooManyDigits

end TermCalc
