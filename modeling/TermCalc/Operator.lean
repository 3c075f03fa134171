/-!
# Operators

An operator is a spelling that the parser and the printer treat as the call of the builtin of that
name. The precedence says how loosely it binds: the lower, the tighter.

* `Fixity`: where an operator stands. A bodied operator is written as a call with its last
  argument after the closing parenthesis.
* `Operator`: one declaration.
-/

namespace TermCalc

/-- Where an operator stands between its operands. -/
inductive Fixity where
  | prefixed | infixed | postfixed | bodied
  deriving DecidableEq, Repr

namespace Fixity

/-- All fixities, in the order in which listings go over them. -/
def all : List Fixity := [prefixed, infixed, postfixed, bodied]

/-- The name of a fixity in messages. -/
def name : Fixity → String
  | prefixed => "prefix"
  | infixed => "infix"
  | postfixed => "postfix"
  | bodied => "bodied"

end Fixity

/-- The precedence of the loosest operators that an expression may hold without parentheses. -/
def loosest : Int := 60000

/-- **A declared operator.** Operators are numbered in order of declaration. -/
structure Operator where
  fixity : Fixity
  precedence : Int
  name : String
  order : Nat
  deriving DecidableEq, Repr

end TermCalc
