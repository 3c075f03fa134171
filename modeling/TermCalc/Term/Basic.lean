import TermCalc.Number.Basic
import TermCalc.Text.Quoted

/-!
# Terms

Values and expressions are one type. A value is nothing, a truth value, a number, a string or a
list of terms; an expression is an atom, a number or string literal, or the form of an operator
over its arguments, and carries the place in the source where its token stood. An expression
that is held is a value like any other, so either kind may occur inside the other.

* `Term`, `Term.isExpr`, `Term.typeName`.
* `Term.toExpr?`: a value as an expression that evaluates to it; only nothing has none.
* `Term.mark`: a term from outside, with a mark on every NaN.
* `Term.chars`: a term as messages show it.
-/

namespace TermCalc

/-- A line and a column of a source, both from 1. Terms not read from a source are at `0:0`. -/
structure Pos where
  line : Int
  column : Int
  deriving DecidableEq, Repr

/-- The place of terms not read from a source. -/
def Pos.none : Pos := ⟨0, 0⟩

/-- The decimal text of an integer, as a string. -/
def showInt (z : Int) : String := String.ofList (Num.intText z)

/-- The text of a place. -/
def Pos.text (p : Pos) : String := showInt p.line ++ ":" ++ showInt p.column

/-- Whether the text of a place may be formed. -/
def Pos.writable (p : Pos) : Bool := Num.intWritable p.line && Num.intWritable p.column

/-- **A value or an expression.** -/
inductive Term where
  | nothing
  | truth (b : Bool)
  | num (n : Num)
  | str (s : String)
  | list (items : List Term)
  | atom (name : String) (pos : Pos)
  | numeral (n : Num) (pos : Pos)
  | text (s : String) (pos : Pos)
  | form (op : String) (args : List Term) (pos : Pos)

namespace Term

instance : Inhabited Term := ⟨nothing⟩

/-- Whether a term is an expression. -/
def isExpr : Term → Bool
  | atom .. | numeral .. | text .. | form .. => true
  | _ => false

/-- The kind of a term, as messages name it. -/
def typeName : Term → String
  | nothing => "NoneType"
  | truth _ => "bool"
  | num (.int _) => "int"
  | num (.float _) | num (.nan _) => "float"
  | str _ => "str"
  | list _ => "list"
  | atom .. => "atom"
  | numeral .. => "number"
  | text .. => "string"
  | form .. => "form"

/-- The name of the atom that stands for a truth value. -/
def truthName (b : Bool) : String := if b then "True" else "False"

mutual

/-- **A value as an expression.** Truth values become atoms, lists forms of `List`. -/
def toExpr? : Term → Option Term
  | nothing => none
  | truth b => some (atom (truthName b) .none)
  | num n => some (numeral n .none)
  | str s => some (text s .none)
  | list items => (toExprs? items).map (form "List" · .none)
  | t => some t

/-- The items of a list as expressions. -/
def toExprs? : List Term → Option (List Term)
  | [] => some []
  | t :: ts => do
    let e ← toExpr? t
    let es ← toExprs? ts
    return e :: es

end

mutual

/-- **Mark the fresh NaNs of a term** from `next` on, and say which mark is free then. -/
def mark (next : Nat) : Term → Term × Nat
  | num n => let (n, next) := n.mark next; (num n, next)
  | numeral n pos => let (n, next) := n.mark next; (numeral n pos, next)
  | list items => let (items, next) := markAll next items; (list items, next)
  | form op args pos => let (args, next) := markAll next args; (form op args pos, next)
  | t => (t, next)

/-- Mark the fresh NaNs of the terms of a list, one term after the other. -/
def markAll (next : Nat) : List Term → List Term × Nat
  | [] => ([], next)
  | t :: ts =>
    let (t, next) := mark next t
    let (ts, next) := markAll next ts
    (t :: ts, next)

end

mutual

/-- Whether every number in a term may be written out. -/
def writable : Term → Bool
  | num n => n.writable
  | numeral n _ => n.writable
  | list items => allWritable items
  | form _ args _ => allWritable args
  | _ => true

/-- Whether every number in every term may be written out. -/
def allWritable : List Term → Bool
  | [] => true
  | t :: ts => writable t && allWritable ts

end

theorem writable_numeral_pow {n : Nat} (hn : Num.maxDigits ≤ n) (pos : Pos) :
    (numeral (.int (Nat.pow 10 n)) pos).writable = false := Num.intWritable_pow hn

mutual

/-- **A term as messages show it.** -/
def chars : Term → List Char
  | nothing => "None".toList
  | truth b => (truthName b).toList
  | num n => n.chars
  | str s => (quoted s).toList
  | list items => '[' :: charsOfList items ++ [']']
  | atom name _ => "Atom(".toList ++ name.toList ++ [')']
  | numeral n _ => "Number(".toList ++ n.chars ++ [')']
  | text s _ => "String(".toList ++ (quoted s).toList ++ [')']
  | form op args _ => "Form(".toList ++ op.toList ++ ", [".toList ++ charsOfList args ++ "])".toList

/-- Terms between commas. -/
def charsOfList : List Term → List Char
  | [] => []
  | t :: ts => match ts with | [] => chars t | _ :: _ => chars t ++ ", ".toList ++ charsOfList ts

end

/-- The shown form as a string. -/
def shown (t : Term) : String := String.ofList t.chars

/-- The terms of a list between brackets, as messages show them. -/
def shownList (ts : List Term) : String := String.ofList ('[' :: charsOfList ts ++ [']'])

end Term

end TermCalc
