import TermCalc.Output
import TermCalc.Registry.Basic

/-!
# From expressions to text

Forms of operators are written with their operators, and parentheses stand only where the
precedence asks for them; all other forms are written as calls.

* `Registry.operatorOf?`: the operator that a form is written with.
* `Registry.precedence`: how loosely the text of an expression binds. A number below zero binds like
  the prefix minus.
* `Registry.printAt`: an expression inside text that binds at some depth; looser expressions get
  parentheses.
* `Registry.print`, `Registry.textOf`: a whole expression.
-/

namespace TermCalc

/-- How a character is written in a string literal. -/
def stringEscape (c : Char) : String :=
  if c == '"' then "\\\"" else if c == '\\' then "\\\\"
  else if c == '\n' then "\\n" else if c == '\t' then "\\t"
  else String.singleton c

/-- Write the characters of a string literal between its quotes. -/
def writeEscaped {σ : Type} [Output σ] (s : σ) (content : String) : σ :=
  content.toList.foldl (fun s c => Output.write s (stringEscape c)) s

namespace Registry

variable (r : Registry)

/-- **The operator that a form is written with**, by the number of its arguments: infix for two,
prefix or else postfix for one, else bodied for one or more. -/
def operatorOf? (name : String) (count : Nat) : Option Operator :=
  let infixed := if count = 2 then r.operator? .infixed name else none
  let unary :=
    if count = 1 then (r.operator? .prefixed name).or (r.operator? .postfixed name) else none
  let bodied := if 1 ≤ count then r.operator? .bodied name else none
  infixed.or (unary.or bodied)

/-- The precedence of an operator; what is written without one binds tightest. -/
def precedenceOf (op : Option Operator) : Int := (op.map (·.precedence)).getD 0

/-- **How loosely the text of an expression binds.** -/
def precedence : Term → Int
  | .numeral n _ => if n.isNegative then precedenceOf (r.operator? .prefixed "-") else 0
  | .form name args _ => precedenceOf (r.operatorOf? name args.length)
  | _ => 0

/-- Whether a space keeps a prefix operator apart from the text of its operand: behind a letter or
digit, and before an operator character or nothing. -/
def needsSpace (last : Char) (operand : List Char) : Bool :=
  isAlphanumeric last || operand.head?.all isOperatorChar

/-- Write a prefix operator before its operand, which is already printed. -/
def printPrefixed {σ : Type} [Output σ] (op : Operator) (operand : Printed Buffer) (s : σ) :
    Printed σ :=
  let s := Output.write s op.name
  match operand.failure, op.name.toList.getLast? with
  | some e, _ => .fail s e
  | none, none => .fail s .noSuchIndex
  | none, some last =>
    let s := if needsSpace last operand.output.text.toList then Output.put s ' ' else s
    .done (Output.write s operand.output.text)

/-- Print what binds with some precedence at a depth: in parentheses if it is looser. No
parentheses would ever hold what is looser than the loosest, so printing that never ends. -/
def enclosed {σ : Type} [Output σ] (depth precedence : Int) (body : σ → Printed σ) (s : σ) :
    Printed σ :=
  if depth < precedence then
    if loosest < precedence then .fail s .endlessParentheses
    else (body (Output.put s '(')).put ')'
  else body s

mutual

/-- **Print an expression at a depth.** -/
def printAt {σ : Type} [Output σ] (depth : Int) (t : Term) (s : σ) : Printed σ :=
  enclosed depth (r.precedence t)
    (fun s =>
      match t with
      | .numeral n _ => if n.writable then .done (Output.write s n.text) else .fail s .tooManyDigits
      | .text content _ => .done (Output.put (writeEscaped (Output.put s '"') content) '"')
      | .atom name _ => .done (Output.write s name)
      | .form name args _ =>
        if name == "List" then (printList args (Output.put s '\x7b')).put '\x7d'
        else
          match r.operatorOf? name args.length with
          | none => (printList args (Output.put (Output.write s name) '(')).put ')'
          | some op =>
            match op.fixity, args with
            | .infixed, [lhs, rhs] =>
              ((printAt op.precedence lhs s).write (" " ++ op.name ++ " ")).andThen
                (printAt (op.precedence - 1) rhs)
            | .prefixed, [operand] =>
              printPrefixed op (printAt op.precedence operand Buffer.empty) s
            | .postfixed, [operand] => (printAt op.precedence operand s).write op.name
            | _, args =>
              printBodied op.precedence true args (Output.put (Output.write s op.name) '(')
      | .nothing => .fail s (.notPrintable Term.nothing.typeName)
      | .truth b => .fail s (.notPrintable (Term.truth b).typeName)
      | .num n => .fail s (.notPrintable (Term.num n).typeName)
      | .str x => .fail s (.notPrintable (Term.str x).typeName)
      | .list items => .fail s (.notPrintable (Term.list items).typeName))
    s

/-- Print arguments, commas between them. -/
def printList {σ : Type} [Output σ] (ts : List Term) (s : σ) : Printed σ :=
  match ts with
  | [] => .done s
  | t :: rest =>
    match rest with
    | [] => printAt loosest t s
    | _ :: _ => ((printAt loosest t s).write ", ").andThen (printList rest)

/-- Print the arguments of a bodied operator from behind its opening parenthesis: the last one
behind the closing parenthesis, at the depth of the operator. -/
def printBodied {σ : Type} [Output σ] (depth : Int) (first : Bool) (ts : List Term) (s : σ) :
    Printed σ :=
  match ts with
  | [] => .done s
  | t :: rest =>
    match rest with
    | [] => printAt depth t (Output.write s ") ")
    | _ :: _ =>
      (printAt loosest t (if first then s else Output.write s ", ")).andThen
        (printBodied depth false rest)

end

/-- **Print an expression.** -/
def print {σ : Type} [Output σ] (t : Term) (s : σ) : Printed σ := r.printAt loosest t s

/-- **The text of an expression.** -/
def textOf (t : Term) : Except Failure String :=
  let printed := r.print t Buffer.empty
  match printed.failure with
  | none => .ok printed.output.text
  | some e => .error e

end Registry

end TermCalc
