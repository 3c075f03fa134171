import TermCalc.Evaluation.Outcome
import TermCalc.Term.Printer

/-!
# Printing as a recursion

The same printing by a function that calls itself, each call a visit of a node. A node that is
looser than its surroundings allow is visited once more, at the loosest depth and between
parentheses. So nothing in the recursion gets smaller there, and it is given fuel: as many visits as
may be open at once.

* `Path`, `Term.paths`, `Term.height`: where a node is in a tree, where all of them are, and how
  many are above one another.
* `Tour`: an output and the nodes visited so far. `Tour.aside` prints to a buffer of its own.
* `Registry.visitOnce`: one visit, given how the visits in it go.
* `Registry.visit`: print an expression with some fuel.
-/

namespace TermCalc

/-- **Where a node is in a tree**: the places among the arguments on the way to it from the root. -/
abbrev Path := List Nat

namespace Term

mutual

/-- How many nodes are above one another, at most. -/
def height : Term → Nat
  | form _ args _ => heightOfList args + 1
  | _ => 1

/-- The height of the highest of several terms. -/
def heightOfList : List Term → Nat
  | [] => 0
  | t :: ts => max (height t) (heightOfList ts)

end

mutual

/-- **The paths to all nodes** of a term to which `path` leads. -/
def paths (path : Path) : Term → List Path
  | form _ args _ => path :: pathsOfList path 0 args
  | _ => [path]

/-- The paths to all nodes of arguments of the node at `path`, from the argument at `i` on. -/
def pathsOfList (path : Path) (i : Nat) : List Term → List Path
  | [] => []
  | t :: ts => paths (path ++ [i]) t ++ pathsOfList path (i + 1) ts

end

end Term

/-- **An output, and the nodes visited** while it was printed to, the latest last. -/
structure Tour (σ : Type) where
  output : σ
  visited : List Path
  deriving DecidableEq, Repr

namespace Tour

variable {σ : Type}

/-- The tour of an output before any visit. -/
def start (s : σ) : Tour σ := ⟨s, []⟩

/-- Begin the visit of a node. -/
def enter (path : Path) : Action (Tour σ) Unit :=
  Action.modify fun tour => { tour with visited := tour.visited ++ [path] }

/-- Change the output. -/
def change (f : σ → σ) : Action (Tour σ) Unit :=
  Action.modify fun tour => { tour with output := f tour.output }

/-- Put a character. -/
def put [Output σ] (c : Char) : Action (Tour σ) Unit := change (Output.put · c)

/-- Write a text. -/
def write [Output σ] (text : String) : Action (Tour σ) Unit := change (Output.write · text)

/-- **Print to a buffer of its own**, and hand over the text. -/
def aside (print : Action (Tour Buffer) Unit) : Action (Tour σ) String := fun tour =>
  match print ⟨Buffer.empty, tour.visited⟩ with
  | .value _ inner => .value inner.output.text { tour with visited := inner.visited }
  | .failure e inner => .failure e { tour with visited := inner.visited }
  | .exhausted => .exhausted

/-- Write the text of an operand behind its prefix operator, which is already written. -/
def behindPrefix [Output σ] (op : Operator) (operand : Action (Tour Buffer) Unit) :
    Action (Tour σ) Unit := do
  let text ← aside operand
  match op.name.toList.getLast? with
  | none => Action.fail .noSuchIndex
  | some last =>
    if Registry.needsSpace last text.toList then put ' '
    write text

end Tour

/-- **How nodes are visited**: by the path to a node, the depth and the node, on any output. -/
abbrev Visitor : Type 1 := {σ : Type} → [Output σ] → Path → Int → Term → Action (Tour σ) Unit

namespace Registry

variable (r : Registry)

section

variable (self : Visitor) {σ : Type} [Output σ]

/-- Visit arguments from the one at `i` on, commas between all of them. -/
def visitArguments (path : Path) (i : Nat) : List Term → Action (Tour σ) Unit
  | [] => pure ()
  | t :: ts => do
    if i ≠ 0 then Tour.write ", "
    self (path ++ [i]) loosest t
    visitArguments path (i + 1) ts

/-- Visit the operands of an operator. A fixity fails that asks for operands which are not there. -/
def visitOperands (op : Operator) (path : Path) (args : List Term) : Action (Tour σ) Unit :=
  match op.fixity with
  | .infixed =>
    match args with
    | [lhs, rhs] => do
      self (path ++ [0]) op.precedence lhs
      Tour.write (" " ++ op.name ++ " ")
      self (path ++ [1]) (op.precedence - 1) rhs
    | _ => Action.fail .cannotUnpack
  | .prefixed => do
    Tour.write op.name
    match args.head? with
    | none => Action.fail .noSuchIndex
    | some operand => Tour.behindPrefix op (self (path ++ [0]) op.precedence operand)
  | .postfixed =>
    match args.head? with
    | none => Action.fail .noSuchIndex
    | some operand => do
      self (path ++ [0]) op.precedence operand
      Tour.write op.name
  | .bodied => do
    Tour.write op.name
    Tour.put '('
    visitArguments self path 0 args.dropLast
    Tour.write ") "
    match args.getLast? with
    | none => Action.fail .noSuchIndex
    | some body => self (path ++ [args.length - 1]) op.precedence body

/-- Print a node without parentheses around it. -/
def visitNode (path : Path) : Term → Action (Tour σ) Unit
  | .numeral n _ => if n.writable then Tour.write n.text else Action.fail .tooManyDigits
  | .text content _ => do
    Tour.put '"'
    Tour.change (writeEscaped · content)
    Tour.put '"'
  | .atom name _ => Tour.write name
  | .form name args _ =>
    if name == "List" then do
      Tour.put '\x7b'
      visitArguments self path 0 args
      Tour.put '\x7d'
    else
      match r.operatorOf? name args.length with
      | none => do
        Tour.write name
        Tour.put '('
        visitArguments self path 0 args
        Tour.put ')'
      | some op => visitOperands self op path args
  | t => Action.fail (.notPrintable t.typeName)

/-- **One visit of a node.** Between parentheses the node itself is visited again. -/
def visitOnce (path : Path) (depth : Int) (t : Term) : Action (Tour σ) Unit := do
  Tour.enter path
  if depth < r.precedence t then do
    Tour.put '('
    self path loosest t
    Tour.put ')'
  else r.visitNode self path t

end

/-- **Print an expression by visits**, with fuel for as many of them as are open at once. -/
def visit (fuel : Nat) {σ : Type} [Output σ] (path : Path) (depth : Int) (t : Term) :
    Action (Tour σ) Unit :=
  match fuel with
  | 0 => fun _ => .exhausted
  | fuel + 1 => r.visitOnce (visit fuel) path depth t

end Registry

end TermCalc
