import TermCalc.Evaluation.Machine
import TermCalc.Registry.Core
import TermCalc.Term.Parser

/-!
# Sessions

A session reads sources one after the other over one registry, one set of globals and one output.

* `Session`: the state. A verbose session keeps notes on what it does.
* `Session.tokens`, `Session.parse`: read a source.
* `Session.format`: the text of a value.
* `Session.evaluateAll`: evaluate statements.
* `Session.run`: evaluate a source. Its result is what the program wrote, and what was written
  before and not yet handed over, followed by the text of the last value.
-/

namespace TermCalc

/-- **The state of a session.** The latest note comes first. -/
structure Session where
  registry : Registry
  machine : Machine
  verbose : Bool
  notes : List String
  deriving Inhabited

namespace Session

/-- A session in which nothing has happened. -/
def start (registry : Registry) (verbose : Bool) : Session := ⟨registry, .empty, verbose, []⟩

/-- The start of every note. -/
def noteTag : String := "[symkernel] "

/-- Note something down, if the session is verbose. -/
def note (text : String) (s : Session) : Session :=
  if s.verbose then { s with notes := (noteTag ++ text) :: s.notes } else s

/-- The output that has not been handed over. -/
def pending (s : Session) : String := s.machine.world.output.text

/-- An action on the machine of the session. -/
def onMachine {α : Type} (x : Action Machine α) : Action Session α := fun s =>
  match x s.machine with
  | .value a m => .value a { s with machine := m }
  | .failure e m => .failure e { s with machine := m }
  | .exhausted => .exhausted

/-- **The tokens of a source.** -/
def tokens (source file : String) : Action Session (List Token) := do
  let known ← Action.read fun s => s.registry.operatorNames
  let ts ← Action.ofExcept ((Lexer.mk file known).tokens source)
  Action.modify (note ("Lexed " ++ showInt ts.length ++ " tokens from " ++ file))
  pure ts

/-- **The statements of a source.** -/
def parse (source file : String) : Action Session (List Term) := do
  let ts ← tokens source file
  let registry ← Action.read Session.registry
  let trees ← Action.ofExcept ((Parser.mk registry file).parseTokens ts)
  Action.modify (note ("Parsed " ++ showInt trees.length ++ " statement(s)"))
  pure (Tree.terms trees)

/-- **The text of a value.** -/
def format (registry : Registry) (value : Term) : Except Failure String :=
  match value.toExpr? with
  | some e => registry.textOf e
  | none => .error (.notExpression Term.nothing.typeName)

/-- **Evaluate statements in order**; the value is that of the last, or `last`. -/
def evaluateFrom (fuel : Nat) (last : Term) : List Term → Action Session Term
  | [] => pure last
  | t :: ts => do
    let text ← Action.ofExcept t.noted
    Action.modify (note ("evaluating " ++ text))
    let registry ← Action.read Session.registry
    let v ← onMachine (registry.evaluate fuel t)
    evaluateFrom fuel v ts

/-- Evaluate statements; the value of none is nothing. -/
def evaluateAll (fuel : Nat) (ts : List Term) : Action Session Term := evaluateFrom fuel .nothing ts

/-- Hand over the output. -/
def release : Action Session String := fun s =>
  let (text, output) := s.machine.world.output.release
  .value text (({ s with
    machine := { s.machine with world := { s.machine.world with output } } } : Session))

/-- Whether a value is the value of no statements. -/
def isNothing : Term → Bool
  | .nothing => true
  | _ => false

/-- **Evaluate a source.** The output is handed over before the last value is printed. -/
def run (fuel : Nat) (source file : String) : Action Session String := do
  let statements ← parse source file
  let value ← evaluateAll fuel statements
  let text ← release
  if isNothing value then pure text
  else
    let registry ← Action.read Session.registry
    let shown ← Action.ofExcept (format registry value)
    pure (text ++ shown)

end Session

end TermCalc
