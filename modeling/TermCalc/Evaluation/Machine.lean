import TermCalc.Evaluation.Control
import TermCalc.Evaluation.Stack
import TermCalc.Registry.Basic

/-!
# The stack machine

The arguments of all calls lie on one stack. A call pushes its arguments and invokes the builtin,
which finds them above a marker and pushes one result in their place.

* `Machine`: the stack and the world.
* `Machine.arguments`, `Machine.dropTo`: what lies above a marker.
* `Registry.invoke`: call a builtin on the arguments on top of the stack.
* `Registry.apply`: push the arguments of a call and invoke; the stack is cut back behind it,
  however it ends.
* `Registry.evaluate`: evaluate a term with some fuel.
* `Registry.evaluateAll`: evaluate statements in order.
-/

namespace TermCalc

/-- **The stack and the world.** -/
structure Machine where
  stack : Stack
  world : World
  deriving Inhabited

instance : HasWorld Machine := ⟨Machine.world, fun m w => { m with world := w }⟩

namespace Machine

/-- The empty stack, and nothing assigned or written. -/
def empty : Machine := ⟨.empty, .empty⟩

/-- The height of the stack. -/
def height (m : Machine) : Nat := m.stack.height

/-- Put a value on the stack. -/
def push (t : Term) (m : Machine) : Machine := { m with stack := m.stack.push t }

/-- Take the top value off the stack. -/
def pop : Action Machine Term := fun m =>
  match m.stack.pop? with
  | none => .failure .emptyStack m
  | some (t, stack) => .value t { m with stack }

/-- The values above a height, bottom first. -/
def arguments (m : Machine) (marker : Nat) : List Term := m.stack.above marker

/-- Cut the stack back to a height. -/
def dropTo (marker : Nat) (m : Machine) : Machine := { m with stack := m.stack.cutTo marker }

/-- The height that an index stands for: counted from the top if it is negative. -/
def heightAt (m : Machine) (index : Int) : Nat :=
  if index < 0 then (index + m.height).toNat else index.toNat

/-- The value at an index from the bottom, or from the top if it is negative. -/
def get (m : Machine) (index : Int) : Except Failure Term :=
  if index < -(m.height : Int) then .error .noSuchIndex
  else
    match m.stack.items.reverse[m.heightAt index]? with
    | some t => .ok t
    | none => .error .noSuchIndex

/-- The value at an index from the bottom replaced. -/
def set (m : Machine) (index : Nat) (t : Term) : Except Failure Machine :=
  if index < m.height then
    .ok { m with stack := .ofList (m.stack.items.set (m.height - 1 - index) t) }
  else .error .noSuchIndex

/-- The stack as messages show it, bottom first. -/
def stackText (m : Machine) : Except Failure String :=
  if Term.allWritable m.stack.items then
    .ok ("EvaluationStack(" ++ Term.shownList m.stack.items.reverse ++ ")")
  else .error .tooManyDigits

end Machine

namespace Registry

variable (r : Registry) (fuel : Nat) (ev : Evaluator Machine)

/-- Let an implementation work on the stack above a marker. A primitive pushes its value on the
arguments. -/
def call (implementation : Implementation) (marker : Nat) : Action Machine Unit :=
  match implementation with
  | .primitive p => do
    let args ← Action.read fun m => m.arguments marker
    let v ← p.run r fuel ev args
    Action.modify (Machine.push v)
  | .routine _ act => Action.modify fun m => { m with stack := .ofList (act marker m.stack.items) }

/-- **Call a builtin** on the topmost `count` values of the stack, which its result replaces. -/
def invoke (name : String) (count : Int) : Action Machine Term := do
  match r.lookup name with
  | none => Action.fail (.unknownName name)
  | some entry =>
    if !entry.accepts count then Action.fail (entry.arityFailure count)
    else
      let held ← Action.read Machine.height
      if held < count then Action.fail (Failure.shallowStack name count held).reported
      else
        let marker := held - count.toNat
        call r fuel ev entry.implementation marker
        let height ← Action.read Machine.height
        if (height : Int) ≠ marker + count + 1 then Action.fail (.notOneResult name)
        else
          let result ← Machine.pop
          Action.modify fun m => (m.dropTo marker).push result
          pure result

/-- Push operands, evaluated unless they are to be held. -/
def pushOperands (holds : Bool) : List Term → Action Machine Unit
  | [] => pure ()
  | t :: ts => do
    let v ← if holds then pure t else ev t
    Action.modify (Machine.push v)
    pushOperands holds ts

/-- **Call a builtin on operands.** The number of operands is checked before any is evaluated. -/
def apply (name : String) (operands : List Term) : Action Machine Term :=
  match r.lookup name with
  | none => Action.fail (.unknownName name)
  | some entry =>
    if !entry.accepts operands.length then Action.fail (entry.arityFailure operands.length)
    else fun m =>
      let call : Action Machine Term := do
        pushOperands ev entry.flags.holds operands
        invoke r fuel ev name operands.length
      call.cleanup (Machine.dropTo m.height) m

/-- Evaluate a term, given how to evaluate its parts. A value evaluates to itself. -/
def evaluateOnce : Evaluator Machine
  | .numeral n _ => pure (.num n)
  | .text s _ => pure (.str s)
  | .atom name pos => Action.read fun m => m.world.atomValue name (.atom name pos)
  | .form op args _ => apply r fuel ev op args
  | t => pure t

/-- **Evaluate a term.** Fuel bounds the depth of evaluation and the rounds of each loop. -/
def evaluate : Nat → Evaluator Machine
  | 0 => fun _ _ => .exhausted
  | fuel + 1 => evaluateOnce r fuel (evaluate fuel)

/-- **Evaluate a statement.** A statement is shown before it is evaluated, whether or not a note is
taken of it, so one with a number that is too long is not evaluated. -/
def evaluateStatement : Evaluator Machine := fun t => do
  let _ ← Action.ofExcept t.noted
  r.evaluate fuel t

/-- **Evaluate statements in order**; the value is that of the last, or nothing. -/
def evaluateAll (ts : List Term) : Action Machine Term :=
  sequence (evaluateStatement r fuel) .nothing ts

end Registry

end TermCalc
