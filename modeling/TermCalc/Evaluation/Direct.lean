import TermCalc.Evaluation.Machine

/-!
# Evaluation without a stack

The same evaluation with the arguments of each call in a list of its own: operands are evaluated
from left to right, or held, and handed to the builtin. There is no state but the world.

* `Registry.operandValues`: the arguments of a call.
* `Registry.evaluateDirect`: evaluate a term with some fuel.
-/

namespace TermCalc.Registry

variable (r : Registry) (fuel : Nat) (ev : Evaluator World)

/-- The arguments of a call: the operands, evaluated unless they are to be held. -/
def operandValues (holds : Bool) : List Term → Action World (List Term)
  | [] => pure []
  | t :: ts => do
    let v ← if holds then pure t else ev t
    let vs ← operandValues holds ts
    pure (v :: vs)

/-- The result of an implementation for a list of arguments. A routine works on a stack that holds
nothing else. -/
def result (name : String) (implementation : Implementation) (args : List Term) :
    Action World Term :=
  match implementation with
  | .primitive p => p.run r fuel ev args
  | .routine _ act =>
    match act 0 args.reverse with
    | v :: rest => if rest.length = args.length then pure v else Action.fail (.notOneResult name)
    | [] => Action.fail (.notOneResult name)

/-- **Call a builtin on operands.** -/
def applyDirect (name : String) (operands : List Term) : Action World Term :=
  match r.lookup name with
  | none => Action.fail (.unknownName name)
  | some entry =>
    if !entry.accepts operands.length then Action.fail (entry.arityFailure operands.length)
    else do
      let args ← operandValues ev entry.flags.holds operands
      result r fuel ev name entry.implementation args

/-- Evaluate a term, given how to evaluate its parts. -/
def evaluateDirectOnce : Evaluator World
  | .numeral n _ => pure (.num n)
  | .text s _ => pure (.str s)
  | .atom name pos => Action.read fun w => w.atomValue name (.atom name pos)
  | .form op args _ => applyDirect r fuel ev op args
  | t => pure t

/-- **Evaluate a term without a stack.** -/
def evaluateDirect : Nat → Evaluator World
  | 0 => fun _ _ => .exhausted
  | fuel + 1 => evaluateDirectOnce r fuel (evaluateDirect fuel)

end TermCalc.Registry
