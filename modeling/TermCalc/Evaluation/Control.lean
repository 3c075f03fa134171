import TermCalc.Evaluation.Strict
import TermCalc.Evaluation.World
import TermCalc.Term.Printer

/-!
# Primitives with effects

The primitives that write, assign, or decide what is evaluated. They are given their arguments,
and evaluate expressions through a function that they are handed, so that they say nothing about
where arguments are kept.

* `settle`: a computed value, with a mark if it is a NaN.
* `writeAll`: print values in source form.
* `conjunction`, `disjunction`, `sequence`, `branch`, `loop`, `assignment`: control.
* `Primitive.run`: every primitive, those without effects included.
-/

namespace TermCalc

variable {σ : Type} [HasWorld σ]

/-- Evaluation of an expression, as primitives use it. -/
abbrev Evaluator (σ : Type) := Term → Action σ Term

/-- **A computed value.** A NaN gets a mark of its own. -/
def settle : Term → Action σ Term
  | .num n => fun s =>
    if n.isFresh then
      let (t, w) := (HasWorld.world s).adopt (.num n)
      .value t (HasWorld.withWorld s w)
    else .value (.num n) s
  | t => pure t

/-- Print an expression to the output. What is printed before a failure stays. -/
def printOut (r : Registry) (e : Term) : Action σ Unit := fun s =>
  let printed := r.print e (HasWorld.world s).output
  let s := updateWorld (fun w => { w with output := printed.output }) s
  match printed.failure with
  | none => .value () s
  | some failure => .failure failure s

/-- **Print values in source form**, one behind the other. -/
def writeAll (r : Registry) : List Term → Action σ Unit
  | [] => pure ()
  | t :: ts =>
    match t.toExpr? with
    | some e => do
      printOut r e
      writeAll r ts
    | none => Action.fail (.notExpression Term.nothing.typeName)

/-- Evaluate an expression that must have a truth value. -/
def condition (evaluate : Evaluator σ) (t : Term) : Action σ Bool := do
  let v ← evaluate t
  Action.ofExcept (truthArg v)

/-- **And**: evaluate up to the first that is false. -/
def conjunction (evaluate : Evaluator σ) : List Term → Action σ Term
  | [] => pure (.truth true)
  | t :: ts => do
    if ← condition evaluate t then conjunction evaluate ts else pure (.truth false)

/-- **Or**: evaluate up to the first that is true. -/
def disjunction (evaluate : Evaluator σ) : List Term → Action σ Term
  | [] => pure (.truth false)
  | t :: ts => do
    if ← condition evaluate t then pure (.truth true) else disjunction evaluate ts

/-- **One expression after the other**; the value is that of the last. -/
def sequence (evaluate : Evaluator σ) (last : Term) : List Term → Action σ Term
  | [] => pure last
  | t :: ts => do
    let v ← evaluate t
    sequence evaluate v ts

/-- **If**: a condition, what to evaluate if it is true, and what if it is false. -/
def branch (evaluate : Evaluator σ) (args : List Term) : Action σ Term :=
  match args with
  | [] => Action.fail .noSuchIndex
  | c :: rest => do
    if ← condition evaluate c then
      match rest with
      | t :: _ => evaluate t
      | [] => Action.fail .noSuchIndex
    else
      match rest with
      | [_, e] => evaluate e
      | _ => pure (.truth false)

/-- **While**: evaluate the body as long as the condition is true, at most `fuel` times. -/
def loop (evaluate : Evaluator σ) (c body : Term) : Nat → Action σ Term
  | 0 => fun _ => .exhausted
  | fuel + 1 => fun s =>
    match condition evaluate c s with
    | .value true s =>
      match evaluate body s with
      | .value _ s => loop evaluate c body fuel s
      | .failure e s => .failure e s
      | .exhausted => .exhausted
    | .value false s => .value (.truth true) s
    | .failure e s => .failure e s
    | .exhausted => .exhausted

/-- **Set**: give an atom the value of an expression. -/
def assignment (evaluate : Evaluator σ) (target e : Term) : Action σ Term :=
  match target with
  | .atom name _ => do
    let v ← evaluate e
    Action.modify (updateWorld (World.assign name v))
    pure (.truth true)
  | t => Action.fail (Failure.argument (.notAssignable t.typeName)).reported

/-- **The value of a primitive** for a list of arguments. `fuel` bounds the rounds of a loop. -/
def Primitive.run (r : Registry) (fuel : Nat) (evaluate : Evaluator σ) (p : Primitive)
    (args : List Term) : Action σ Term :=
  match p.compute? with
  | some compute => do
    let v ← Action.ofExcept (compute args)
    settle v
  | none =>
    match p with
    | .and => conjunction evaluate args
    | .or => disjunction evaluate args
    | .writeString => do
      let a ← Action.ofExcept (one args)
      let text ← Action.ofExcept (stringArg "WriteString" a)
      Action.modify (updateWorld (World.write text))
      pure (.truth true)
    | .write => do
      writeAll r args
      pure (.truth true)
    | .newLine => do
      Action.modify (updateWorld (World.write "\n"))
      pure (.truth true)
    | .eval => do
      let a ← Action.ofExcept (one args)
      evaluate a
    | .set => do
      let (target, e) ← Action.ofExcept (two args)
      assignment evaluate target e
    | .prog => sequence evaluate (.truth true) args
    | .ifThen => branch evaluate args
    | .whileDo => do
      let (c, body) ← Action.ofExcept (two args)
      loop evaluate c body fuel
    | _ => Action.fail .cannotUnpack

end TermCalc
