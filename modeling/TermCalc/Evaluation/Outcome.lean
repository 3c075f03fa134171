import TermCalc.Failure

/-!
# Outcomes

Evaluation changes a state, may fail and may go on forever. It is given fuel, and an outcome is a
value, a failure, or that the fuel did not suffice. A failure keeps the state in which it arose:
what was written and assigned before it stays.

* `Outcome`, `Action`: an action takes a state to an outcome. Actions form a monad.
* `Action.fail`, `Action.ofExcept`, `Action.modify`, `Action.cleanup`: the basic actions.
-/

namespace TermCalc

/-- **The outcome of an action** on states `σ` with values `α`. -/
inductive Outcome (σ α : Type) where
  | value (a : α) (s : σ)
  | failure (e : Failure) (s : σ)
  | exhausted

/-- **An action**: what it does to a state. -/
def Action (σ α : Type) : Type := σ → Outcome σ α

namespace Outcome

variable {σ α β : Type}

/-- Go on from the value of an outcome. -/
@[inline] def andThen (x : Outcome σ α) (f : α → Action σ β) : Outcome σ β :=
  match x with
  | value a s => f a s
  | failure e s => failure e s
  | exhausted => exhausted

/-- The state changed, whether the outcome is a value or a failure. -/
def mapState (f : σ → σ) : Outcome σ α → Outcome σ α
  | value a s => value a (f s)
  | failure e s => failure e (f s)
  | exhausted => exhausted

end Outcome

namespace Action

variable {σ α β : Type}

instance : Monad (Action σ) where
  pure a := fun s => .value a s
  bind x f := fun s => (x s).andThen f

theorem id_map' (x : Action σ α) : id <$> x = x := funext fun s => by
  show (x s).andThen (fun a => fun s => .value a s) = x s
  cases x s <;> rfl

theorem bind_assoc' {γ : Type} (x : Action σ α) (f : α → Action σ β) (g : β → Action σ γ) :
    x >>= f >>= g = x >>= fun a => f a >>= g := funext fun s => by
  show ((x s).andThen f).andThen g = (x s).andThen fun a s => (f a s).andThen g
  cases x s <;> rfl

instance : LawfulMonad (Action σ) :=
  LawfulMonad.mk' (Action σ) id_map' (fun _ _ => rfl) bind_assoc'

@[simp] theorem pure_apply (a : α) (s : σ) : (pure a : Action σ α) s = .value a s := rfl

@[simp] theorem bind_apply (x : Action σ α) (f : α → Action σ β) (s : σ) :
    (x >>= f) s = (x s).andThen f := rfl

/-- Fail. -/
def fail (e : Failure) : Action σ α := fun s => .failure e s

/-- What is decided without the state. -/
def ofExcept (x : Except Failure α) : Action σ α :=
  match x with
  | .ok a => pure a
  | .error e => fail e

/-- Read the state. -/
def read (f : σ → α) : Action σ α := fun s => .value (f s) s

/-- Change the state. -/
def modify (f : σ → σ) : Action σ Unit := fun s => .value () (f s)

/-- Change the state behind an action, however it ends. -/
def cleanup (x : Action σ α) (f : σ → σ) : Action σ α := fun s => (x s).mapState f

end Action

end TermCalc
