/-!
# Flags of a builtin

* `Flags`: whether a builtin takes more arguments than its arity, and whether it takes them
  unevaluated.
* `Flags.code`: the flags as a number, the form in which declarations and messages carry them.
-/

namespace TermCalc

/-- **How a builtin takes its arguments.** -/
structure Flags where
  /-- The arity is a lower bound. -/
  variadic : Bool
  /-- The arguments are handed over unevaluated. -/
  holds : Bool
  deriving DecidableEq, Repr

namespace Flags

/-- Exactly as many arguments as the arity says, evaluated. -/
def fixed : Flags := ⟨false, false⟩

/-- At least as many arguments as the arity says, evaluated. -/
def atLeast : Flags := ⟨true, false⟩

/-- Exactly as many arguments as the arity says, unevaluated. -/
def held : Flags := ⟨false, true⟩

/-- At least as many arguments as the arity says, unevaluated. -/
def heldAtLeast : Flags := ⟨true, true⟩

/-- The flags as a number from 0 to 3. -/
def code (f : Flags) : Nat := (if f.variadic then 1 else 0) + (if f.holds then 2 else 0)

/-- The flags that a number stands for. -/
def ofCode (n : Nat) : Flags := ⟨n % 2 == 1, n / 2 % 2 == 1⟩

theorem ofCode_code (f : Flags) : ofCode f.code = f := by
  rcases f with ⟨_ | _, _ | _⟩ <;> rfl

/-- The flags as listings show them. -/
def shown (f : Flags) : String :=
  match f.variadic, f.holds with
  | false, false => "<BuiltinFlags.FIXED: 0>"
  | true, false => "<BuiltinFlags.VARIABLE: 1>"
  | false, true => "<BuiltinFlags.MACRO: 2>"
  | true, true => "<BuiltinFlags.VARIABLE|MACRO: 3>"

end Flags

end TermCalc
