import TermCalc.Failure
import TermCalc.Registry.Primitive

/-!
# The registry

The names that can be called, with what they call, and the operators that are written for such
calls. Names and operators are added until the registry is frozen.

* `Implementation`: a primitive, or a routine of the host over the argument stack.
* `Entry`, `Entry.accepts`: a name and the numbers of arguments that it takes.
* `Registry.register`, `Registry.registerAlias`, `Registry.declareOperator`, `Registry.freeze`: the
  four changes. A change that is refused leaves no trace.
* `Registry.lookup`, `Registry.operator?`: what the evaluator, the parser and the printer ask for.
* `Registry.names`, `Registry.operatorsOf`, `Registry.operatorNames`, `Registry.listing`: listings.
-/

namespace TermCalc

/-- **What a name calls.** A routine is handed the height of the stack below the arguments and the
stack, top first, and returns the stack that it leaves. -/
inductive Implementation where
  | primitive (p : Primitive)
  | routine (label : String) (act : Nat → List Term → List Term)

namespace Implementation

/-- Whether two implementations are the same one. Routines are told apart by their labels. -/
def same : Implementation → Implementation → Bool
  | primitive p, primitive q => p == q
  | routine a _, routine b _ => a == b
  | _, _ => false

end Implementation

/-- **A name that can be called.** `maximum` bounds the arguments of a variadic builtin. -/
structure Entry where
  name : String
  implementation : Implementation
  arity : Nat
  flags : Flags
  maximum : Option Nat

namespace Entry

/-- Whether a builtin takes a number of arguments. -/
def accepts (e : Entry) (count : Int) : Bool :=
  if e.flags.variadic then
    match e.maximum with
    | some maximum => !(maximum < count) && e.arity ≤ count
    | none => e.arity ≤ count
  else count == e.arity

/-- What is wrong with a call with a wrong number of arguments. -/
def mismatch (e : Entry) (actual : Int) : ArityMismatch :=
  ⟨e.name, e.arity, actual, e.flags.variadic, e.maximum.map (↑·)⟩

/-- The failure of such a call, as it is reported. -/
def arityFailure (e : Entry) (actual : Int) : Failure :=
  (Failure.wrongArity (e.mismatch actual)).reported

/-- An entry as messages show it. -/
def shown (e : Entry) : String :=
  "BuiltinEntry(" ++ e.name ++ ", " ++ showInt e.arity ++ ", " ++ e.flags.shown ++ ")"

/-- The numbers of arguments of a builtin in listings. -/
def arityText (e : Entry) : String :=
  match e.maximum with
  | some maximum => showInt e.arity ++ "-" ++ showInt maximum
  | none => if e.flags.variadic then showInt e.arity ++ "+" else showInt e.arity

/-- The width of the column of names in listings. -/
def nameWidth : Nat := 16

/-- The line of a builtin in listings. -/
def line (e : Entry) : String :=
  e.name ++ String.ofList (List.replicate (nameWidth - e.name.length) ' ') ++ " " ++ e.arityText ++
    (if e.flags.holds then " macro" else "")

end Entry

namespace Operator

/-- An operator as messages show it. -/
def shown (op : Operator) : String :=
  "OperatorEntry(" ++ op.fixity.name ++ ", " ++ showInt op.precedence ++ ", " ++ op.name ++ ")"

/-- The order of listings: tightest first, then as declared. -/
def before (a b : Operator) : Bool :=
  a.precedence < b.precedence || (a.precedence == b.precedence && a.order ≤ b.order)

end Operator

/-- **Builtins and operators**, each in the order in which they were declared. -/
structure Registry where
  entries : List Entry
  operators : List Operator
  frozen : Bool

namespace Registry

/-- The registry without names, open to declarations. -/
def empty : Registry := ⟨[], [], false⟩

instance : Inhabited Registry := ⟨empty⟩

variable (r : Registry)

/-- The entry of a name. -/
def lookup (name : String) : Option Entry := r.entries.find? (·.name == name)

/-- Whether a name can be called. -/
def contains (name : String) : Bool := (r.lookup name).isSome

/-- The operator that a spelling is in a position. -/
def operator? (fixity : Fixity) (name : String) : Option Operator :=
  r.operators.find? fun op => op.fixity == fixity && op.name == name

/-- The number of names. -/
def size : Nat := r.entries.length

/-- **Add a name.** Refused are a frozen registry, a name that is taken, an implementation that is
none, a negative arity, and a maximum below the arity or without the variadic flag, in this
order. -/
def register (name : String) (implementation : Option Implementation) (arity : Int) (flags : Flags)
    (maximum : Option Int) : Except Failure (Registry × Entry) :=
  if r.frozen then .error .frozen
  else if r.contains name then .error (.duplicateBuiltin name)
  else
    match implementation with
    | none => .error (.notCallable name)
    | some implementation =>
      if arity < 0 then .error (Failure.negativeArity name arity).reported
      else if maximum.any fun m => m < arity || !flags.variadic then
        .error (Failure.badMaximum name arity).reported
      else
        let entry : Entry := ⟨name, implementation, arity.toNat, flags, maximum.map Int.toNat⟩
        .ok ({ r with entries := r.entries ++ [entry] }, entry)

/-- **Let a new name call what another calls**, under the same terms. -/
def registerAlias (existing new : String) : Except Failure (Registry × Entry) :=
  if r.frozen then .error .frozen
  else
    match r.lookup existing with
    | none => .error (.unknownName existing)
    | some e =>
      r.register new (some e.implementation) e.arity e.flags (e.maximum.map (↑·))

/-- **Declare an operator.** The name it stands for need not be there yet. -/
def declareOperator (fixity : Fixity) (precedence : Int) (name : String) :
    Except Failure (Registry × Operator) :=
  if r.frozen then .error .frozen
  else if (r.operator? fixity name).isSome then .error (.duplicateOperator fixity name)
  else
    let op : Operator := ⟨fixity, precedence, name, r.operators.length⟩
    .ok ({ r with operators := r.operators ++ [op] }, op)

/-- Close the registry to declarations. -/
def freeze : Registry := { r with frozen := true }

/-- The names in order of registration. -/
def names : List String := r.entries.map (·.name)

/-- The operators of a fixity, tightest first, equally tight ones in order of declaration. -/
def operatorsOf (fixity : Fixity) : List Operator :=
  (r.operators.filter (·.fixity == fixity)).mergeSort Operator.before

/-- Every spelling of an operator once: prefix, infix, postfix and bodied operators, each in order
of declaration. -/
def operatorNames : List String :=
  (Fixity.all.flatMap fun fixity =>
    (r.operators.filter (·.fixity == fixity)).map (·.name)).eraseDups

/-- A line for each name, in order of registration. -/
def listing : String := String.intercalate "\n" (r.entries.map Entry.line)

/-- A registry as messages show it. -/
def shown : String := "BuiltinRegistry(" ++ showInt r.size ++ " builtins)"

end Registry

end TermCalc
