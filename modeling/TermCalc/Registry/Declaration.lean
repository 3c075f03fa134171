import TermCalc.Registry.Basic

/-!
# Declarations

A registry is built from a list of declarations, in order, and is then frozen. The first
declaration that cannot be carried out ends the building.

* `Declaration`: a function, an alias, an operator, or a record that is none of these.
* `Building`: the registry so far, and the name under which each label was first registered.
* `Registry.build`: the whole.
-/

namespace TermCalc

/-- **One line of a table of builtins.** -/
inductive Declaration where
  /-- Register the primitive with a label. -/
  | function (label name : String) (arity : Int) (flags : Flags) (maximum : Option Int)
  /-- Register it once more. Arity and flags are repeated from its first registration. -/
  | synonym (label name : String) (arity : Int) (flags : Flags)
  | operator (fixity : Fixity) (precedence : Int) (name : String)
  /-- A record of no known form. -/
  | malformed (fields : List Term)

/-- A registry under construction. `bases` pairs labels with the first name of each. -/
structure Building where
  registry : Registry
  bases : List (String × String)

namespace Building

/-- Nothing declared yet. -/
def empty : Building := ⟨.empty, []⟩

/-- The name that an alias of a label repeats: its first name, or the label itself. -/
def base (b : Building) (label : String) : String := (b.bases.lookup label).getD label

/-- **Carry out one declaration.** -/
def declare (b : Building) : Declaration → Except Failure Building
  | .function label name arity flags maximum =>
    match Primitive.ofLabel? label with
    | none => .error (.noImplementation label)
    | some p =>
      match b.registry.register name (some (.primitive p)) arity flags maximum with
      | .error failure => .error failure
      | .ok (registry, _) =>
        .ok ⟨registry, if (b.bases.lookup label).isSome then b.bases
          else b.bases ++ [(label, name)]⟩
  | .synonym label name arity flags =>
    match b.registry.registerAlias (b.base label) name with
    | .error failure => .error failure
    | .ok (registry, entry) =>
      if (entry.arity : Int) ≠ arity ∨ entry.flags ≠ flags then
        .error (Failure.aliasMismatch name arity flags (b.base label) entry.arity
          entry.flags).reported
      else .ok { b with registry }
  | .operator fixity precedence name =>
    match b.registry.declareOperator fixity precedence name with
    | .error failure => .error failure
    | .ok (registry, _) => .ok { b with registry }
  | .malformed fields => .error (Failure.malformedDeclaration fields).reported

/-- Carry out declarations in order. -/
def declareAll (b : Building) : List Declaration → Except Failure Building
  | [] => .ok b
  | d :: ds =>
    match b.declare d with
    | .error failure => .error failure
    | .ok b' => b'.declareAll ds

end Building

/-- **The frozen registry of a table of builtins.** -/
def Registry.build (declarations : List Declaration) : Except Failure Registry :=
  match Building.empty.declareAll declarations with
  | .error failure => .error failure
  | .ok b => .ok b.registry.freeze

end TermCalc
