import TermCalc.Evaluation.Outcome
import TermCalc.Output

/-!
# What evaluation acts on

* `Globals`: the values of the atoms that have one.
* `World`: the globals, the text written so far, and how many NaNs have been marked.
* `World.adopt`: a term in which every NaN has got a mark.
* `HasWorld`: a state with a world in it. Primitives see no more of a state than this.
-/

namespace TermCalc

/-- **The values of atoms**, each atom at most once. -/
structure Globals where
  entries : List (String × Term)

namespace Globals

/-- No atom has a value. -/
def empty : Globals := ⟨[]⟩

instance : Inhabited Globals := ⟨empty⟩

/-- The value of an atom. -/
def get? (g : Globals) (name : String) : Option Term := g.entries.lookup name

/-- Give an atom a value. -/
def set (g : Globals) (name : String) (value : Term) : Globals :=
  ⟨(name, value) :: g.entries.filter (·.1 != name)⟩

theorem get?_set (g : Globals) (name other : String) (value : Term) :
    (g.set name value).get? other = if other = name then some value else g.get? other := by
  by_cases h : other = name
  · simp [get?, set, h]
  · have hb : (other == name) = false := by simpa using h
    simp only [get?, set, List.lookup_cons, hb, if_neg h]
    induction g.entries with
    | nil => rfl
    | cons e es ih =>
      obtain ⟨key, v⟩ := e
      by_cases he : key = name
      · subst he; simpa [List.lookup_cons, hb] using ih
      · simp [he, List.lookup_cons, ih]

end Globals

/-- **What evaluation leaves behind**: assignments, output, and the marks on NaNs, all of which are
below `marks`. -/
structure World where
  globals : Globals
  output : Buffer
  marks : Nat
  deriving Inhabited

/-- The world of a state. -/
class HasWorld (σ : Type) where
  world : σ → World
  withWorld : σ → World → σ

instance : HasWorld World := ⟨id, fun _ w => w⟩

namespace World

/-- Nothing assigned and nothing written. -/
def empty : World := ⟨.empty, .empty, 0⟩

/-- **What an atom evaluates to**: a truth value, the value given to it, or itself. -/
def atomValue (w : World) (name : String) (atom : Term) : Term :=
  if name == Term.truthName true then .truth true
  else if name == Term.truthName false then .truth false
  else (w.globals.get? name).getD atom

/-- **Mark the NaNs of a term** that have no mark. -/
def adopt (t : Term) (w : World) : Term × World :=
  let (t, marks) := t.mark w.marks
  (t, { w with marks })

/-- Give an atom a value. -/
def assign (name : String) (value : Term) (w : World) : World :=
  { w with globals := w.globals.set name value }

/-- Write a text. -/
def write (text : String) (w : World) : World := { w with output := Output.write w.output text }

section

variable {w : World} {Q : Term → Prop}
  (h : ∀ other u, w.globals.get? other = some u → Q u)
include h

/-- What is true of all values of atoms stays so, if it is true of a value that one is given. -/
theorem forall_assign {name : String} {value : Term} (hvalue : Q value) :
    ∀ other u, (w.assign name value).globals.get? other = some u → Q u := by
  intro other u hu
  simp only [assign, Globals.get?_set] at hu
  split at hu
  · cases hu
    exact hvalue
  · exact h other u hu

/-- What is true of all values of atoms, of truth values and of an atom is true of what the atom
evaluates to. -/
theorem holds_atomValue (htruth : ∀ b, Q (.truth b)) (name : String) {atom : Term}
    (hatom : Q atom) : Q (w.atomValue name atom) := by
  unfold atomValue
  split
  · exact htruth true
  · split
    · exact htruth false
    · cases hv : w.globals.get? name with
      | none => exact hatom
      | some v => exact h name v hv

end

end World

/-- Change the world of a state. -/
def updateWorld {σ : Type} [HasWorld σ] (f : World → World) (s : σ) : σ :=
  HasWorld.withWorld s (f (HasWorld.world s))

end TermCalc
