import TermCalc.Term.Basic

/-!
# Stacks

A stack of terms that knows its height, so that what lies above a height is found without going
through the rest.

* `Stack`, `Stack.ofList`, `Stack.push`, `Stack.pop?`.
* `Stack.above`, `Stack.cutTo`: what lies above a height, and the stack without it.
* `Stack.ext`: a stack is determined by its items.
-/

namespace TermCalc

/-- **A stack of terms**, top first. -/
structure Stack where
  items : List Term
  height : Nat
  height_eq : height = items.length

namespace Stack

/-- The stack of some items, top first. -/
def ofList (items : List Term) : Stack := ⟨items, items.length, rfl⟩

/-- The stack without items. -/
def empty : Stack := ofList []

instance : Inhabited Stack := ⟨empty⟩

/-- Put a term on top. -/
def push (t : Term) (s : Stack) : Stack := ⟨t :: s.items, s.height + 1, by simp [s.height_eq]⟩

/-- The term on top, and the stack below it. -/
def pop? (s : Stack) : Option (Term × Stack) :=
  match h : s.items with
  | [] => none
  | t :: rest => some (t, ⟨rest, s.height - 1, by simp [s.height_eq, h]⟩)

/-- The items above a height, lowest first. -/
def above (marker : Nat) (s : Stack) : List Term := (s.items.take (s.height - marker)).reverse

/-- The stack cut back to a height. -/
def cutTo (marker : Nat) (s : Stack) : Stack :=
  ⟨s.items.drop (s.height - marker), min s.height marker, by
    rw [List.length_drop, ← s.height_eq]; omega⟩

@[simp] theorem items_ofList (items : List Term) : (ofList items).items = items := rfl

@[simp] theorem items_push (t : Term) (s : Stack) : (s.push t).items = t :: s.items := rfl

@[simp] theorem height_push (t : Term) (s : Stack) : (s.push t).height = s.height + 1 := rfl

@[simp] theorem items_cutTo (marker : Nat) (s : Stack) :
    (s.cutTo marker).items = s.items.drop (s.height - marker) := rfl

/-- **A stack is determined by its items.** -/
theorem ext {s s' : Stack} (h : s.items = s'.items) : s = s' := by
  obtain ⟨items, height, hh⟩ := s
  obtain ⟨items', height', hh'⟩ := s'
  obtain rfl : items = items' := h
  obtain rfl : height = height' := hh.trans hh'.symm
  rfl

theorem pop?_push (t : Term) (s : Stack) : (s.push t).pop? = some (t, s) := rfl

end Stack

end TermCalc
