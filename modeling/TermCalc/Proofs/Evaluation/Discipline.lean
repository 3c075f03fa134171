import TermCalc.Proofs.Evaluation.Failures
import TermCalc.Proofs.Evaluation.Stackless
import TermCalc.Registry.Core

/-!
# The discipline of the stack

A call takes its arguments off the stack and puts one value in their place; an evaluation leaves the
stack as it was. Neither depends on what else lies on the stack, nor on whether the call succeeds.

* `Failure.ofStack`: the failures that only a builtin can cause which miscounts its values.
* `Outcome.Keeps`, `Outcome.Replaces`: what an outcome says of the stack before it.
* `Registry.invoke_replaces`, `Registry.evaluate_keeps`: a call and an evaluation, where every name
  calls a primitive.
* `Registry.stack_discipline`: **the discipline, in a registry that is built.**
-/

namespace TermCalc

/-- **The failures of a stack out of order**: it was empty when a result was to be taken, or held
more or less than one result. -/
def Failure.ofStack : Failure → Bool
  | emptyStack | notOneResult _ => true
  | _ => false

theorem Failure.ofStack_reported {e : Failure} (h : e.ofStack = false) :
    e.reported.ofStack = false := holds_reported (·.ofStack = false) h rfl

theorem Failure.ofStack_of_ofEvaluation {e : Failure} (h : e.ofEvaluation = true) :
    e.ofStack = false := by
  cases e <;> first | rfl | cases h

namespace Outcome

/-- **The stack is the one it was**, however the outcome came about. -/
def Keeps (stack : Stack) : Outcome Machine Term → Prop
  | value _ m => m.stack = stack
  | failure e m => m.stack = stack ∧ e.ofStack = false
  | exhausted => True

/-- **A value has taken the place of the topmost `count` items**, and nothing below them has
changed; a failure has changed nothing. -/
def Replaces (stack : Stack) (count : Int) : Outcome Machine Term → Prop
  | value v m =>
    0 ≤ count ∧ count ≤ stack.height ∧ m.stack.items = v :: stack.items.drop count.toNat
  | failure e m => m.stack = stack ∧ e.ofStack = false
  | exhausted => True

theorem keeps_beside {stack : Stack} {o : Outcome World Term}
    (h : ∀ e w, o = failure e w → e.ofEvaluation = true) : (o.beside stack).Keeps stack := by
  cases o with
  | value v w => exact rfl
  | failure e w => exact ⟨rfl, Failure.ofStack_of_ofEvaluation (h e w rfl)⟩
  | exhausted => trivial

end Outcome

namespace Stack

theorem length_above (s : Stack) (marker : Nat) : (s.above marker).length = s.height - marker := by
  rw [above, List.length_reverse, List.length_take, ← s.height_eq]; omega

/-- What lies above a height, put back on what lies below. -/
theorem pushAll_above (s : Stack) (marker : Nat) : (s.cutTo marker).pushAll (s.above marker) = s :=
  ext (by rw [items_pushAll, items_cutTo, above, List.reverse_reverse, List.take_append_drop])

end Stack

theorem Entry.nonneg_of_accepts {e : Entry} {count : Int} (h : e.accepts count = true) :
    0 ≤ count := by
  unfold Entry.accepts at h
  split at h
  · split at h
    · have := of_decide_eq_true (Bool.and_eq_true_iff.1 h).2
      omega
    · have := of_decide_eq_true h
      omega
  · have := eq_of_beq h
    omega

namespace Registry

variable {r : Registry} (hr : r.CallsPrimitives)
include hr

/-- **An evaluation keeps the stack.** -/
theorem evaluate_keeps (fuel : Nat) (t : Term) (m : Machine) :
    (r.evaluate fuel t m).Keeps m.stack := by
  obtain ⟨stack, w⟩ := m
  rw [r.evaluate_stackless hr fuel t stack w]
  exact Outcome.keeps_beside fun e w' h => confined_evaluateDirect hr fuel t w e w' h

/-- **A call replaces its arguments by its result.** -/
theorem invoke_replaces (rounds fuel : Nat) (name : String) (count : Int) (m : Machine) :
    (r.invoke rounds (r.evaluate fuel) name count m).Replaces m.stack count := by
  obtain ⟨stack, w⟩ := m
  cases he : r.lookup name with
  | none => simp only [invoke, he]; exact ⟨rfl, rfl⟩
  | some entry =>
    obtain ⟨p, hp⟩ := hr.lookup he
    cases ha : entry.accepts count with
    | false =>
      simp only [invoke, he, ha]
      exact ⟨rfl, Failure.ofStack_reported rfl⟩
    | true =>
      have hcount := Entry.nonneg_of_accepts ha
      by_cases hheld : (stack.height : Int) < count
      · simp only [invoke, he, ha, Bool.not_true, Bool.false_eq_true, if_false, Action.bind_apply,
          Action.read, Outcome.andThen, Machine.height, if_pos hheld]
        exact ⟨rfl, Failure.ofStack_reported rfl⟩
      · -- the arguments are what lies above the marker, on what lies below
        obtain ⟨n, rfl⟩ := Int.eq_ofNat_of_zero_le hcount
        have hn : n ≤ stack.height := by omega
        have hlen : (stack.above (stack.height - n)).length = n := by
          rw [Stack.length_above]; omega
        have hrun := r.invoke_pushAll rounds (r.evaluate_stackless hr fuel) he hp
          (by rw [hlen]; exact ha) (stack.cutTo (stack.height - n)) w
        rw [hlen, Stack.pushAll_above] at hrun
        rw [hrun]
        cases ho : p.run r rounds (r.evaluateDirect fuel) (stack.above (stack.height - n)) w with
        | value v w' =>
          refine ⟨hcount, Int.ofNat_le.2 hn, ?_⟩
          show v :: stack.items.drop (stack.height - (stack.height - n)) = v :: stack.items.drop n
          rw [show stack.height - (stack.height - n) = n by omega]
        | failure e w' =>
          exact ⟨rfl, Failure.ofStack_of_ofEvaluation
            (Primitive.confined_run hr (confined_evaluateDirect hr fuel) rounds p _ w e w' ho)⟩
        | exhausted => trivial

end Registry

/-- **The discipline of the stack.** In a registry that is built, a call by name on any number of
the topmost items replaces exactly them by its result, and leaves the stack as it was when it fails;
an evaluation leaves the stack as it was, whether it succeeds or fails. Neither ever finds the stack
empty or a number of results other than one. -/
theorem Registry.stack_discipline {ds : List Declaration} {r : Registry}
    (h : Registry.build ds = .ok r) (rounds fuel : Nat) (m : Machine) :
    (∀ name count, (r.invoke rounds (r.evaluate fuel) name count m).Replaces m.stack count) ∧
      ∀ t, (r.evaluate fuel t m).Keeps m.stack := by
  have hr := Registry.build_callsPrimitives h
  exact ⟨fun name count => invoke_replaces hr rounds fuel name count m,
    fun t => evaluate_keeps hr fuel t m⟩

/-- A sum of the two topmost of three items, and a sum whose second operand fails when the first is
already on the stack. -/
theorem Registry.stack_discipline_sum :
    Registry.build coreDeclarations = .ok coreRegistry ∧
      (coreRegistry.invoke 5 (coreRegistry.evaluate 5) "+" 2
          ⟨.ofList [.num (.int 2), .num (.int 3), .str "below"], .empty⟩).Replaces
        (.ofList [.num (.int 2), .num (.int 3), .str "below"]) 2 ∧
      (coreRegistry.evaluate 5
          (.form "+" [.numeral (.int 1) .none, .form "/" [.numeral (.int 1) .none,
            .numeral (.int 0) .none] .none] .none) ⟨.ofList [.str "below"], .empty⟩).Keeps
        (.ofList [.str "below"]) :=
  ⟨build_coreDeclarations,
    (stack_discipline build_coreDeclarations 5 5
      ⟨.ofList [.num (.int 2), .num (.int 3), .str "below"], .empty⟩).1 "+" 2,
    (stack_discipline build_coreDeclarations 5 5 ⟨.ofList [.str "below"], .empty⟩).2 _⟩

end TermCalc
