import TermCalc.Proofs.Evaluation.Fuel
import TermCalc.Proofs.Registry.Building
import TermCalc.Registry.Core

/-!
# The stack machine refines the stackless evaluator

A call finds its arguments above a marker on a stack that it shares with all other calls. When the
registry is built from declarations, every call reads exactly the arguments that were pushed for
it, and leaves the stack as it was.

* `Outcome.beside`: an outcome without a stack, as an outcome beside one.
* `Simulation.stackless`: an action on machines does beside any stack what another does without.
* `Registry.pushOperands_pushed`: pushing operands is collecting their values, on top of the stack.
* `Registry.invoke_pushAll`: a builtin is invoked on the values pushed, whatever lies below.
* `Registry.evaluate_stackless`: **evaluation is evaluation without a stack**, at each amount of
  fuel.
* `evaluate_refines_direct`: so the two end together, and alike.
-/

namespace TermCalc

/-- **An outcome beside a stack.** -/
def Outcome.beside {α : Type} (stack : Stack) : Outcome World α → Outcome Machine α
  | .value a w => .value a ⟨stack, w⟩
  | .failure e w => .failure e ⟨stack, w⟩
  | .exhausted => .exhausted

theorem Outcome.beside_eq_exhausted {α : Type} {stack : Stack} {o : Outcome World α} :
    o.beside stack = .exhausted ↔ o = .exhausted := by
  cases o <;> simp [beside]

theorem Outcome.beside_inj {α : Type} {stack : Stack} {o o' : Outcome World α} :
    o.beside stack = o'.beside stack ↔ o = o' := by
  cases o <;> cases o' <;> simp [beside]

namespace Stack

/-- Put terms on top, one after the other. -/
def pushAll (ts : List Term) (s : Stack) : Stack := ts.foldl (fun s t => s.push t) s

@[simp] theorem pushAll_nil (s : Stack) : s.pushAll [] = s := rfl

@[simp] theorem pushAll_cons (t : Term) (ts : List Term) (s : Stack) :
    s.pushAll (t :: ts) = (s.push t).pushAll ts := rfl

@[simp] theorem items_pushAll (ts : List Term) (s : Stack) :
    (s.pushAll ts).items = ts.reverse ++ s.items := by
  induction ts generalizing s with
  | nil => rfl
  | cons t ts ih => simp [ih]

@[simp] theorem height_pushAll (ts : List Term) (s : Stack) :
    (s.pushAll ts).height = s.height + ts.length := by
  rw [height_eq, items_pushAll, List.length_append, List.length_reverse, height_eq]; omega

theorem above_pushAll (ts : List Term) (s : Stack) : (s.pushAll ts).above s.height = ts := by
  simp [above]

theorem cutTo_pushAll (ts : List Term) (s : Stack) : (s.pushAll ts).cutTo s.height = s :=
  ext (by simp)

end Stack

namespace Simulation

/-- **An action does beside any stack what another does without one.** -/
def stackless : Simulation Machine World where
  Related x y := ∀ stack w, x ⟨stack, w⟩ = (y w).beside stack
  related_pure _ _ _ := rfl
  related_fail _ _ _ := rfl
  related_exhausted _ _ := rfl
  related_inWorld x stack w := by
    simp only [Action.inWorld, HasWorld.world, HasWorld.withWorld, id_eq]
    cases (x w).1 <;> rfl
  related_bind {_ _ x y f g} hx hf stack w := by
    simp only [Action.bind_apply]
    rw [hx]
    cases y w with
    | value a w' => exact hf a stack w'
    | failure e w' => rfl
    | exhausted => rfl

end Simulation

namespace Registry

variable (r : Registry) (fuel : Nat) {ev : Evaluator Machine} {ev' : Evaluator World}

theorem length_operandValues {holds : Bool} {ts vs : List Term} {w w' : World}
    (h : operandValues ev' holds ts w = .value vs w') : vs.length = ts.length := by
  induction ts generalizing vs w w' with
  | nil => cases h; rfl
  | cons t ts ih =>
    have hrest {v : Term} {w₁ : World}
        (h : (operandValues ev' holds ts >>= fun vs => pure (v :: vs)) w₁ = .value vs w') :
        vs.length = (t :: ts).length := by
      rw [Action.bind_apply] at h
      cases hs : operandValues ev' holds ts w₁ with
      | value us w₂ => rw [hs] at h; cases h; rw [List.length_cons, ih hs]; rfl
      | failure e w₂ => rw [hs] at h; cases h
      | exhausted => rw [hs] at h; cases h
    cases holds with
    | true => exact hrest h
    | false =>
      change ((ev' t w).andThen _) = _ at h
      cases hv : ev' t w with
      | value v w₁ => rw [hv] at h; exact hrest h
      | failure e w₁ => rw [hv] at h; cases h
      | exhausted => rw [hv] at h; cases h

/-- What pushing operands leaves on a stack, by what collecting their values gives: the values, or
those before the failure. -/
def Pushed (stack : Stack) : Outcome World (List Term) → Outcome Machine Unit → Prop
  | .value vs w, o => o = .value () ⟨stack.pushAll vs, w⟩
  | .failure e w, o => ∃ vs, o = .failure e ⟨stack.pushAll vs, w⟩
  | .exhausted, o => o = .exhausted

theorem Pushed.cons {stack : Stack} {v : Term} {ts : List Term} {holds : Bool} {w : World}
    (h : Pushed (stack.push v) (operandValues ev' holds ts w)
      (pushOperands ev holds ts ⟨stack.push v, w⟩)) :
    Pushed stack ((operandValues ev' holds ts >>= fun vs => pure (v :: vs)) w)
      ((Action.modify (Machine.push v) >>= fun _ => pushOperands ev holds ts) ⟨stack, w⟩) := by
  change Pushed stack ((operandValues ev' holds ts w).andThen _)
    (pushOperands ev holds ts ⟨stack.push v, w⟩)
  cases hs : operandValues ev' holds ts w with
  | value vs w' => rw [hs] at h; exact h
  | failure e w' =>
    rw [hs] at h
    obtain ⟨vs, hvs⟩ := h
    exact ⟨v :: vs, hvs⟩
  | exhausted => rw [hs] at h; exact h

section

variable (hev : ∀ t, Simulation.stackless.Related (ev t) (ev' t))
include hev

/-- **Pushing operands is collecting their values**, on top of what the stack holds. -/
theorem pushOperands_pushed (holds : Bool) (ts : List Term) (stack : Stack) (w : World) :
    Pushed stack (operandValues ev' holds ts w) (pushOperands ev holds ts ⟨stack, w⟩) := by
  induction ts generalizing stack w with
  | nil => rfl
  | cons t ts ih =>
    cases holds with
    | true => exact (ih (stack.push t) w).cons
    | false =>
      change Pushed stack ((ev' t w).andThen _) ((ev t ⟨stack, w⟩).andThen _)
      rw [hev]
      cases ev' t w with
      | value v w₁ => exact (ih (stack.push v) w₁).cons
      | failure e w₁ => exact ⟨[], rfl⟩
      | exhausted => rfl

/-- **A builtin is invoked on the values pushed**, which its result replaces. A failure leaves them
where they are. -/
theorem invoke_pushAll {name : String} {entry : Entry} {p : Primitive} {vs : List Term}
    (he : r.lookup name = some entry) (hp : entry.implementation = .primitive p)
    (ha : entry.accepts vs.length = true) (stack : Stack) (w : World) :
    r.invoke fuel ev name vs.length ⟨stack.pushAll vs, w⟩ =
      match p.run r fuel ev' vs w with
      | .value v w' => .value v ⟨stack.push v, w'⟩
      | .failure e w' => .failure e ⟨stack.pushAll vs, w'⟩
      | .exhausted => .exhausted := by
  have hrun := Simulation.stackless.run hev r (Simulation.stackless.loop hev · · fuel) p vs
    (stack.pushAll vs) w
  have hheld : ¬ ((stack.height + vs.length : Nat) : Int) < vs.length := by omega
  have hmarker : stack.height + vs.length - (vs.length : Int).toNat = stack.height := by omega
  simp only [invoke, he, ha, Bool.not_true, Bool.false_eq_true, if_false, Action.bind_apply,
    Action.read, Outcome.andThen, Machine.height, Stack.height_pushAll, hheld, hmarker, hp, call,
    Machine.arguments, Stack.above_pushAll, hrun]
  cases p.run r fuel ev' vs w with
  | failure e w' => rfl
  | exhausted => rfl
  | value v w' =>
    have hone : ¬ (((stack.pushAll vs).push v).height : Int) ≠ stack.height + vs.length + 1 := by
      rw [Stack.height_push, Stack.height_pushAll]; omega
    simp only [Outcome.beside, Action.modify, Machine.push]
    rw [if_neg hone]
    simp only [Action.bind_apply, Machine.pop, Stack.pop?_push, Outcome.andThen, Action.modify,
      Machine.dropTo, Stack.cutTo_pushAll, Action.pure_apply]

omit hev in
theorem apply_accepted {name : String} {entry : Entry} {ts : List Term}
    (he : r.lookup name = some entry) (ha : entry.accepts ts.length = true) :
    r.apply fuel ev name ts = fun m =>
      ((pushOperands ev entry.flags.holds ts m).andThen fun _ =>
        r.invoke fuel ev name ts.length).mapState (Machine.dropTo m.height) := by
  simp only [apply, he, ha]
  rfl

omit hev in
theorem applyDirect_accepted {name : String} {entry : Entry} {p : Primitive} {ts : List Term}
    (he : r.lookup name = some entry) (hp : entry.implementation = .primitive p)
    (ha : entry.accepts ts.length = true) :
    r.applyDirect fuel ev' name ts = fun w =>
      (operandValues ev' entry.flags.holds ts w).andThen (p.run r fuel ev') := by
  simp only [applyDirect, he, ha, result, hp]
  rfl

/-- **A call beside a stack** leaves the stack as it was, however it ends. -/
theorem apply_stackless (hr : r.CallsPrimitives) (name : String) (ts : List Term) :
    Simulation.stackless.Related (r.apply fuel ev name ts) (r.applyDirect fuel ev' name ts) := by
  cases he : r.lookup name with
  | none =>
    simp only [apply, applyDirect, he]
    exact Simulation.stackless.related_fail _
  | some entry =>
    obtain ⟨p, hp⟩ := hr.lookup he
    cases ha : entry.accepts ts.length with
    | false =>
      simp only [apply, applyDirect, he, ha]
      exact Simulation.stackless.related_fail _
    | true =>
      rw [r.apply_accepted fuel he ha, r.applyDirect_accepted fuel he hp ha]
      intro stack w
      have hpush := pushOperands_pushed hev entry.flags.holds ts stack w
      dsimp only
      cases hvs : operandValues ev' entry.flags.holds ts w with
      | exhausted => rw [hvs] at hpush; rw [hpush]; rfl
      | failure e w' =>
        rw [hvs] at hpush
        obtain ⟨vs, hvs⟩ := hpush
        rw [hvs]
        simp only [Outcome.andThen, Outcome.mapState, Machine.dropTo, Machine.height,
          Stack.cutTo_pushAll, Outcome.beside]
      | value vs w' =>
        rw [hvs] at hpush
        have hlen := length_operandValues hvs
        have haccepts : entry.accepts vs.length = true := by rw [hlen]; exact ha
        have hinvoke := r.invoke_pushAll fuel hev he hp haccepts stack w'
        have hcut (v : Term) : (stack.push v).cutTo stack.height = stack :=
          Stack.cutTo_pushAll [v] stack
        rw [hpush, ← hlen]
        simp only [Outcome.andThen, hinvoke]
        cases p.run r fuel ev' vs w' <;>
          simp only [Outcome.mapState, Machine.dropTo, Machine.height, Stack.cutTo_pushAll, hcut,
            Outcome.beside]

end

/-- **Evaluation is evaluation without a stack.** -/
theorem evaluate_stackless (hr : r.CallsPrimitives) (fuel : Nat) (t : Term) :
    Simulation.stackless.Related (r.evaluate fuel t) (r.evaluateDirect fuel t) := by
  induction fuel generalizing t with
  | zero => exact fun _ _ => rfl
  | succ fuel ih =>
    cases t with
    | form op args pos => exact r.apply_stackless fuel ih hr op args
    | _ => exact fun _ _ => rfl

theorem ends_evaluate_beside (hr : r.CallsPrimitives) {t : Term} {stack : Stack} {w : World}
    {o : Outcome World Term} :
    Ends (fun fuel => r.evaluate fuel t ⟨stack, w⟩) (o.beside stack) ↔
      Ends (fun fuel => r.evaluateDirect fuel t w) o := by
  simp only [Ends, ne_eq, Outcome.beside_eq_exhausted, r.evaluate_stackless hr _ t stack w,
    Outcome.beside_inj]

theorem ends_evaluate_iff (hr : r.CallsPrimitives) {t : Term} {stack : Stack} {w : World}
    {o : Outcome Machine Term} :
    Ends (fun fuel => r.evaluate fuel t ⟨stack, w⟩) o ↔
      ∃ o', Ends (fun fuel => r.evaluateDirect fuel t w) o' ∧ o = o'.beside stack := by
  constructor
  · intro h
    obtain ⟨n, hn⟩ := h.2
    have ho := (hn n (Nat.le_refl n)).symm.trans (r.evaluate_stackless hr n t stack w)
    rw [ho] at h
    exact ⟨_, (r.ends_evaluate_beside hr).1 h, ho⟩
  · rintro ⟨o', ho', rfl⟩
    exact (r.ends_evaluate_beside hr).2 ho'

/-- An evaluation that ends with some fuel ends in the same way with more of it. -/
theorem ends_evaluate (hr : r.CallsPrimitives) {fuel : Nat} {t : Term} {m : Machine}
    (h : r.evaluate fuel t m ≠ .exhausted) :
    Ends (fun fuel => r.evaluate fuel t m) (r.evaluate fuel t m) := by
  obtain ⟨stack, w⟩ := m
  rw [r.evaluate_stackless hr fuel t stack w] at h ⊢
  exact (r.ends_evaluate_beside hr).2 (r.ends_evaluateDirect (mt Outcome.beside_eq_exhausted.2 h))

/-- Two evaluations that are related with each amount of fuel end together, if only not ending
is related to not ending. -/
theorem exists_ends_of_related (hr : r.CallsPrimitives) {t u : Term} {m m' : Machine}
    {P : Outcome Machine Term → Outcome Machine Term → Prop}
    (hP : ∀ o, P o .exhausted → o = .exhausted)
    (h : ∀ fuel, P (r.evaluate fuel t m) (r.evaluate fuel u m')) {o : Outcome Machine Term}
    (ho : Ends (fun fuel => r.evaluate fuel t m) o) :
    ∃ o', Ends (fun fuel => r.evaluate fuel u m') o' ∧ P o o' := by
  obtain ⟨hne, n, hn⟩ := ho
  have hrun : r.evaluate n t m = o := hn n (Nat.le_refl n)
  have hrelated := h n
  rw [hrun] at hrelated
  have hends : r.evaluate n u m' ≠ .exhausted := by
    intro hexhausted
    rw [hexhausted] at hrelated
    exact hne (hP o hrelated)
  exact ⟨_, r.ends_evaluate hr hends, hrelated⟩

end Registry

/-- **The stack machine refines the stackless evaluator.** With each amount of fuel, evaluation
beside any stack gives the value or the failure and the world that evaluation without a stack
gives, and the stack is the one it was; an evaluation that ends does so for all fuel from some
amount on, and the two end together. -/
theorem evaluate_refines_direct {ds : List Declaration} {r : Registry}
    (h : Registry.build ds = .ok r) (t : Term) (stack : Stack) (w : World) :
    (∀ fuel, r.evaluate fuel t ⟨stack, w⟩ = (r.evaluateDirect fuel t w).beside stack) ∧
      (∀ fuel, r.evaluate fuel t ⟨stack, w⟩ ≠ .exhausted →
        Ends (fun n => r.evaluate n t ⟨stack, w⟩) (r.evaluate fuel t ⟨stack, w⟩)) ∧
      ∀ o, Ends (fun n => r.evaluate n t ⟨stack, w⟩) o ↔
        ∃ o', Ends (fun n => r.evaluateDirect n t w) o' ∧ o = o'.beside stack := by
  have hr := Registry.build_callsPrimitives h
  exact ⟨fun fuel => r.evaluate_stackless hr fuel t stack w,
    fun fuel hf => r.ends_evaluate hr hf, fun o => r.ends_evaluate_iff hr⟩

/-- A negation inside a conjunction, over a stack that already holds two values. -/
theorem evaluate_refines_direct_nested :
    Registry.build coreDeclarations = .ok coreRegistry ∧
      ∀ fuel, coreRegistry.evaluate fuel
          (.form "And" [.atom "x" .none, .form "Not" [.atom "False" .none] .none] .none)
          ⟨.ofList [.truth false, .str "left over"], ⟨⟨[("x", .truth true)]⟩, ⟨"out", 3⟩, 0⟩⟩ =
        (coreRegistry.evaluateDirect fuel
          (.form "And" [.atom "x" .none, .form "Not" [.atom "False" .none] .none] .none)
          ⟨⟨[("x", .truth true)]⟩, ⟨"out", 3⟩, 0⟩).beside
            (.ofList [.truth false, .str "left over"]) :=
  ⟨build_coreDeclarations, (evaluate_refines_direct build_coreDeclarations _ _ _).1⟩

end TermCalc
