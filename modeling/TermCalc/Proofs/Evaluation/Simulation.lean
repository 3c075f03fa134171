import TermCalc.Evaluation.Control

/-!
# Simulations between evaluators

The primitives evaluate their arguments through a function that they are handed, and see no more of
a state than its world. So a relation between evaluators on two kinds of states carries over to
every primitive, as long as sequencing keeps it.

* `Action.inWorld`: an action on the world of a state.
* `Simulation`: a relation between actions on two kinds of states that holds of the basic actions
  and is kept by sequencing.
* `Simulation.run`: **every primitive keeps every simulation**. A loop is left to the caller, as
  the fuel of its two sides may differ; `Simulation.loop` is the case of equal fuel.
-/

namespace TermCalc

namespace Action

variable {σ α : Type} [HasWorld σ]

/-- An action on the world of a state: its result, and the world behind it. -/
def inWorld (x : World → Except Failure α × World) : Action σ α := fun s =>
  let w := x (HasWorld.world s)
  match w.1 with
  | .ok a => .value a (HasWorld.withWorld s w.2)
  | .error e => .failure e (HasWorld.withWorld s w.2)

/-- Out of fuel. -/
def exhausted : Action σ α := fun _ => .exhausted

end Action

section

variable {σ : Type} [HasWorld σ]

theorem settle_num (n : Num) :
    (settle (.num n) : Action σ Term) =
      if n.isFresh then Action.inWorld fun w => (.ok (w.adopt (.num n)).1, (w.adopt (.num n)).2)
      else pure (.num n) := by
  funext s
  unfold settle
  dsimp only
  split
  · dsimp only [Action.inWorld]
  · rfl

theorem settle_of_not_num {t : Term} (h : ∀ n, t ≠ .num n) :
    (settle t : Action σ Term) = pure t := by
  cases t with
  | num n => exact absurd rfl (h n)
  | _ => rfl

theorem printOut_eq (r : Registry) (e : Term) :
    (printOut r e : Action σ Unit) = Action.inWorld fun w =>
      let printed := r.print e w.output
      (match printed.failure with | none => .ok () | some failure => .error failure,
        { w with output := printed.output }) := by
  funext s
  simp only [printOut, Action.inWorld, updateWorld]
  cases (r.print e (HasWorld.world s).output).failure <;> rfl

omit [HasWorld σ] in
/-- **A round of a loop**, in sequence. -/
theorem loop_succ (evaluate : Evaluator σ) (c body : Term) (fuel : Nat) :
    loop evaluate c body (fuel + 1) = (do
      if ← condition evaluate c then
        let _ ← evaluate body
        loop evaluate c body fuel
      else pure (.truth true)) := by
  funext s
  simp only [loop, Action.bind_apply]
  cases condition evaluate c s with
  | value b s =>
    cases b with
    | true =>
      simp only [Outcome.andThen, if_true, Action.bind_apply]
      cases evaluate body s <;> rfl
    | false => rfl
  | failure e s => rfl
  | exhausted => rfl

end

/-- **A relation between actions on two kinds of states** that holds of the basic actions and is
kept by sequencing. -/
structure Simulation (σ τ : Type) [HasWorld σ] [HasWorld τ] where
  Related {α : Type} : Action σ α → Action τ α → Prop
  related_pure {α : Type} (a : α) : Related (pure a) (pure a)
  related_fail {α : Type} (e : Failure) : Related (Action.fail e : Action σ α) (Action.fail e)
  related_exhausted {α : Type} : Related (Action.exhausted : Action σ α) Action.exhausted
  related_inWorld {α : Type} (x : World → Except Failure α × World) :
    Related (Action.inWorld x) (Action.inWorld x)
  related_bind {α β : Type} {x : Action σ α} {y : Action τ α} {f : α → Action σ β}
    {g : α → Action τ β} :
    Related x y → (∀ a, Related (f a) (g a)) → Related (x >>= f) (y >>= g)

namespace Simulation

variable {σ τ : Type} [HasWorld σ] [HasWorld τ] (S : Simulation σ τ)

variable {ev : Evaluator σ} {ev' : Evaluator τ}

theorem ofExcept {α : Type} (x : Except Failure α) :
    S.Related (Action.ofExcept x) (Action.ofExcept x) := by
  cases x with
  | ok a => exact S.related_pure a
  | error e => exact S.related_fail e

theorem modify (f : World → World) :
    S.Related (Action.modify (updateWorld f)) (Action.modify (updateWorld f)) :=
  S.related_inWorld fun w => (.ok (), f w)

theorem settle (t : Term) : S.Related (TermCalc.settle t) (TermCalc.settle t) := by
  cases t with
  | num n =>
    rw [settle_num, settle_num]
    split
    · exact S.related_inWorld _
    · exact S.related_pure _
  | _ => exact S.related_pure _

theorem writeAll (r : Registry) (ts : List Term) :
    S.Related (TermCalc.writeAll r ts) (TermCalc.writeAll r ts) := by
  induction ts with
  | nil => exact S.related_pure ()
  | cons t ts ih =>
    simp only [TermCalc.writeAll]
    cases t.toExpr? with
    | none => exact S.related_fail _
    | some e =>
      refine S.related_bind ?_ fun _ => ih
      rw [printOut_eq, printOut_eq]
      exact S.related_inWorld _

section

variable (hev : ∀ t, S.Related (ev t) (ev' t))
include hev

theorem condition (t : Term) : S.Related (TermCalc.condition ev t) (TermCalc.condition ev' t) :=
  S.related_bind (hev t) fun _ => S.ofExcept _

theorem conjunction (ts : List Term) :
    S.Related (TermCalc.conjunction ev ts) (TermCalc.conjunction ev' ts) := by
  induction ts with
  | nil => exact S.related_pure _
  | cons t ts ih =>
    refine S.related_bind (S.condition hev t) fun b => ?_
    cases b with
    | true => exact ih
    | false => exact S.related_pure _

theorem disjunction (ts : List Term) :
    S.Related (TermCalc.disjunction ev ts) (TermCalc.disjunction ev' ts) := by
  induction ts with
  | nil => exact S.related_pure _
  | cons t ts ih =>
    refine S.related_bind (S.condition hev t) fun b => ?_
    cases b with
    | true => exact S.related_pure _
    | false => exact ih

theorem sequence (ts : List Term) (last : Term) :
    S.Related (TermCalc.sequence ev last ts) (TermCalc.sequence ev' last ts) := by
  induction ts generalizing last with
  | nil => exact S.related_pure _
  | cons t ts ih => exact S.related_bind (hev t) fun v => ih v

theorem branch (args : List Term) :
    S.Related (TermCalc.branch ev args) (TermCalc.branch ev' args) := by
  cases args with
  | nil => exact S.related_fail _
  | cons c rest =>
    refine S.related_bind (S.condition hev c) fun b => ?_
    match b, rest with
    | true, [] => exact S.related_fail _
    | true, t :: _ => exact hev t
    | false, [_, e] => exact hev e
    | false, [] | false, [_] | false, _ :: _ :: _ :: _ => exact S.related_pure _

theorem assignment (target e : Term) :
    S.Related (TermCalc.assignment ev target e) (TermCalc.assignment ev' target e) := by
  cases target with
  | atom name pos =>
    exact S.related_bind (hev e) fun v => S.related_bind (S.modify _) fun _ => S.related_pure _
  | _ => exact S.related_fail _

theorem loop (c body : Term) (fuel : Nat) :
    S.Related (TermCalc.loop ev c body fuel) (TermCalc.loop ev' c body fuel) := by
  induction fuel with
  | zero => exact S.related_exhausted
  | succ fuel ih =>
    rw [loop_succ, loop_succ]
    refine S.related_bind (S.condition hev c) fun b => ?_
    cases b with
    | true => exact S.related_bind (hev body) fun _ => ih
    | false => exact S.related_pure _

/-- **Every primitive keeps every simulation.** -/
theorem run (r : Registry) {fuel fuel' : Nat}
    (hloop : ∀ c body, S.Related (TermCalc.loop ev c body fuel) (TermCalc.loop ev' c body fuel'))
    (p : Primitive) (args : List Term) :
    S.Related (p.run r fuel ev args) (p.run r fuel' ev' args) := by
  unfold Primitive.run
  split
  · exact S.related_bind (S.ofExcept _) fun v => S.settle v
  · split
    · exact S.conjunction hev args
    · exact S.disjunction hev args
    · refine S.related_bind (S.ofExcept _) fun a => S.related_bind (S.ofExcept _) fun text => ?_
      exact S.related_bind (S.modify _) fun _ => S.related_pure _
    · exact S.related_bind (S.writeAll r args) fun _ => S.related_pure _
    · exact S.related_bind (S.modify _) fun _ => S.related_pure _
    · exact S.related_bind (S.ofExcept _) fun a => hev a
    · exact S.related_bind (S.ofExcept _) fun a => S.assignment hev a.1 a.2
    · exact S.sequence hev args _
    · exact S.branch hev args
    · exact S.related_bind (S.ofExcept _) fun a => hloop a.1 a.2
    · exact S.related_fail _

end

end Simulation

end TermCalc
