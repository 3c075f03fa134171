import TermCalc.Evaluation.Direct
import TermCalc.Proofs.Evaluation.Simulation

/-!
# Fuel

An evaluation that ends with some fuel ends in the same way with more of it.

* `Simulation.extension`: one action ends as another does wherever that one ends.
* `Simulation.evaluateDirectOnce`: a step of the stackless evaluator keeps every simulation.
* `Registry.evaluateDirect_mono`: **more fuel changes no outcome**.
* `Ends`, `ends_evaluateDirect`: what an evaluation ends in, whatever the fuel, once it is enough.
-/

namespace TermCalc

/-- **What a run ends in** with all fuel from some amount on. -/
def Ends {σ α : Type} (run : Nat → Outcome σ α) (o : Outcome σ α) : Prop :=
  o ≠ .exhausted ∧ ∃ n, ∀ fuel, n ≤ fuel → run fuel = o

theorem Ends.unique {σ α : Type} {run : Nat → Outcome σ α} {o o' : Outcome σ α} (h : Ends run o)
    (h' : Ends run o') : o = o' := by
  obtain ⟨-, n, hn⟩ := h
  obtain ⟨-, m, hm⟩ := h'
  rw [← hn (max n m) (by omega), hm (max n m) (by omega)]

namespace Simulation

/-- The second action ends as the first does wherever the first ends. -/
def extension (σ : Type) [HasWorld σ] : Simulation σ σ where
  Related x y := ∀ s, x s ≠ .exhausted → y s = x s
  related_pure _ _ _ := rfl
  related_fail _ _ _ := rfl
  related_exhausted _ _ := rfl
  related_inWorld _ _ _ := rfl
  related_bind {_ _ x y f g} hx hf s h := by
    simp only [Action.bind_apply] at h ⊢
    cases hs : x s with
    | value a s' =>
      rw [hx s (by simp [hs]), hs]
      rw [hs] at h
      exact hf a s' h
    | failure e s' => rw [hx s (by simp [hs]), hs]; rfl
    | exhausted => rw [hs] at h; exact absurd rfl h

section

variable (S : Simulation World World) {ev ev' : Evaluator World} (r : Registry) {fuel fuel' : Nat}
  (hev : ∀ t, S.Related (ev t) (ev' t))
  (hloop : ∀ c body, S.Related (TermCalc.loop ev c body fuel) (TermCalc.loop ev' c body fuel'))
include hev

theorem operandValues (holds : Bool) (ts : List Term) :
    S.Related (Registry.operandValues ev holds ts) (Registry.operandValues ev' holds ts) := by
  induction ts with
  | nil => exact S.related_pure _
  | cons t ts ih =>
    have hrest (v : Term) : S.Related
        (Registry.operandValues ev holds ts >>= fun vs => pure (v :: vs))
        (Registry.operandValues ev' holds ts >>= fun vs => pure (v :: vs)) :=
      S.related_bind ih fun vs => S.related_pure _
    cases holds with
    | true => exact S.related_bind (S.related_pure t) hrest
    | false => exact S.related_bind (hev t) hrest

include hloop

theorem result (name : String) (implementation : Implementation) (args : List Term) :
    S.Related (r.result fuel ev name implementation args)
      (r.result fuel' ev' name implementation args) := by
  cases implementation with
  | primitive p => exact S.run hev r hloop p args
  | routine label act =>
    simp only [Registry.result]
    cases act 0 args.reverse with
    | nil => exact S.related_fail _
    | cons v rest =>
      dsimp only
      split
      · exact S.related_pure _
      · exact S.related_fail _

/-- A step of the stackless evaluator keeps every simulation. -/
theorem evaluateDirectOnce (t : Term) :
    S.Related (r.evaluateDirectOnce fuel ev t) (r.evaluateDirectOnce fuel' ev' t) := by
  cases t with
  | form op args pos =>
    simp only [Registry.evaluateDirectOnce, Registry.applyDirect]
    cases r.lookup op with
    | none => exact S.related_fail _
    | some entry =>
      dsimp only
      split
      · exact S.related_fail _
      · exact S.related_bind (S.operandValues hev _ args) fun vs => S.result r hev hloop op _ vs
  | atom name pos => exact S.related_inWorld fun w => (.ok (w.atomValue name (.atom name pos)), w)
  | _ => exact S.related_pure _

end

theorem extension_loop {σ : Type} [HasWorld σ] {ev ev' : Evaluator σ}
    (hev : ∀ t, (extension σ).Related (ev t) (ev' t)) (c body : Term) (n : Nat) :
    (extension σ).Related (TermCalc.loop ev c body n) (TermCalc.loop ev' c body (n + 1)) := by
  induction n with
  | zero => intro s h; exact absurd rfl h
  | succ n ih =>
    rw [loop_succ ev, loop_succ ev']
    refine (extension σ).related_bind ((extension σ).condition hev c) fun b => ?_
    cases b with
    | true => exact (extension σ).related_bind (hev body) fun _ => ih
    | false => exact (extension σ).related_pure _

end Simulation

namespace Registry

variable (r : Registry)

theorem evaluateDirect_succ (n : Nat) (t : Term) :
    (Simulation.extension World).Related (r.evaluateDirect n t) (r.evaluateDirect (n + 1) t) := by
  induction n generalizing t with
  | zero => intro s h; exact absurd rfl h
  | succ n ih =>
    have hloop := fun c body => Simulation.extension_loop ih c body n
    exact Simulation.evaluateDirectOnce _ r ih hloop t

/-- **More fuel changes no outcome.** -/
theorem evaluateDirect_mono {n m : Nat} (h : n ≤ m) {t : Term} {w : World}
    (hn : r.evaluateDirect n t w ≠ .exhausted) :
    r.evaluateDirect m t w = r.evaluateDirect n t w := by
  induction h with
  | refl => rfl
  | step _ ih => rw [← ih]; exact r.evaluateDirect_succ _ t w (by rwa [ih])

theorem ends_evaluateDirect {n : Nat} {t : Term} {w : World}
    (hn : r.evaluateDirect n t w ≠ .exhausted) :
    Ends (fun fuel => r.evaluateDirect fuel t w) (r.evaluateDirect n t w) :=
  ⟨hn, n, fun _ h => r.evaluateDirect_mono h hn⟩

end Registry

end TermCalc
