import TermCalc.Proofs.Evaluation.Computing
import TermCalc.Proofs.Evaluation.Stackless
import TermCalc.Proofs.Term.Renaming

/-!
# Marks are given in order

A NaN gets its mark when it is computed, and the next mark that is free. So no mark is ever met that
has not been given, neither in the value of an atom nor in a value at hand.

* `World.Marked`: worlds in which the values of atoms have no other marks than those given.
* `Action.Marks`: actions that keep worlds so, and what their values are like under the marks that
  have been given by then.
* `marks_run`, `Registry.marks_evaluateDirect`: **every primitive is such an action, and so is every
  evaluation.**
* `Registry.marked_evaluate`: what that says of the stack machine.
-/

namespace TermCalc

/-- **All marks in the values of atoms have been given.** -/
def World.Marked (w : World) : Prop :=
  ∀ name v, w.globals.get? name = some v → v.marksBelow w.marks = true

namespace World

variable {w w' : World}

theorem Marked.of_globals (h : w.Marked) (hglobals : w'.globals = w.globals)
    (hmarks : w.marks ≤ w'.marks) : w'.Marked := by
  intro name v hv
  rw [hglobals] at hv
  exact Term.marksBelow_mono hmarks (h name v hv)

theorem Marked.assign (h : w.Marked) (name : String) {v : Term}
    (hv : v.marksBelow w.marks = true) : (w.assign name v).Marked :=
  w.forall_assign h hv

theorem Marked.atomValue (h : w.Marked) (name : String) (pos : Pos) :
    (w.atomValue name (.atom name pos)).marksBelow w.marks = true :=
  w.holds_atomValue h (fun _ => rfl) name rfl

/-- A fresh NaN gets the next mark. -/
theorem adopt_of_isFresh {n : Num} (h : n.isFresh = true) :
    w.adopt (.num n) = (.num (.nan w.marks), { w with marks := w.marks + 1 }) := by
  simp only [adopt, Term.mark, Num.mark, h, if_true]

end World

/-- The marks of a term are among the first that are given. -/
def Term.Below (bound : Nat) (t : Term) : Prop := t.marksBelow bound = true

open Term (Below)

/-! ### Actions -/

/-- **An outcome behind some marks**: the world is marked, and no mark has been taken back. -/
inductive Outcome.Marked {α : Type} (bound : Nat) (R : Nat → α → Prop) : Outcome World α → Prop
  | value {a : α} {w : World} (hw : w.Marked) (hmarks : bound ≤ w.marks) (ha : R w.marks a) :
    Marked bound R (.value a w)
  | failure (e : Failure) {w : World} (hw : w.Marked) (hmarks : bound ≤ w.marks) :
    Marked bound R (.failure e w)
  | exhausted : Marked bound R .exhausted

namespace Action

variable {α β : Type} {bound : Nat} {R : Nat → α → Prop} {S : Nat → β → Prop}

/-- **Actions that keep worlds marked**, where the first marks have been given. -/
def Marks (bound : Nat) (R : Nat → α → Prop) (x : Action World α) : Prop :=
  ∀ w : World, w.Marked → bound ≤ w.marks → (x w).Marked w.marks R

namespace Marks

theorem pure {a : α} (h : ∀ k, bound ≤ k → R k a) : Marks bound R (Pure.pure a) :=
  fun _ hw hbound => .value hw (Nat.le_refl _) (h _ hbound)

theorem fail (e : Failure) : Marks bound R (Action.fail e) :=
  fun _ hw _ => .failure e hw (Nat.le_refl _)

theorem exhausted : Marks bound R Action.exhausted := fun _ _ _ => .exhausted

theorem ofExcept {x : Except Failure α} (h : ∀ a, x = .ok a → ∀ k, bound ≤ k → R k a) :
    Marks bound R (Action.ofExcept x) := by
  cases x with
  | ok a => exact pure (h a rfl)
  | error e => exact fail e

theorem ofWithin {F : Failure → Prop} {Q : α → Prop} {x : Except Failure α} (hx : Within F Q x)
    (h : ∀ k a, Q a → R k a) : Marks bound R (Action.ofExcept x) := by
  refine ofExcept ?_
  rintro a rfl k -
  exact h k a hx

/-- What comes behind an action may use the marks that have been given by then. -/
theorem bind {x : Action World α} {f : α → Action World β} (hx : Marks bound R x)
    (hf : ∀ k a, bound ≤ k → R k a → Marks k S (f a)) : Marks bound S (x >>= f) := by
  intro w hw hbound
  have ho := hx w hw hbound
  rw [bind_apply]
  generalize x w = o at ho
  cases ho with
  | @value a w' hw' hmarks ha =>
    have hrest := hf w'.marks a (Nat.le_trans hbound hmarks) ha w' hw' (Nat.le_refl _)
    show (f a w').Marked w.marks S
    generalize f a w' = o' at hrest
    -- the marks that were given before are among those of the rest
    cases hrest with
    | value hw'' hmarks' hb => exact .value hw'' (Nat.le_trans hmarks hmarks') hb
    | failure e hw'' hmarks' => exact .failure e hw'' (Nat.le_trans hmarks hmarks')
    | exhausted => exact .exhausted
  | failure e hw' hmarks => exact .failure e hw' hmarks
  | exhausted => exact .exhausted

end Marks

/-- An action that keeps the values of atoms, and gives no mark. -/
theorem marks_inWorld {x : World → Except Failure α × World}
    (h : ∀ w, (x w).2.globals = w.globals ∧ (x w).2.marks = w.marks)
    (hR : ∀ k a, R k a) : Marks bound R (Action.inWorld x) := by
  intro w hw hbound
  obtain ⟨hglobals, hmarks⟩ := h w
  have hw' : (x w).2.Marked := hw.of_globals hglobals (Nat.le_of_eq hmarks.symm)
  have hle : w.marks ≤ (x w).2.marks := Nat.le_of_eq hmarks.symm
  simp only [inWorld, HasWorld.world, HasWorld.withWorld, id]
  cases (x w).1 with
  | ok a => exact .value hw' hle (hR _ a)
  | error e => exact .failure e hw' hle

end Action

open TermCalc.Action (Marks)

/-! ### Primitives -/

section Primitives

variable {bound : Nat}

/-- A NaN that has been computed gets the next mark. -/
theorem marks_settle {t : Term} (ht : Below bound t) : Marks bound Below (settle t) := by
  have hpure : Marks bound Below (pure t) := .pure fun k hk => Term.marksBelow_mono hk ht
  by_cases hnum : ∃ n, t = .num n
  · obtain ⟨n, rfl⟩ := hnum
    rw [settle_num]
    split
    · rename_i hfresh
      intro w hw _
      have hnext : w.marks ≤ w.marks + 1 := Nat.le_succ _
      simp only [Action.inWorld, HasWorld.world, HasWorld.withWorld, id,
        World.adopt_of_isFresh hfresh]
      refine .value (hw.of_globals rfl hnext) hnext ?_
      exact decide_eq_true (Nat.lt_succ_self _)
    · exact hpure
  · rw [settle_of_not_num (not_exists.1 hnum)]
    exact hpure

theorem marks_writeAll (r : Registry) (ts : List Term) :
    Marks bound (fun _ _ => True) (writeAll r ts) := by
  induction ts generalizing bound with
  | nil => exact .pure fun _ _ => trivial
  | cons t ts ih =>
    unfold writeAll
    cases t.toExpr? with
    | none => exact .fail _
    | some e =>
      refine Marks.bind (R := fun _ _ => True) ?_ fun k _ _ _ => ih
      rw [printOut_eq]
      exact Action.marks_inWorld (fun _ => ⟨rfl, rfl⟩) fun _ _ => trivial

variable {ev : Evaluator World} (hev : ∀ k t, Below k t → Marks k Below (ev t))
include hev

theorem marks_condition {t : Term} (ht : Below bound t) :
    Marks bound (fun _ _ => True) (condition ev t) :=
  (hev bound t ht).bind fun _ _ _ _ => .ofExcept fun _ _ _ _ => trivial

theorem marks_loop {c body : Term} (hc : Below bound c) (hbody : Below bound body) (fuel : Nat) :
    Marks bound Below (loop ev c body fuel) := by
  induction fuel generalizing bound with
  | zero => exact .exhausted
  | succ fuel ih =>
    rw [loop_succ]
    refine (marks_condition hev hc).bind ?_
    intro k b hk _
    have hc' := Term.marksBelow_mono hk hc
    have hbody' := Term.marksBelow_mono hk hbody
    cases b with
    | true =>
      refine (hev k body hbody').bind ?_
      intro k' _ hk' _
      exact ih (Term.marksBelow_mono hk' hc') (Term.marksBelow_mono hk' hbody')
    | false => exact .pure fun _ _ => rfl

theorem marks_assignment {target e : Term} (he : Below bound e) :
    Marks bound Below (assignment ev target e) := by
  cases target with
  | atom name pos =>
    refine (hev bound e he).bind ?_
    intro k v _ hv
    refine Marks.bind (R := fun _ _ => True) ?_ fun _ _ _ _ => .pure fun _ _ => rfl
    intro w hw hk
    have hvalue : v.marksBelow w.marks = true := Term.marksBelow_mono hk hv
    exact .value (hw.assign name hvalue) (Nat.le_refl _) trivial
  | _ => exact .fail _

variable {ts : List Term}

theorem marks_conjunction (hts : ∀ t ∈ ts, Below bound t) :
    Marks bound Below (conjunction ev ts) := by
  induction ts generalizing bound with
  | nil => exact .pure fun _ _ => rfl
  | cons t ts ih =>
    refine (marks_condition hev (hts t (by simp))).bind ?_
    intro k b hk _
    cases b with
    | true => exact ih fun u hu => Term.marksBelow_mono hk (hts u (by simp [hu]))
    | false => exact .pure fun _ _ => rfl

theorem marks_disjunction (hts : ∀ t ∈ ts, Below bound t) :
    Marks bound Below (disjunction ev ts) := by
  induction ts generalizing bound with
  | nil => exact .pure fun _ _ => rfl
  | cons t ts ih =>
    refine (marks_condition hev (hts t (by simp))).bind ?_
    intro k b hk _
    cases b with
    | true => exact .pure fun _ _ => rfl
    | false => exact ih fun u hu => Term.marksBelow_mono hk (hts u (by simp [hu]))

theorem marks_sequence {last : Term} (hlast : Below bound last) (hts : ∀ t ∈ ts, Below bound t) :
    Marks bound Below (sequence ev last ts) := by
  induction ts generalizing bound last with
  | nil => exact .pure fun k hk => Term.marksBelow_mono hk hlast
  | cons t ts ih =>
    refine (hev bound t (hts t (by simp))).bind ?_
    intro k v hk hv
    exact ih hv fun u hu => Term.marksBelow_mono hk (hts u (by simp [hu]))

theorem marks_branch (hts : ∀ t ∈ ts, Below bound t) : Marks bound Below (branch ev ts) := by
  match ts with
  | [] => exact .fail .noSuchIndex
  | c :: rest =>
    refine (marks_condition hev (hts c (by simp))).bind ?_
    intro k b hk _
    have hrest : ∀ t ∈ rest, Below k t :=
      fun t ht => Term.marksBelow_mono hk (hts t (by simp [ht]))
    match b, rest with
    | true, [] => exact .fail .noSuchIndex
    | true, t :: _ => exact hev k t (hrest t (by simp))
    | false, [_, e] => exact hev k e (hrest e (by simp))
    | false, [] => exact .pure fun _ _ => rfl
    | false, [_] => exact .pure fun _ _ => rfl
    | false, _ :: _ :: _ :: _ => exact .pure fun _ _ => rfl

/-- A primitive with effects keeps worlds marked. -/
theorem marks_run_of_none (r : Registry) (fuel : Nat) {p : Primitive} (hp : p.compute? = none)
    (hts : ∀ t ∈ ts, Below bound t) : Marks bound Below (p.run r fuel ev ts) := by
  -- what is written to the output has no part in this
  have hwritten (text : String) {k : Nat} :
      Marks k Below (Action.modify (updateWorld (World.write text)) >>= fun _ =>
        pure (.truth true)) := by
    refine Marks.bind (R := fun _ _ => True) ?_ fun _ _ _ _ => .pure fun _ _ => rfl
    intro w hw _
    exact .value (hw.of_globals rfl (Nat.le_refl _)) (Nat.le_refl _) trivial
  have hone : Within (fun _ => True) (fun a => ts = [a]) (one ts) := within_one fun _ => trivial
  have htwo : Within (fun _ => True) (fun x => ts = [x.1, x.2]) (two ts) :=
    within_two fun _ => trivial
  cases p <;> cases hp
  case and => exact marks_conjunction hev hts
  case or => exact marks_disjunction hev hts
  case writeString =>
    refine Marks.bind (R := fun _ _ => True) (.ofWithin hone fun _ _ _ => trivial) ?_
    intro k a _ _
    refine Marks.bind (R := fun _ _ => True) (.ofExcept fun _ _ _ _ => trivial) ?_
    intro k' text _ _
    exact hwritten text
  case write => exact (marks_writeAll r ts).bind fun _ _ _ _ => .pure fun _ _ => rfl
  case newLine => exact hwritten "\n"
  case eval =>
    refine Marks.bind (R := fun _ a => ts = [a]) (.ofWithin hone fun _ _ ha => ha) ?_
    rintro k a hk rfl
    exact hev k a (Term.marksBelow_mono hk (hts a (by simp)))
  case set =>
    refine Marks.bind (R := fun _ x => ts = [x.1, x.2]) (.ofWithin htwo fun _ _ hx => hx) ?_
    rintro k ⟨target, e⟩ hk rfl
    exact marks_assignment hev (Term.marksBelow_mono hk (hts e (by simp)))
  case prog => exact marks_sequence hev rfl hts
  case ifThen => exact marks_branch hev hts
  case whileDo =>
    refine Marks.bind (R := fun _ x => ts = [x.1, x.2]) (.ofWithin htwo fun _ _ hx => hx) ?_
    rintro k ⟨c, body⟩ hk rfl
    have hc := Term.marksBelow_mono hk (hts c (by simp))
    have hbody := Term.marksBelow_mono hk (hts body (by simp))
    exact marks_loop hev hc hbody fuel

/-- **Every primitive keeps worlds marked**, if evaluation does. -/
theorem marks_run (r : Registry) (fuel : Nat) (p : Primitive) (hts : ∀ t ∈ ts, Below bound t) :
    Marks bound Below (p.run r fuel ev ts) := by
  cases hp : p.compute? with
  | none => exact marks_run_of_none hev r fuel hp hts
  | some compute =>
    rw [Primitive.run_of_compute? r fuel hp]
    refine Marks.bind (R := Below) (.ofExcept ?_) fun k v _ hv => marks_settle hv
    intro v hv k hk
    exact Term.marksBelow_mono hk (p.marksBelow_of_compute? hp hts hv)

/-! ### Calls -/

/-- The arguments of a call. -/
theorem marks_operandValues (holds : Bool) (hts : ∀ t ∈ ts, Below bound t) :
    Marks bound (fun k vs => ∀ v ∈ vs, Below k v) (Registry.operandValues ev holds ts) := by
  induction ts generalizing bound with
  | nil => exact .pure fun _ _ => by simp
  | cons t ts ih =>
    have hrest {k : Nat} (hk : bound ≤ k) {v : Term} (hv : Below k v) :
        Marks k (fun k vs => ∀ v ∈ vs, Below k v)
          (Registry.operandValues ev holds ts >>= fun vs => pure (v :: vs)) := by
      refine (ih fun u hu => Term.marksBelow_mono hk (hts u (by simp [hu]))).bind ?_
      intro k' vs hk' hvs
      -- more marks may have been given since the first operand was evaluated
      refine .pure fun k'' hk'' => List.forall_mem_cons.2 ⟨?_, ?_⟩
      · exact Term.marksBelow_mono (Nat.le_trans hk' hk'') hv
      · exact fun u hu => Term.marksBelow_mono hk'' (hvs u hu)
    cases holds with
    | true => exact hrest (Nat.le_refl _) (hts t (by simp))
    | false => exact (hev bound t (hts t (by simp))).bind fun k v hk hv => hrest hk hv

theorem marks_applyDirect {r : Registry} (hr : r.CallsPrimitives) (fuel : Nat) (op : String)
    (hts : ∀ t ∈ ts, Below bound t) : Marks bound Below (r.applyDirect fuel ev op ts) := by
  unfold Registry.applyDirect
  cases he : r.lookup op with
  | none => exact .fail _
  | some entry =>
    obtain ⟨p, hp⟩ := hr.lookup he
    dsimp only
    split
    · exact .fail _
    · refine (marks_operandValues hev entry.flags.holds hts).bind ?_
      intro k vs _ hvs
      simp only [Registry.result, hp]
      exact marks_run hev r fuel p hvs

end Primitives

namespace Registry

variable {r : Registry} (hr : r.CallsPrimitives)
include hr

/-- **Every evaluation keeps worlds marked**, and gives a value with no other marks than those that
have been given. -/
theorem marks_evaluateDirect (fuel : Nat) {bound : Nat} {t : Term} (ht : Below bound t) :
    Marks bound Below (r.evaluateDirect fuel t) := by
  induction fuel generalizing bound t with
  | zero => exact .exhausted
  | succ fuel ih =>
    cases t with
    | atom name pos =>
      intro w hw _
      exact .value hw (Nat.le_refl _) (hw.atomValue name pos)
    | form op args pos =>
      exact marks_applyDirect (fun _ _ hu => ih hu) hr fuel op (Term.allMarksBelow_iff.1 ht)
    | _ => exact .pure fun k hk => Term.marksBelow_mono hk ht

/-- **The stack machine keeps its world marked**, whether it ends in a value or in a failure. -/
theorem marked_evaluate {m : Machine} (hm : m.world.Marked) {t : Term}
    (ht : t.marksBelow m.world.marks = true) (fuel : Nat) :
    (∀ v m', r.evaluate fuel t m = .value v m' →
      m'.world.Marked ∧ m.world.marks ≤ m'.world.marks ∧
        v.marksBelow m'.world.marks = true) ∧
    ∀ e m', r.evaluate fuel t m = .failure e m' →
      m'.world.Marked ∧ m.world.marks ≤ m'.world.marks := by
  obtain ⟨stack, w⟩ := m
  have hmarked := marks_evaluateDirect hr fuel ht w hm (Nat.le_refl _)
  rw [r.evaluate_stackless hr fuel t stack w]
  generalize r.evaluateDirect fuel t w = o at hmarked
  refine ⟨?_, ?_⟩
  · intro v m' h
    cases hmarked with
    | value hw hmarks hv =>
      cases h
      exact ⟨hw, hmarks, hv⟩
    | failure | exhausted => cases h
  · intro e m' h
    cases hmarked with
    | failure e hw hmarks =>
      cases h
      exact ⟨hw, hmarks⟩
    | value | exhausted => cases h

end Registry

end TermCalc
