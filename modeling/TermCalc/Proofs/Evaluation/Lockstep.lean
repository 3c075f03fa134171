import TermCalc.Evaluation.Direct
import TermCalc.Proofs.Evaluation.Simulation
import TermCalc.Proofs.Registry.Building
import TermCalc.Proofs.Results
import TermCalc.Proofs.Term.Places

/-!
# Evaluations in step

Two evaluations, of terms that are related and in worlds that are related, go through the same calls
and end in the same way: with values that are related in worlds that are related, or with the same
failure. What a relation must keep for that is said of the parts of an evaluation alone; the
traversal of the control primitives and of calls is done here, once for all such relations.

* `Action.InStep`: actions that agree in related states. Sequencing keeps it.
* `Lockstep`, `Lockstep.Keeps`: a relation of worlds and of terms, with the failures that may arise,
  and the actions that keep it.
* `Primitive.takes`: the numbers of arguments that a primitive can unpack.
* `Lockstep.Laws`: what a relation must keep.
* `Lockstep.Laws.run`: **every primitive keeps the relation** if the evaluation of its arguments
  does. `Lockstep.Laws.evaluateDirect`: **so does evaluation without a stack.**
-/

namespace TermCalc

open Term (Alike)

/-! ### Actions in step -/

namespace Action

variable {σ τ α β γ δ : Type}

/-- **Actions in step**: in related states they agree, and they fail only in some ways. -/
def InStep (S : σ → τ → Prop) (F : Failure → Prop) (R : α → β → Prop) (x : Action σ α)
    (y : Action τ β) : Prop :=
  ∀ s s', S s s' → Outcomes S R (x s) (y s') ∧ ∀ e s₁, x s = .failure e s₁ → F e

namespace InStep

variable {S : σ → τ → Prop} {F : Failure → Prop} {R : α → β → Prop} {Q : γ → δ → Prop}

theorem pure {a : α} {b : β} (h : R a b) :
    InStep S F R (Pure.pure a : Action σ α) (Pure.pure b : Action τ β) :=
  fun _ _ hs => ⟨.value h hs, fun _ _ he => by cases he⟩

theorem fail {e : Failure} (h : F e) :
    InStep S F R (Action.fail e : Action σ α) (Action.fail e : Action τ β) :=
  fun _ _ hs => ⟨.failure e hs, fun _ _ he => by cases he; exact h⟩

theorem exhausted : InStep S F R (Action.exhausted : Action σ α) (Action.exhausted) :=
  fun _ _ _ => ⟨.exhausted, fun _ _ he => by cases he⟩

theorem bind {x : Action σ α} {y : Action τ β} {f : α → Action σ γ} {g : β → Action τ δ}
    (hx : InStep S F R x y) (hf : ∀ a b, R a b → InStep S F Q (f a) (g b)) :
    InStep S F Q (x >>= f) (y >>= g) := by
  intro s s' hs
  obtain ⟨ho, hfail⟩ := hx s s' hs
  rw [bind_apply, bind_apply]
  -- outcomes that agree are of one kind, and only values go on
  match x s, y s', ho, hfail with
  | _, _, .value h hs, _ => exact hf _ _ h _ _ hs
  | _, _, .failure e hs, hfail =>
    exact ⟨.failure e hs, fun _ _ he => by cases he; exact hfail e _ rfl⟩
  | _, _, .exhausted, _ => exact ⟨.exhausted, fun _ _ he => by cases he⟩

theorem mono {P : α → β → Prop} {x : Action σ α} {y : Action τ β} (h : InStep S F R x y)
    (hR : ∀ a b, R a b → P a b) : InStep S F P x y :=
  fun s s' hs => ⟨(h s s' hs).1.mono (fun _ _ h => h) hR, (h s s' hs).2⟩

theorem ofExcept {x : Except Failure α} {y : Except Failure β} (h : Results R x y)
    (hF : ∀ e, x = .error e → F e) : InStep S F R (Action.ofExcept x) (Action.ofExcept y) := by
  cases h with
  | ok h => exact pure h
  | error e => exact fail (hF e rfl)

theorem modify {f : σ → σ} {g : τ → τ} (h : ∀ s s', S s s' → S (f s) (g s')) :
    InStep S F Eq (Action.modify f) (Action.modify g) :=
  fun s s' hs => ⟨.value rfl (h s s' hs), fun _ _ he => by cases he⟩

theorem read {f : σ → α} {g : τ → β} (h : ∀ s s', S s s' → R (f s) (g s')) :
    InStep S F R (Action.read f) (Action.read g) :=
  fun s s' hs => ⟨.value (h s s' hs) hs, fun _ _ he => by cases he⟩

end InStep

end Action

/-- **A relation of worlds and of terms**, and the failures that may arise. -/
structure Lockstep where
  worlds : World → World → Prop
  terms : Term → Term → Prop
  allowed : Failure → Prop

namespace Lockstep

variable (L : Lockstep) {α β : Type}

/-- Results that agree, and a failure that may arise. -/
def Gives (R : α → β → Prop) (x : Except Failure α) (y : Except Failure β) : Prop :=
  Results R x y ∧ ∀ e, x = .error e → L.allowed e

/-- **Actions that keep the relation** and fail only as they may. -/
abbrev Keeps (R : α → β → Prop) (x : Action World α) (y : Action World β) : Prop :=
  Action.InStep L.worlds L.allowed R x y

variable {L} {R : α → β → Prop}

namespace Gives

theorem ok {a : α} {b : β} (h : R a b) : L.Gives R (.ok a) (.ok b) :=
  ⟨.ok h, fun _ he => by cases he⟩

theorem error {e : Failure} (h : L.allowed e) :
    L.Gives R (.error e : Except Failure α) (.error e : Except Failure β) :=
  ⟨.error e, fun _ he => by cases he; exact h⟩

theorem keeps {x : Except Failure α} {y : Except Failure β} (h : L.Gives R x y) :
    L.Keeps R (Action.ofExcept x) (Action.ofExcept y) :=
  .ofExcept h.1 h.2

end Gives

theorem keeps_inWorld {x : World → Except Failure α × World} {y : World → Except Failure β × World}
    (h : ∀ w w', L.worlds w w' → L.Gives R (x w).1 (y w').1 ∧ L.worlds (x w).2 (y w').2) :
    L.Keeps R (Action.inWorld x) (Action.inWorld y) := by
  intro w w' hw
  obtain ⟨⟨hresults, hallowed⟩, hworlds⟩ := h w w' hw
  simp only [Action.inWorld, HasWorld.world, HasWorld.withWorld, id]
  generalize (x w).1 = left at hresults hallowed ⊢
  generalize (y w').1 = right at hresults ⊢
  cases hresults with
  | ok h => exact ⟨.value h hworlds, fun _ _ he => by cases he⟩
  | error e => exact ⟨.failure e hworlds, fun _ _ he => by cases he; exact hallowed e rfl⟩

end Lockstep

/-! ### Laws -/

/-- **The numbers of arguments that a primitive can unpack.** -/
def Primitive.takes (p : Primitive) (n : Nat) : Bool :=
  match p with
  | .negate | .abs | .factorial | .not | .length | .atom | .string | .writeString | .hold
  | .eval => n == 1
  | .minus => n == 1 || n == 2
  | .stringMid => n == 3
  | .ifThen => 2 ≤ n
  | .and | .or | .concat | .write | .newLine | .list | .prog => true
  | _ => n == 2

/-- **What a relation must keep.** -/
structure Lockstep.Laws (L : Lockstep) (r r' : Registry) : Prop where
  alike {t u : Term} (h : L.terms t u) : t.Alike u
  truth (b : Bool) : L.terms (.truth b) (.truth b)
  number {n : Num} {pos pos' : Pos} (h : L.terms (.numeral n pos) (.numeral n pos')) :
    L.terms (.num n) (.num n)
  string {s : String} {pos pos' : Pos} (h : L.terms (.text s pos) (.text s pos')) :
    L.terms (.str s) (.str s)
  args {op : String} {ts us : List Term} {pos pos' : Pos}
    (h : L.terms (.form op ts pos) (.form op us pos')) : List.Forall₂ L.terms ts us
  atomValue {w w' : World} (hw : L.worlds w w') {name : String} {pos pos' : Pos}
    (h : L.terms (.atom name pos) (.atom name pos')) :
    L.terms (w.atomValue name (.atom name pos)) (w'.atomValue name (.atom name pos'))
  assign {w w' : World} (hw : L.worlds w w') (name : String) {v v' : Term} (h : L.terms v v') :
    L.worlds (w.assign name v) (w'.assign name v')
  write {w w' : World} (hw : L.worlds w w') (text : String) :
    L.worlds (w.write text) (w'.write text)
  adopt {w w' : World} (hw : L.worlds w w') (n : Num) :
    L.terms (w.adopt (.num n)).1 (w'.adopt (.num n)).1 ∧
      L.worlds (w.adopt (.num n)).2 (w'.adopt (.num n)).2
  expr {t u : Term} (h : L.terms t u) (ht : t.toExpr? = none) :
    L.allowed (.notExpression Term.nothing.typeName)
  print {t u e e' : Term} (h : L.terms t u) (ht : t.toExpr? = some e) (hu : u.toExpr? = some e')
    {w w' : World} (hw : L.worlds w w') :
    (r.print e w.output).failure = (r'.print e' w'.output).failure ∧
      (∀ failure, (r.print e w.output).failure = some failure → L.allowed failure) ∧
      L.worlds { w with output := (r.print e w.output).output }
        { w' with output := (r'.print e' w'.output).output }
  compute {p : Primitive} {compute : List Term → Computed} (hp : p.compute? = some compute)
    {ts us : List Term} (h : List.Forall₂ L.terms ts us)
    (htakes : p.takes ts.length = false → L.allowed .cannotUnpack) :
    L.Gives L.terms (compute ts) (compute us)
  lookup (name : String) : r.lookup name = r'.lookup name
  callsPrimitives : r.CallsPrimitives
  takes {name : String} {entry : Entry} {p : Primitive} (he : r.lookup name = some entry)
    (hp : entry.implementation = .primitive p) {n : Nat} (ha : entry.accepts n = true)
    (htakes : p.takes n = false) : L.allowed .cannotUnpack ∧ L.allowed .noSuchIndex
  unknownName (name : String) : L.allowed (.unknownName name)
  wrongArity (mismatch : ArityMismatch) : L.allowed (.wrongArity mismatch)
  tooManyDigits : L.allowed .tooManyDigits
  argument (fault : ArgumentFault) : L.allowed (Failure.argument fault).reported

/-! ### Arguments -/

section

variable {t u : Term}

theorem stringArg_eq (op : String) (h : t.Alike u) : stringArg op t = stringArg op u :=
  Alike.apply_eq (fun t => by cases t <;> rfl) h

theorem truthArg_eq (h : t.Alike u) : truthArg t = truthArg u :=
  Alike.apply_eq (fun t => by cases t <;> rfl) h

end

/-- A failure to take an argument is one of those for arguments. -/
theorem exists_fault_of_stringArg {op : String} {t : Term} {e : Failure}
    (h : stringArg op t = .error e) : ∃ fault, e = (Failure.argument fault).reported := by
  unfold stringArg at h
  split at h
  · cases h
  · cases h
    exact ⟨_, rfl⟩

theorem exists_fault_of_truthArg {t : Term} {e : Failure} (h : truthArg t = .error e) :
    ∃ fault, e = (Failure.argument fault).reported := by
  unfold truthArg at h
  split at h
  · cases h
  · cases h
    exact ⟨_, rfl⟩

theorem assignment_of_not_atom {σ : Type} [HasWorld σ] {ev : Evaluator σ} {target e : Term}
    (h : ∀ name pos, target ≠ .atom name pos) :
    assignment ev target e =
      Action.fail (Failure.argument (.notAssignable target.typeName)).reported := by
  cases target with
  | atom name pos => exact absurd rfl (h name pos)
  | _ => rfl

theorem Primitive.run_of_compute? {σ : Type} [HasWorld σ] {ev : Evaluator σ} (r : Registry)
    (fuel : Nat) {p : Primitive} {compute : List Term → Computed} (hp : p.compute? = some compute)
    (args : List Term) : p.run r fuel ev args = Action.ofExcept (compute args) >>= settle := by
  unfold Primitive.run
  split
  · rename_i hp'
    cases hp.symm.trans hp'
    rfl
  · rename_i hp'
    cases hp.symm.trans hp'

theorem evaluateDirectOnce_of_not_isExpr (r : Registry) (fuel : Nat) {ev : Evaluator World}
    {t : Term} (h : t.isExpr = false) : r.evaluateDirectOnce fuel ev t = pure t := by
  cases t <;> first | rfl | cases h

/-! ### The traversal -/

namespace Lockstep.Laws

variable {L : Lockstep} {r r' : Registry} (h : L.Laws r r')
include h

theorem settle {t u : Term} (ht : L.terms t u) : L.Keeps L.terms (settle t) (settle u) := by
  by_cases hnum : ∃ n, t = .num n
  · obtain ⟨n, rfl⟩ := hnum
    obtain rfl := (h.alike ht).eq_num
    rw [settle_num]
    split
    · exact keeps_inWorld fun w w' hw => ⟨.ok (h.adopt hw n).1, (h.adopt hw n).2⟩
    · exact .pure ht
  · have hnum' : ∀ n, u ≠ .num n := fun n hu => hnum ⟨n, Alike.eq_num (hu ▸ h.alike ht).symm⟩
    rw [settle_of_not_num (not_exists.1 hnum), settle_of_not_num hnum']
    exact .pure ht

theorem printOut {t u e e' : Term} (ht : L.terms t u) (hx : t.toExpr? = some e)
    (hy : u.toExpr? = some e') : L.Keeps Eq (printOut r e) (printOut r' e') := by
  rw [printOut_eq, printOut_eq]
  refine keeps_inWorld fun w w' hw => ?_
  obtain ⟨hfailure, hallowed, hworlds⟩ := h.print ht hx hy hw
  refine ⟨?_, hworlds⟩
  dsimp only
  rw [← hfailure]
  cases hf : (r.print e w.output).failure with
  | none => exact .ok rfl
  | some failure => exact .error (hallowed failure hf)

section

variable {ts us : List Term} (hargs : List.Forall₂ L.terms ts us)
include hargs

omit h in
theorem one (hcount : ts.length ≠ 1 → L.allowed .cannotUnpack) :
    L.Gives L.terms (one ts) (one us) := by
  match hargs with
  | .nil => exact .error (hcount (by simp))
  | .cons ha .nil => exact .ok ha
  | .cons _ (.cons _ _) => exact .error (hcount (by simp))

omit h in
theorem two (hcount : ts.length ≠ 2 → L.allowed .cannotUnpack) :
    L.Gives (fun x y => L.terms x.1 y.1 ∧ L.terms x.2 y.2) (two ts) (two us) := by
  match hargs with
  | .nil => exact .error (hcount (by simp))
  | .cons _ .nil => exact .error (hcount (by simp))
  | .cons ha (.cons hb .nil) => exact .ok ⟨ha, hb⟩
  | .cons _ (.cons _ (.cons _ _)) => exact .error (hcount (by simp))

theorem writeAll : L.Keeps Eq (writeAll r ts) (writeAll r' us) := by
  induction hargs with
  | nil => exact .pure rfl
  | @cons t u _ _ ht _ ih =>
    rw [TermCalc.writeAll, TermCalc.writeAll]
    -- both have an expression, or neither has
    rcases cases_of_map_eq (h.alike ht).toExpr? with ⟨hx, hy⟩ | ⟨e, e', hx, hy, -⟩
    · rw [hx, hy]
      exact .fail (h.expr ht hx)
    · rw [hx, hy]
      exact .bind (h.printOut ht hx hy) fun _ _ _ => ih

end

theorem stringArg (op : String) {t u : Term} (ht : L.terms t u) :
    L.Gives Eq (stringArg op t) (stringArg op u) := by
  refine ⟨.of_eq (fun _ => rfl) (stringArg_eq op (h.alike ht)), fun e he => ?_⟩
  obtain ⟨fault, rfl⟩ := exists_fault_of_stringArg he
  exact h.argument fault

theorem truthArg {t u : Term} (ht : L.terms t u) : L.Gives Eq (truthArg t) (truthArg u) := by
  refine ⟨.of_eq (fun _ => rfl) (truthArg_eq (h.alike ht)), fun e he => ?_⟩
  obtain ⟨fault, rfl⟩ := exists_fault_of_truthArg he
  exact h.argument fault

section

variable {ev ev' : Evaluator World} (hev : ∀ t u, L.terms t u → L.Keeps L.terms (ev t) (ev' u))
  {ts us : List Term}
include hev

theorem condition {t u : Term} (ht : L.terms t u) :
    L.Keeps Eq (condition ev t) (condition ev' u) :=
  .bind (hev t u ht) fun _ _ hv => (h.truthArg hv).keeps

theorem conjunction (hargs : List.Forall₂ L.terms ts us) :
    L.Keeps L.terms (conjunction ev ts) (conjunction ev' us) := by
  induction hargs with
  | nil => exact .pure (h.truth true)
  | cons ht _ ih =>
    refine .bind (h.condition hev ht) fun b _ hb => ?_
    subst hb
    cases b with
    | true => exact ih
    | false => exact .pure (h.truth false)

theorem disjunction (hargs : List.Forall₂ L.terms ts us) :
    L.Keeps L.terms (disjunction ev ts) (disjunction ev' us) := by
  induction hargs with
  | nil => exact .pure (h.truth false)
  | cons ht _ ih =>
    refine .bind (h.condition hev ht) fun b _ hb => ?_
    subst hb
    cases b with
    | true => exact .pure (h.truth true)
    | false => exact ih

omit h in
theorem sequence (hargs : List.Forall₂ L.terms ts us) {last last' : Term}
    (hlast : L.terms last last') :
    L.Keeps L.terms (sequence ev last ts) (sequence ev' last' us) := by
  induction hargs generalizing last last' with
  | nil => exact .pure hlast
  | cons ht _ ih => exact .bind (hev _ _ ht) fun _ _ hv => ih hv

theorem branch (hargs : List.Forall₂ L.terms ts us)
    (hcount : ts.length < 2 → L.allowed .noSuchIndex) :
    L.Keeps L.terms (branch ev ts) (branch ev' us) := by
  cases hargs with
  | nil => exact .fail (hcount (by simp))
  | cons hc hrest =>
    refine .bind (h.condition hev hc) fun b _ hb => ?_
    subst hb
    match b, hrest with
    | true, .nil => exact .fail (hcount (by simp))
    | true, .cons ht _ => exact hev _ _ ht
    | false, .cons _ (.cons he .nil) => exact hev _ _ he
    | false, .nil => exact .pure (h.truth false)
    | false, .cons _ .nil => exact .pure (h.truth false)
    | false, .cons _ (.cons _ (.cons _ _)) => exact .pure (h.truth false)

theorem loop {c c' body body' : Term} (hc : L.terms c c') (hbody : L.terms body body')
    (fuel : Nat) : L.Keeps L.terms (loop ev c body fuel) (loop ev' c' body' fuel) := by
  induction fuel with
  | zero => exact .exhausted
  | succ fuel ih =>
    rw [loop_succ, loop_succ]
    refine .bind (h.condition hev hc) fun b _ hb => ?_
    subst hb
    cases b with
    | true => exact .bind (hev _ _ hbody) fun _ _ _ => ih
    | false => exact .pure (h.truth true)

theorem assignment {target target' e e' : Term} (htarget : L.terms target target')
    (he : L.terms e e') :
    L.Keeps L.terms (assignment ev target e) (assignment ev' target' e') := by
  have halike := h.alike htarget
  -- an atom is assigned to on both sides, or on neither
  by_cases hatom : ∃ name pos, target = .atom name pos
  · obtain ⟨name, pos, rfl⟩ := hatom
    obtain ⟨pos', rfl⟩ := halike.eq_atom
    refine .bind (hev _ _ he) fun v v' hv => ?_
    exact .bind (.modify fun _ _ hw => h.assign hw name hv) fun _ _ _ => .pure (h.truth true)
  · have hatom' : ∀ name pos, target' ≠ .atom name pos := fun name pos ht => by
      subst ht
      obtain ⟨pos', ht⟩ := Alike.eq_atom halike.symm
      exact hatom ⟨name, pos', ht⟩
    have hnot : ∀ name pos, target ≠ .atom name pos := fun name pos ht => hatom ⟨name, pos, ht⟩
    rw [assignment_of_not_atom hnot, assignment_of_not_atom hatom', halike.typeName_eq]
    exact .fail (h.argument _)

/-- A primitive with effects keeps the relation. -/
theorem run_of_none (fuel : Nat) {p : Primitive} (hp : p.compute? = none)
    (hargs : List.Forall₂ L.terms ts us)
    (hcount : p.takes ts.length = false → L.allowed .cannotUnpack ∧ L.allowed .noSuchIndex) :
    L.Keeps L.terms (p.run r fuel ev ts) (p.run r' fuel ev' us) := by
  have hunpack {n : Nat} (hn : p.takes ts.length = (ts.length == n)) :
      ts.length ≠ n → L.allowed .cannotUnpack := fun hne =>
    (hcount (by rw [hn]; exact beq_false_of_ne hne)).1
  cases p <;> cases hp
  case and => exact h.conjunction hev hargs
  case or => exact h.disjunction hev hargs
  case writeString =>
    refine (one hargs (hunpack rfl)).keeps.bind fun a b hab => ?_
    refine (h.stringArg _ hab).keeps.bind fun text _ htext => ?_
    subst htext
    exact .bind (.modify fun _ _ hw => h.write hw text) fun _ _ _ => .pure (h.truth true)
  case write => exact .bind (h.writeAll hargs) fun _ _ _ => .pure (h.truth true)
  case newLine =>
    exact .bind (.modify fun _ _ hw => h.write hw "\n") fun _ _ _ => .pure (h.truth true)
  case eval => exact (one hargs (hunpack rfl)).keeps.bind fun a b hab => hev a b hab
  case set =>
    exact (two hargs (hunpack rfl)).keeps.bind fun _ _ hab => h.assignment hev hab.1 hab.2
  case prog => exact sequence hev hargs (h.truth true)
  case ifThen =>
    exact h.branch hev hargs fun hlen => (hcount (decide_eq_false (Nat.not_le.2 hlen))).2
  case whileDo =>
    exact (two hargs (hunpack rfl)).keeps.bind fun _ _ hab => h.loop hev hab.1 hab.2 fuel

/-- **Every primitive keeps the relation.** -/
theorem run (fuel : Nat) (p : Primitive) (hargs : List.Forall₂ L.terms ts us)
    (hcount : p.takes ts.length = false → L.allowed .cannotUnpack ∧ L.allowed .noSuchIndex) :
    L.Keeps L.terms (p.run r fuel ev ts) (p.run r' fuel ev' us) := by
  cases hp : p.compute? with
  | none => exact h.run_of_none hev fuel hp hargs hcount
  | some compute =>
    rw [Primitive.run_of_compute? r fuel hp, Primitive.run_of_compute? r' fuel hp]
    exact (h.compute hp hargs fun hn => (hcount hn).1).keeps.bind fun _ _ hv => h.settle hv

/-! ### Calls -/

omit h in
/-- As many values as there are operands. -/
theorem operandValues (holds : Bool) (hargs : List.Forall₂ L.terms ts us) :
    L.Keeps (fun vs vs' => List.Forall₂ L.terms vs vs' ∧ vs.length = ts.length)
      (Registry.operandValues ev holds ts) (Registry.operandValues ev' holds us) := by
  induction hargs with
  | nil => exact .pure ⟨.nil, rfl⟩
  | @cons t u ts us ht _ ih =>
    have hrest {v v' : Term} (hv : L.terms v v') :
        L.Keeps (fun vs vs' => List.Forall₂ L.terms vs vs' ∧ vs.length = ts.length + 1)
          (Registry.operandValues ev holds ts >>= fun vs => pure (v :: vs))
          (Registry.operandValues ev' holds us >>= fun vs => pure (v' :: vs)) :=
      .bind ih fun _ _ hvs => .pure ⟨.cons hv hvs.1, congrArg (· + 1) hvs.2⟩
    cases holds with
    | true => exact hrest ht
    | false => exact .bind (hev t u ht) fun _ _ hv => hrest hv

theorem applyDirect (fuel : Nat) (op : String) (hargs : List.Forall₂ L.terms ts us) :
    L.Keeps L.terms (r.applyDirect fuel ev op ts) (r'.applyDirect fuel ev' op us) := by
  simp only [Registry.applyDirect, ← h.lookup op, ← hargs.length_eq]
  cases he : r.lookup op with
  | none => exact .fail (h.unknownName op)
  | some entry =>
    obtain ⟨p, hp⟩ := h.callsPrimitives.lookup he
    dsimp only
    split
    · exact .fail (Failure.holds_reported L.allowed (h.wrongArity _) h.tooManyDigits)
    · rename_i ha
      refine .bind (operandValues hev _ hargs) fun vs vs' hvs => ?_
      simp only [Registry.result, hp]
      refine h.run hev fuel p hvs.1 fun hn => h.takes he hp ?_ hn
      rw [hvs.2]
      simpa using ha

/-- **A step of evaluation keeps the relation** if the evaluation of its parts does. -/
theorem evaluateDirectOnce (fuel : Nat) {t u : Term} (ht : L.terms t u) :
    L.Keeps L.terms (r.evaluateDirectOnce fuel ev t) (r'.evaluateDirectOnce fuel ev' u) := by
  have halike := h.alike ht
  cases t with
  | numeral n pos =>
    obtain ⟨pos', rfl⟩ := halike.eq_numeral
    exact .pure (h.number ht)
  | text s pos =>
    obtain ⟨pos', rfl⟩ := halike.eq_text
    exact .pure (h.string ht)
  | atom name pos =>
    obtain ⟨pos', rfl⟩ := halike.eq_atom
    exact .read fun _ _ hw => h.atomValue hw ht
  | form op args pos =>
    obtain ⟨args', pos', rfl, -⟩ := halike.eq_form
    exact h.applyDirect hev fuel op (h.args ht)
  | nothing | truth | num | str | list =>
    -- a value stays what it is, and only a value is alike to one
    have hu : u.isExpr = false := (Alike.apply_eq Term.isExpr_unplaced halike).symm
    rw [evaluateDirectOnce_of_not_isExpr r fuel rfl, evaluateDirectOnce_of_not_isExpr r' fuel hu]
    exact .pure ht

end

/-- **Evaluation without a stack keeps the relation.** -/
theorem evaluateDirect (fuel : Nat) {t u : Term} (ht : L.terms t u) :
    L.Keeps L.terms (r.evaluateDirect fuel t) (r'.evaluateDirect fuel u) := by
  induction fuel generalizing t u with
  | zero => exact .exhausted
  | succ fuel ih => exact h.evaluateDirectOnce (fun t u ht => ih ht) fuel ht

end Lockstep.Laws

end TermCalc
