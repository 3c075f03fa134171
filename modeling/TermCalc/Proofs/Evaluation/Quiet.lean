import TermCalc.Proofs.Evaluation.Marking
import TermCalc.Proofs.Evaluation.Unfolding

/-!
# Expressions without effects

An expression of the core table in which no builtin that assigns, writes or evaluates once more is
named leaves nothing behind but the marks on the NaNs that it made. Two evaluations of it, from
worlds in which atoms have the same values, go through the same calls; each NaN of the one is the
NaN of the other that was made at the same point.

* `effectNames`, `Term.isQuiet`: the builtins with effects, and the expressions that name none.
* `World.Since`: a world with the same globals and output as another, and later marks.
* `Retold`, `Action.Retells`: an outcome, and an action, that is another one under other marks.
* `CoreTable.retells_eval`: **a quiet expression is evaluated alike** from worlds that are the same
  but for marks.
* `Outcome.Repeats`: the same outcome, in which the NaNs that were made are others.
* `CoreTable.quiet_evaluate`: **expressions without effects have none**. In a marked world, as all
  are that sources lead to, evaluating one once more gives the same, and so do two in either order.
-/

namespace TermCalc

open Term (Renamed)

/-- **The names of the builtins with effects** in the core table. -/
def effectNames : List String := ["Set", ":=", "Write", "WriteString", "NewLine", "Eval"]

namespace Term

mutual

/-- **An expression without effects**: no form in it has the name of a builtin with effects. -/
def isQuiet : Term → Bool
  | form op args _ => !effectNames.contains op && allQuiet args
  | _ => true

/-- Whether all expressions are without effects. -/
def allQuiet : List Term → Bool
  | [] => true
  | t :: ts => isQuiet t && allQuiet ts

end

theorem allQuiet_iff {ts : List Term} : allQuiet ts = true ↔ ∀ t ∈ ts, t.isQuiet = true := by
  induction ts with
  | nil => simp [allQuiet]
  | cons t ts ih => simp [allQuiet, ih]

end Term

/-! ### The core table -/

namespace CoreTable

attribute [local irreducible] coreRegistry

/-- Whether a primitive decides what is evaluated, and has no other effect. -/
def isControl : Primitive → Bool
  | .and | .or | .prog | .ifThen | .whileDo => true
  | _ => false

/-- Whether a builtin only computes, or only decides which of the operands it holds to evaluate. -/
def isQuietEntry (e : Entry) : Bool :=
  match e.implementation with
  | .primitive p => p.compute?.isSome || e.flags.holds && isControl p
  | .routine .. => false

/-- **All builtins but those with effects are quiet.** -/
theorem isQuietEntry_of_lookup {name : String} {e : Entry} (he : coreRegistry.lookup name = some e)
    (hname : name ∉ effectNames) : isQuietEntry e = true := by
  have hall : coreRegistry.entries.all
      (fun e => effectNames.contains e.name || isQuietEntry e) = true := by
    rw [entries_eq]
    rfl
  rw [Registry.lookup] at he
  have hentry := List.all_eq_true.1 hall e (List.mem_of_find?_eq_some he)
  have hcalled : e.name = name := by simpa using List.find?_some he
  rw [hcalled] at hentry
  simpa [hname] using hentry

end CoreTable

/-! ### Two runs -/

/-- **A world with the same globals and the same output** as one before, in which NaNs may have been
marked since. -/
structure World.Since (w₀ w : World) : Prop where
  globals : w.globals = w₀.globals
  output : w.output = w₀.output
  marks : w₀.marks ≤ w.marks

/-- **Worlds of two runs** that have started from two worlds: each has kept what it started from,
and the marks that the one will give are renamed to those that the other will. -/
structure World.Beside (ρ : Nat → Nat) (w₀ w₀' w w' : World) : Prop where
  left : w₀.Since w
  right : w₀'.Since w'
  marks (i : Nat) : ρ (w.marks + i) = w'.marks + i

namespace World

variable {ρ : Nat → Nat} {w₀ w₀' w w' : World}

theorem Since.refl (w : World) : w.Since w := ⟨rfl, rfl, Nat.le_refl _⟩

theorem Since.succ (h : w₀.Since w) : w₀.Since { w with marks := w.marks + 1 } :=
  ⟨h.globals, h.output, Nat.le_succ_of_le h.marks⟩

theorem Beside.succ (h : Beside ρ w₀ w₀' w w') :
    Beside ρ w₀ w₀' { w with marks := w.marks + 1 } { w' with marks := w'.marks + 1 } := by
  refine ⟨h.left.succ, h.right.succ, ?_⟩
  intro i
  have hnext := h.marks (i + 1)
  have hleft : w.marks + 1 + i = w.marks + (i + 1) := by omega
  have hright : w'.marks + 1 + i = w'.marks + (i + 1) := by omega
  rw [← hleft, ← hright] at hnext
  exact hnext

end World

/-- **An outcome and the same with other marks.** -/
inductive Retold {α β : Type} (ρ : Nat → Nat) (S : World → World → Prop) (R : α → β → Prop) :
    Outcome World α → Outcome World β → Prop
  | value {a : α} {b : β} {w w' : World} (h : R a b) (hw : S w w') :
    Retold ρ S R (.value a w) (.value b w')
  | failure (e : Failure) {w w' : World} (hw : S w w') :
    Retold ρ S R (.failure e w) (.failure (e.rename ρ) w')
  | exhausted : Retold ρ S R .exhausted .exhausted

namespace Action

variable {ρ : Nat → Nat} {S : World → World → Prop} {α β γ δ : Type} {R : α → β → Prop}
  {Q : γ → δ → Prop}

/-- **Actions that do the same under other marks.** -/
def Retells (ρ : Nat → Nat) (S : World → World → Prop) (R : α → β → Prop) (x : Action World α)
    (y : Action World β) : Prop :=
  ∀ w w', S w w' → Retold ρ S R (x w) (y w')

namespace Retells

theorem pure {a : α} {b : β} (h : R a b) :
    Retells ρ S R (Pure.pure a : Action World α) (Pure.pure b : Action World β) :=
  fun _ _ hw => .value h hw

theorem fail (e : Failure) :
    Retells ρ S R (Action.fail e : Action World α) (Action.fail (e.rename ρ) : Action World β) :=
  fun _ _ hw => .failure e hw

theorem reported (e : Failure) :
    Retells ρ S R (Action.fail e.reported : Action World α)
      (Action.fail (e.rename ρ).reported : Action World β) := by
  rw [Failure.reported_rename]
  exact fail _

theorem exhausted :
    Retells ρ S R (Action.exhausted : Action World α) (Action.exhausted : Action World β) :=
  fun _ _ _ => .exhausted

theorem bind {x : Action World α} {y : Action World β} {f : α → Action World γ}
    {g : β → Action World δ} (hx : Retells ρ S R x y)
    (hf : ∀ a b, R a b → Retells ρ S Q (f a) (g b)) : Retells ρ S Q (x >>= f) (y >>= g) := by
  intro w w' hw
  have ho := hx w w' hw
  rw [bind_apply, bind_apply]
  -- only values go on, and both outcomes are one or none is
  match x w, y w', ho with
  | _, _, .value h hw => exact hf _ _ h _ _ hw
  | _, _, .failure e hw => exact .failure e hw
  | _, _, .exhausted => exact .exhausted

theorem ofExcept {x : Except Failure α} {y : Except Failure β} (h : Renames ρ R x y) :
    Retells ρ S R (Action.ofExcept x) (Action.ofExcept y) := by
  cases h with
  | ok h => exact pure h
  | error e => exact fail e

end Retells

end Action

open TermCalc.Action (Retells)

section Runs

variable {ρ : Nat → Nat} {w₀ w₀' : World}

/-- A value that has been computed gets the mark of the other run, renamed. -/
theorem retells_settle (t : Term) :
    Retells ρ (World.Beside ρ w₀ w₀') (Renamed ρ) (settle t) (settle (t.rename ρ)) := by
  by_cases hnum : ∃ n, t = .num n
  · obtain ⟨n, rfl⟩ := hnum
    rw [Term.rename, settle_num, settle_num, Num.isFresh_rename]
    split
    · rename_i hfresh
      have hfresh' : (n.rename ρ).isFresh = true := by rw [Num.isFresh_rename, hfresh]
      intro w w' hw
      have hnext : ρ w.marks = w'.marks := hw.marks 0
      have hmark : (Term.num (.nan w.marks)).rename ρ = .num (.nan w'.marks) := by
        rw [Term.rename, Num.rename, hnext]
      simp only [Action.inWorld, HasWorld.world, HasWorld.withWorld, id,
        World.adopt_of_isFresh hfresh, World.adopt_of_isFresh hfresh']
      exact .value hmark.symm hw.succ
    · exact .pure rfl
  · have hnum' : ∀ n, t.rename ρ ≠ .num n := by
      intro n hn
      cases t with
      | num m => exact hnum ⟨m, rfl⟩
      | _ => cases hn
    rw [settle_of_not_num (not_exists.1 hnum), settle_of_not_num hnum']
    exact .pure rfl

variable {S : World → World → Prop} {ev ev' : Evaluator World} {ts : List Term}

theorem retells_condition {t : Term} (ht : Retells ρ S (Renamed ρ) (ev t) (ev' (t.rename ρ))) :
    Retells ρ S Eq (condition ev t) (condition ev' (t.rename ρ)) := by
  refine ht.bind ?_
  rintro v _ rfl
  exact .ofExcept (renames_truthArg ρ v)

section

variable (hev : ∀ t ∈ ts, Retells ρ S (Renamed ρ) (ev t) (ev' (t.rename ρ)))
include hev

theorem retells_conjunction : Retells ρ S (Renamed ρ) (conjunction ev ts)
    (conjunction ev' (ts.map (Term.rename ρ))) := by
  induction ts with
  | nil => exact .pure rfl
  | cons t ts ih =>
    refine (retells_condition (hev t (by simp))).bind ?_
    rintro b _ rfl
    cases b with
    | true => exact ih fun u hu => hev u (by simp [hu])
    | false => exact .pure rfl

theorem retells_disjunction : Retells ρ S (Renamed ρ) (disjunction ev ts)
    (disjunction ev' (ts.map (Term.rename ρ))) := by
  induction ts with
  | nil => exact .pure rfl
  | cons t ts ih =>
    refine (retells_condition (hev t (by simp))).bind ?_
    rintro b _ rfl
    cases b with
    | true => exact .pure rfl
    | false => exact ih fun u hu => hev u (by simp [hu])

theorem retells_sequence (last : Term) : Retells ρ S (Renamed ρ) (sequence ev last ts)
    (sequence ev' (last.rename ρ) (ts.map (Term.rename ρ))) := by
  induction ts generalizing last with
  | nil => exact .pure rfl
  | cons t ts ih =>
    refine (hev t (by simp)).bind ?_
    rintro v _ rfl
    exact ih (fun u hu => hev u (by simp [hu])) v

theorem retells_branch : Retells ρ S (Renamed ρ) (branch ev ts)
    (branch ev' (ts.map (Term.rename ρ))) := by
  match ts with
  | [] => exact .fail .noSuchIndex
  | c :: rest =>
    refine (retells_condition (hev c (by simp))).bind ?_
    rintro b _ rfl
    match b, rest with
    | true, [] => exact .fail .noSuchIndex
    | true, t :: _ => exact hev t (by simp)
    | false, [_, e] => exact hev e (by simp)
    | false, [] => exact .pure rfl
    | false, [_] => exact .pure rfl
    | false, _ :: _ :: _ :: _ => exact .pure rfl

end

theorem retells_loop {c body : Term} (hc : Retells ρ S (Renamed ρ) (ev c) (ev' (c.rename ρ)))
    (hbody : Retells ρ S (Renamed ρ) (ev body) (ev' (body.rename ρ))) (fuel : Nat) :
    Retells ρ S (Renamed ρ) (loop ev c body fuel)
      (loop ev' (c.rename ρ) (body.rename ρ) fuel) := by
  induction fuel with
  | zero => exact .exhausted
  | succ fuel ih =>
    rw [loop_succ, loop_succ]
    refine (retells_condition hc).bind ?_
    rintro b _ rfl
    cases b with
    | true => exact hbody.bind fun _ _ _ => ih
    | false => exact .pure rfl

/-- **Control under other marks**, where all that it may evaluate is the same under them. -/
theorem retells_run_of_isControl (hev : ∀ t ∈ ts, Retells ρ S (Renamed ρ) (ev t) (ev' (t.rename ρ)))
    (r : Registry) (fuel : Nat) {p : Primitive} (hp : CoreTable.isControl p = true) :
    Retells ρ S (Renamed ρ) (p.run r fuel ev ts) (p.run r fuel ev' (ts.map (Term.rename ρ))) := by
  cases p <;> cases hp
  case and => exact retells_conjunction hev
  case or => exact retells_disjunction hev
  case prog => exact retells_sequence hev (.truth true)
  case ifThen => exact retells_branch hev
  case whileDo =>
    match ts with
    | [c, body] => exact retells_loop (hev c (by simp)) (hev body (by simp)) fuel
    | [] => exact .fail .cannotUnpack
    | [_] => exact .fail .cannotUnpack
    | _ :: _ :: _ :: _ => exact .fail .cannotUnpack

/-- The operands of a call, held or evaluated. -/
theorem retells_operandValues (holds : Bool)
    (hev : ∀ t ∈ ts, Retells ρ S (Renamed ρ) (ev t) (ev' (t.rename ρ))) :
    Retells ρ S (fun vs us => us = vs.map (Term.rename ρ) ∧ (holds = true → vs = ts))
      (Registry.operandValues ev holds ts)
      (Registry.operandValues ev' holds (ts.map (Term.rename ρ))) := by
  induction ts with
  | nil => exact .pure ⟨rfl, fun _ => rfl⟩
  | cons t ts ih =>
    have hrest {v : Term} (hv : holds = true → v = t) :
        Retells ρ S (fun vs us => us = vs.map (Term.rename ρ) ∧ (holds = true → vs = t :: ts))
          (Registry.operandValues ev holds ts >>= fun vs => pure (v :: vs))
          (Registry.operandValues ev' holds (ts.map (Term.rename ρ)) >>= fun vs =>
            pure (v.rename ρ :: vs)) := by
      refine (ih fun u hu => hev u (by simp [hu])).bind ?_
      rintro vs _ ⟨rfl, hvs⟩
      refine .pure ⟨rfl, ?_⟩
      intro hholds
      rw [hv hholds, hvs hholds]
    cases holds with
    | true => exact hrest fun _ => rfl
    | false =>
      refine (hev t (by simp)).bind ?_
      rintro v _ rfl
      exact hrest fun hholds => by cases hholds

/-- A primitive that only computes. -/
theorem retells_run_of_compute? (hρ : Function.Injective ρ) (r : Registry) (fuel : Nat)
    {p : Primitive} {compute : List Term → Computed} (hp : p.compute? = some compute)
    (vs : List Term) :
    Retells ρ (World.Beside ρ w₀ w₀') (Renamed ρ) (p.run r fuel ev vs)
      (p.run r fuel ev' (vs.map (Term.rename ρ))) := by
  rw [Primitive.run_of_compute? r fuel hp, Primitive.run_of_compute? r fuel hp]
  refine (Retells.ofExcept (Primitive.renames_compute? vs hρ hp)).bind ?_
  rintro v _ rfl
  exact retells_settle v

/-- **A call of a quiet builtin under other marks.** -/
theorem retells_applyDirect (hρ : Function.Injective ρ) {r : Registry} (hr : r.CallsPrimitives)
    {op : String} (hop : ∀ e, r.lookup op = some e → CoreTable.isQuietEntry e = true)
    (hev : ∀ t ∈ ts, Retells ρ (World.Beside ρ w₀ w₀') (Renamed ρ) (ev t) (ev' (t.rename ρ)))
    (fuel : Nat) :
    Retells ρ (World.Beside ρ w₀ w₀') (Renamed ρ) (r.applyDirect fuel ev op ts)
      (r.applyDirect fuel ev' op (ts.map (Term.rename ρ))) := by
  unfold Registry.applyDirect
  rw [List.length_map]
  cases he : r.lookup op with
  | none => exact .fail (.unknownName op)
  | some entry =>
    have hquiet := hop entry he
    obtain ⟨p, hp⟩ := hr.lookup he
    dsimp only
    split
    · exact .reported (.wrongArity (entry.mismatch ts.length))
    · refine (retells_operandValues entry.flags.holds hev).bind ?_
      rintro vs _ ⟨rfl, hheld⟩
      simp only [Registry.result, hp]
      cases hcompute : p.compute? with
      | some compute => exact retells_run_of_compute? hρ r fuel hcompute vs
      | none =>
        -- the operands are held, and they are quiet
        simp only [CoreTable.isQuietEntry, hp, hcompute, Option.isSome_none, Bool.false_or,
          Bool.and_eq_true] at hquiet
        rw [hheld hquiet.1]
        exact retells_run_of_isControl hev r fuel hquiet.2

end Runs

namespace CoreTable

attribute [local irreducible] coreRegistry

variable {ρ : Nat → Nat} {w₀ w₀' : World}

/-- The value of an atom under other marks. -/
theorem renamed_atomValue {w w' : World} (hw : World.Beside ρ w₀ w₀' w w')
    (hatoms : ∀ name, w₀'.globals.get? name = (w₀.globals.get? name).map (Term.rename ρ))
    (name : String) (pos : Pos) :
    Renamed ρ (w.atomValue name (.atom name pos)) (w'.atomValue name (.atom name pos)) := by
  unfold World.atomValue
  rw [hw.left.globals, hw.right.globals, hatoms]
  split
  · rfl
  · split
    · rfl
    · cases w₀.globals.get? name <;> rfl

/-- **A quiet expression is evaluated alike** in worlds in which atoms have the same values under
other marks. Neither world changes but for the marks that are given. -/
theorem retells_eval (hρ : Function.Injective ρ)
    (hatoms : ∀ name, w₀'.globals.get? name = (w₀.globals.get? name).map (Term.rename ρ))
    (fuel : Nat) {t : Term} (ht : t.isQuiet = true) :
    Retells ρ (World.Beside ρ w₀ w₀') (Renamed ρ) (eval fuel t) (eval fuel (t.rename ρ)) := by
  induction fuel generalizing t with
  | zero => exact .exhausted
  | succ fuel ih =>
    cases t with
    | atom name pos =>
      intro w w' hw
      exact .value (renamed_atomValue hw hatoms name pos) hw
    | form op args pos =>
      rw [Term.isQuiet, Bool.and_eq_true, Term.allQuiet_iff] at ht
      have hop : op ∉ effectNames := by simpa using ht.1
      rw [Term.rename, Term.renameAll_eq_map]
      exact retells_applyDirect hρ callsPrimitives (fun e he => isQuietEntry_of_lookup he hop)
        (fun u hu => ih (ht.2 u hu)) fuel
    | _ => exact .pure rfl

end CoreTable

/-! ### Outcomes -/

/-- The state that an outcome leaves. -/
def Outcome.state? {σ α : Type} : Outcome σ α → Option σ
  | .value _ s | .failure _ s => some s
  | .exhausted => none

/-- What has ended leaves a state. -/
theorem exists_state_of_ends {σ α : Type} {run : Nat → Outcome σ α} {o : Outcome σ α}
    (h : Ends run o) : ∃ s, o.state? = some s := by
  cases o with
  | value a s => exact ⟨s, rfl⟩
  | failure e s => exact ⟨s, rfl⟩
  | exhausted => exact absurd rfl h.1

/-- **The same value or the same failure**, in which the NaNs that have been made since have marks
of their own. The marks below a bound are those that were given before. -/
inductive Outcome.Repeats (bound : Nat) : Outcome Machine Term → Outcome Machine Term → Prop
  | value {ρ : Nat → Nat} (hρ : Function.Injective ρ) (hbelow : ∀ i, i < bound → ρ i = i) (v : Term)
    (m m' : Machine) : Repeats bound (.value v m) (.value (v.rename ρ) m')
  | failure {ρ : Nat → Nat} (hρ : Function.Injective ρ) (hbelow : ∀ i, i < bound → ρ i = i)
    (e : Failure) (m m' : Machine) : Repeats bound (.failure e m) (.failure (e.rename ρ) m')
  | exhausted : Repeats bound .exhausted .exhausted

namespace Outcome.Repeats

variable {bound : Nat} {m : Machine} {o : Outcome Machine Term}

/-- A value in which no NaN has been made since is the very same. -/
theorem eq_value {v : Term} (h : (Outcome.value v m).Repeats bound o)
    (hv : v.marksBelow bound = true) : ∃ m', o = .value v m' := by
  cases h with
  | value hρ hbelow v m m' => exact ⟨m', by rw [Term.rename_of_marksBelow hbelow hv]⟩

/-- A failure has the same wording. -/
theorem eq_failure {e : Failure} (h : (Outcome.failure e m).Repeats bound o) :
    ∃ e' m', o = .failure e' m' ∧ e'.message? = e.message? := by
  cases h with
  | failure hρ hbelow e m m' => exact ⟨_, m', rfl, e.message?_rename _⟩

end Outcome.Repeats

namespace CoreTable

attribute [local irreducible] coreRegistry

variable {t u : Term} {m m' : Machine}

/-- A quiet expression leaves the world as it was, but for marks. -/
theorem since_of_eval (ht : t.isQuiet = true) {fuel : Nat} {w w' : World}
    (hw' : (eval fuel t w).state? = some w') : w.Since w' := by
  have hatoms (name : String) :
      w.globals.get? name = (w.globals.get? name).map (Term.rename id) := by
    cases w.globals.get? name with
    | none => rfl
    | some v => rw [Option.map_some, Term.rename_id]
  have hbeside : World.Beside id w w w w := ⟨.refl w, .refl w, fun _ => rfl⟩
  have hretold := retells_eval Function.injective_id hatoms fuel ht w w hbeside
  generalize eval fuel t w = o at hretold hw'
  generalize eval fuel (t.rename id) w = o' at hretold
  cases hretold with
  | value h hw => cases hw'; exact hw.left
  | failure e hw => cases hw'; exact hw.left
  | exhausted => cases hw'

/-- **What a quiet expression leaves**, value or failure: the stack, the globals and the output as
they were. -/
theorem since_of_ends (ht : t.isQuiet = true) {o : Outcome Machine Term}
    (ho : Ends (fun fuel => coreRegistry.evaluate fuel t m) o) (hm' : o.state? = some m') :
    m'.stack = m.stack ∧ m.world.Since m'.world := by
  obtain ⟨stack, w⟩ := m
  obtain ⟨o', ⟨-, n, hn⟩, rfl⟩ := (coreRegistry.ends_evaluate_iff callsPrimitives).1 ho
  have hrun : eval n t w = o' := hn n (Nat.le_refl n)
  cases o' with
  | value v w' => cases hm'; exact ⟨rfl, since_of_eval ht (by rw [hrun]; rfl)⟩
  | failure e w' => cases hm'; exact ⟨rfl, since_of_eval ht (by rw [hrun]; rfl)⟩
  | exhausted => cases hm'

/-- **A quiet expression is evaluated to the same** wherever no more has happened than that NaNs
have been marked. -/
theorem repeats_evaluate (ht : t.isQuiet = true) (hm : m.world.Marked)
    (htm : t.marksBelow m.world.marks = true) (hsince : m.world.Since m'.world) (fuel : Nat) :
    (coreRegistry.evaluate fuel t m).Repeats m.world.marks (coreRegistry.evaluate fuel t m') := by
  obtain ⟨stack, w⟩ := m
  obtain ⟨stack', w'⟩ := m'
  dsimp only at hm htm hsince ⊢
  have hbelow : ∀ i, i < w.marks → shift w.marks (w'.marks - w.marks) i = i :=
    fun i hi => shift_of_lt hi
  have hρ := shift_injective w.marks (w'.marks - w.marks)
  have hatoms (name : String) : w'.globals.get? name = (w.globals.get? name).map
      (Term.rename (shift w.marks (w'.marks - w.marks))) := by
    rw [hsince.globals]
    cases hv : w.globals.get? name with
    | none => rfl
    | some v => rw [Option.map_some, Term.rename_of_marksBelow hbelow (hm name v hv)]
  have hbeside : World.Beside (shift w.marks (w'.marks - w.marks)) w w' w w' := by
    refine ⟨.refl w, .refl w', ?_⟩
    intro i
    have hmarks := hsince.marks
    rw [shift_add]
    omega
  have hretold := retells_eval hρ hatoms fuel ht w w' hbeside
  rw [Term.rename_of_marksBelow hbelow htm] at hretold
  unfold eval at hretold
  rw [coreRegistry.evaluate_stackless callsPrimitives fuel t stack w,
    coreRegistry.evaluate_stackless callsPrimitives fuel t stack' w']
  generalize coreRegistry.evaluateDirect fuel t w = o at hretold ⊢
  generalize coreRegistry.evaluateDirect fuel t w' = o' at hretold ⊢
  cases hretold with
  | value h hw =>
    cases h
    exact .value hρ hbelow _ _ _
  | failure e hw => exact .failure hρ hbelow e _ _
  | exhausted => exact .exhausted

/-- **A quiet expression ends** wherever it has ended before, in the same outcome. -/
theorem exists_ends_after (ht : t.isQuiet = true) (hm : m.world.Marked)
    (htm : t.marksBelow m.world.marks = true) (hsince : m.world.Since m'.world)
    {o : Outcome Machine Term} (ho : Ends (fun fuel => coreRegistry.evaluate fuel t m) o) :
    ∃ o', Ends (fun fuel => coreRegistry.evaluate fuel t m') o' ∧ o.Repeats m.world.marks o' := by
  refine coreRegistry.exists_ends_of_related callsPrimitives ?_
    (repeats_evaluate ht hm htm hsince) ho
  intro o ho
  cases ho
  rfl

/-- A quiet expression has ended before wherever it ends. -/
theorem exists_ends_before (ht : t.isQuiet = true) (hm : m.world.Marked)
    (htm : t.marksBelow m.world.marks = true) (hsince : m.world.Since m'.world)
    {o' : Outcome Machine Term} (ho' : Ends (fun fuel => coreRegistry.evaluate fuel t m') o') :
    ∃ o, Ends (fun fuel => coreRegistry.evaluate fuel t m) o ∧ o.Repeats m.world.marks o' := by
  refine @Registry.exists_ends_of_related coreRegistry callsPrimitives t t m' m
    (fun o' o => o.Repeats m.world.marks o') ?_ (repeats_evaluate ht hm htm hsince) o' ho'
  intro o ho
  cases ho
  rfl

/-- **Expressions without effects have none.** From every machine such an expression leaves the
stack, the globals and the output as they were, whether it ends in a value or in a failure. So
evaluating it once more gives the same outcome, and two such expressions, evaluated one after the
other, give the same two outcomes in either order. NaNs are told apart by their marks, and for that
no mark may occur before it is given; `Session.Reached.marked` says that none does. -/
theorem quiet_evaluate (ht : t.isQuiet = true) (hu : u.isQuiet = true) :
    (∀ o m', Ends (fun fuel => coreRegistry.evaluate fuel t m) o → o.state? = some m' →
      m'.stack = m.stack ∧ m'.world.globals = m.world.globals ∧
        m'.world.output = m.world.output) ∧
    (m.world.Marked → t.marksBelow m.world.marks = true → u.marksBelow m.world.marks = true →
      (∀ o m', Ends (fun fuel => coreRegistry.evaluate fuel t m) o → o.state? = some m' →
        ∃ o', Ends (fun fuel => coreRegistry.evaluate fuel t m') o' ∧
          o.Repeats m.world.marks o') ∧
      ∀ o₁ m₁ o₂, Ends (fun fuel => coreRegistry.evaluate fuel t m) o₁ → o₁.state? = some m₁ →
        Ends (fun fuel => coreRegistry.evaluate fuel u m₁) o₂ →
        ∃ o₂' m₂ o₁', Ends (fun fuel => coreRegistry.evaluate fuel u m) o₂' ∧
          o₂'.state? = some m₂ ∧ Ends (fun fuel => coreRegistry.evaluate fuel t m₂) o₁' ∧
          o₁.Repeats m.world.marks o₁' ∧ o₂'.Repeats m.world.marks o₂) := by
  refine ⟨?_, ?_⟩
  · intro o m' ho hm'
    obtain ⟨hstack, hsince⟩ := since_of_ends ht ho hm'
    exact ⟨hstack, hsince.globals, hsince.output⟩
  · intro hm htm hum
    refine ⟨?_, ?_⟩
    · intro o m' ho hm'
      exact exists_ends_after ht hm htm (since_of_ends ht ho hm').2 ho
    · intro o₁ m₁ o₂ ho₁ hm₁ ho₂
      -- the second is taken back to where the first began, and the first is put behind it
      obtain ⟨o₂', ho₂', hrepeats⟩ := exists_ends_before hu hm hum (since_of_ends ht ho₁ hm₁).2 ho₂
      obtain ⟨m₂, hm₂⟩ := exists_state_of_ends ho₂'
      obtain ⟨o₁', ho₁', hrepeats'⟩ := exists_ends_after ht hm htm (since_of_ends hu ho₂' hm₂).2 ho₁
      exact ⟨o₂', m₂, o₁', ho₂', hm₂, ho₁', hrepeats', hrepeats⟩

/-- Two lists, where an atom has a NaN for a value. -/
theorem quiet_evaluate_lists :
    let m : Machine := ⟨.empty, ⟨⟨[("x", .num (.nan 0))]⟩, ⟨"out", 3⟩, 1⟩⟩
    let t : Term := .form "List" [.atom "x" .none, .numeral (.int 1) .none] .none
    let u : Term := .form "List" [.form "-" [.atom "x" .none] .none, .atom "y" .none] .none
    (t.isQuiet = true ∧ u.isQuiet = true ∧ m.world.Marked ∧
      t.marksBelow m.world.marks = true ∧ u.marksBelow m.world.marks = true) ∧
    (∀ o m', Ends (fun fuel => coreRegistry.evaluate fuel t m) o → o.state? = some m' →
      m'.stack = m.stack ∧ m'.world.globals = m.world.globals ∧
        m'.world.output = m.world.output) ∧
    (∀ o m', Ends (fun fuel => coreRegistry.evaluate fuel t m) o → o.state? = some m' →
      ∃ o', Ends (fun fuel => coreRegistry.evaluate fuel t m') o' ∧ o.Repeats m.world.marks o') ∧
    ∀ o₁ m₁ o₂, Ends (fun fuel => coreRegistry.evaluate fuel t m) o₁ → o₁.state? = some m₁ →
      Ends (fun fuel => coreRegistry.evaluate fuel u m₁) o₂ →
      ∃ o₂' m₂ o₁', Ends (fun fuel => coreRegistry.evaluate fuel u m) o₂' ∧
        o₂'.state? = some m₂ ∧ Ends (fun fuel => coreRegistry.evaluate fuel t m₂) o₁' ∧
        o₁.Repeats m.world.marks o₁' ∧ o₂'.Repeats m.world.marks o₂ := by
  intro m t u
  have ht : t.isQuiet = true := by decide
  have hu : u.isQuiet = true := by decide
  have htm : t.marksBelow m.world.marks = true := by decide
  have hum : u.marksBelow m.world.marks = true := by decide
  have hm : m.world.Marked := by
    intro name v hv
    by_cases hname : name = "x"
    · subst hname
      cases hv
      rfl
    · have hother : (name == "x") = false := by simpa using hname
      simp [m, Globals.get?, List.lookup_cons, hother] at hv
  obtain ⟨hframe, hruns⟩ := quiet_evaluate (m := m) ht hu
  exact ⟨⟨ht, hu, hm, htm, hum⟩, hframe, hruns hm htm hum⟩

end CoreTable

end TermCalc
