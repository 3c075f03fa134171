import TermCalc.Proofs.Evaluation.Safety
import TermCalc.Proofs.Session.Programs
import TermCalc.Proofs.Syntax.Faults
import TermCalc.Proofs.Term.Equivalence

/-!
# What a session can end in

Sources are run one after the other over the core table, and some of the runs may have failed. What
is assigned is always proper, so that the next source, whatever it is, fails in no way but those
that are meant.

* `Session.Reached`: the sessions that runs lead to.
* `Session.steps_run`: **a run keeps a session proper and fails only as it is meant to.**
* `Session.Reached.isComparable`: what sources evaluate to can be compared.
* `Session.reports_of_reached`: **so do all sessions, and each stage of a run in fewer ways.**
-/

namespace TermCalc

namespace Session

/-- **Sessions over a registry that have run sources**, with success or not. -/
inductive Reached (r : Registry) : Session → Prop
  | start (verbose : Bool) : Reached r (start r verbose)
  | value {s s' : Session} {fuel : Nat} {source file text : String} :
      Reached r s → run fuel source file s = .value text s' → Reached r s'
  | failure {s s' : Session} {fuel : Nat} {source file : String} {e : Failure} :
      Reached r s → run fuel source file s = .failure e s' → Reached r s'

/-! ### One run -/

section

attribute [local irreducible] coreRegistry

/-- What a source evaluates to: a proper term, or nothing where there are no statements. -/
def Shown (p : Parser) (source : String) (v : Term) : Prop :=
  v.isProper = true ∨ v = .nothing ∧ p.parse source = .ok []

/-- **Reading and evaluating a source** gives what can be shown. -/
theorem steps_evaluate (fuel : Nat) (source file : String) :
    safety.Steps coreRegistry (fun v w => v = w ∧ Shown ⟨coreRegistry, file⟩ source v)
      (parse source file >>= evaluateAll fuel) (parse source file >>= evaluateAll fuel) := by
  refine .bind (Lockstep.steps_parse fun e he =>
    Failure.reportable_of_ofReading (Parser.ofReading_of_parse he)) ?_
  rintro ts _ ⟨rfl, hparse⟩
  have htrees := Term.allTrees_of_allDefinite (Parser.definite_of_parse hparse)
  have hts : List.Forall₂ safety.terms ts ts :=
    safety_self.2 ⟨rfl, fun t ht => Term.isProper_of_isTree (Term.allTrees_iff.1 htrees t ht)⟩
  cases hts with
  -- without statements the value is the missing one, which is never printed
  | nil => exact .pure ⟨rfl, .inr ⟨rfl, hparse⟩⟩
  | cons ht hts =>
    have hsteps := laws_safety.steps_evaluateFrom_cons fuel ht .nothing .nothing fun v v' hv =>
      laws_safety.steps_evaluateFrom fuel hts hv
    exact hsteps.mono fun v w hv => ⟨hv.1, .inl hv.2⟩

theorem steps_release : safety.Steps coreRegistry Eq release release := by
  rintro s s' ⟨hleft, hright, hverbose, hstack, hworld, hproper⟩
  have htext : s.machine.world.output.text = s'.machine.world.output.text := by rw [hworld]
  refine ⟨.value htext ⟨hleft, hright, hverbose, hstack, ?_, hproper⟩, fun _ _ he => by cases he⟩
  rw [hworld]

/-- Printing a value fails at most at a number that is too long. -/
theorem tooManyDigits_of_format {v : Term} (hv : v.isProper = true) {e : Failure}
    (h : format coreRegistry v = .error e) : e = .tooManyDigits := by
  obtain ⟨x, hx, htree⟩ := Term.exists_toExpr?_of_isProper hv
  rw [format, hx] at h
  dsimp only at h
  rw [Registry.textOf_of_isTree CoreTable.printable htree] at h
  split at h <;> cases h
  rfl

theorem isNothing_of_isProper {v : Term} (h : v.isProper = true) : isNothing v = false := by
  cases v <;> first | rfl | cases h

theorem steps_deliver {p : Parser} {source : String} {v : Term} (hv : Shown p source v) :
    safety.Steps coreRegistry Eq (deliver v) (deliver v) := by
  refine .bind steps_release ?_
  rintro text _ rfl
  rcases hv with hv | ⟨rfl, -⟩
  · rw [isNothing_of_isProper hv]
    refine .bind (R := fun x y => x = coreRegistry ∧ y = coreRegistry)
      (.read fun _ _ hs => ⟨hs.left, hs.right⟩) ?_
    rintro _ _ ⟨rfl, rfl⟩
    refine .bind (R := Eq) (.ofExcept (.of_eq (fun _ => rfl) rfl) fun e he => ?_) ?_
    · rw [tooManyDigits_of_format hv he]
      rfl
    · rintro shown _ rfl
      exact .pure rfl
  · exact .pure rfl

/-- **A run keeps a session proper**, and fails only as it is meant to. -/
theorem steps_run (fuel : Nat) (source file : String) :
    safety.Steps coreRegistry Eq (run fuel source file) (run fuel source file) := by
  rw [run_eq]
  refine .bind (steps_evaluate fuel source file) ?_
  rintro v _ ⟨rfl, hv⟩
  exact steps_deliver hv

/-- **Sessions over the core table with proper values assigned.** -/
structure Safe (s : Session) : Prop where
  registry : s.registry = coreRegistry
  proper : s.machine.world.Proper

variable {s s' : Session} {fuel : Nat} {source file : String}

theorem Safe.sessions (h : s.Safe) : safety.Sessions coreRegistry s s :=
  ⟨h.registry, h.registry, rfl, rfl, rfl, h.proper⟩

/-- A run that succeeds leaves a session safe. -/
theorem Safe.value (h : s.Safe) {text : String} (hrun : run fuel source file s = .value text s') :
    s'.Safe := by
  obtain ⟨ho, -⟩ := steps_run fuel source file s s h.sessions
  rw [hrun] at ho
  cases ho with
  | value _ hs => exact ⟨hs.left, hs.world.2⟩

/-- A run that fails leaves a session safe, and fails only as it is meant to. -/
theorem Safe.failure (h : s.Safe) {e : Failure} (hrun : run fuel source file s = .failure e s') :
    s'.Safe ∧ e.reportable = true := by
  obtain ⟨ho, hfail⟩ := steps_run fuel source file s s h.sessions
  rw [hrun] at ho
  cases ho with
  | failure _ hs => exact ⟨⟨hs.left, hs.world.2⟩, hfail e s' hrun⟩

/-- **Every session that runs lead to is safe.** -/
theorem Reached.safe (h : Reached coreRegistry s) : s.Safe := by
  induction h with
  | start verbose => exact ⟨rfl, fun _ _ h => by cases h⟩
  | value _ hrun ih => exact ih.value hrun
  | failure _ hrun ih => exact (ih.failure hrun).1

/-! ### Stages -/

/-- Reading fails only at a fault of the source or at a number that is too long. -/
theorem ofReading_of_parse {e : Failure} (h : parse source file s = .failure e s') :
    e.ofReading = true := by
  cases hparse : (Parser.mk s.registry file).parse source with
  | ok ts =>
    obtain ⟨notes, hvalue⟩ := parse_of_ok hparse
    rw [hvalue] at h
    cases h
  | error e' =>
    obtain ⟨notes, hfailure⟩ := parse_of_error hparse
    rw [hfailure] at h
    cases h
    exact Parser.ofReading_of_parse hparse

theorem Safe.shown (h : s.Safe) {v : Term}
    (hv : (parse source file >>= evaluateAll fuel) s = .value v s') :
    s'.registry = coreRegistry ∧ Shown ⟨coreRegistry, file⟩ source v := by
  obtain ⟨ho, -⟩ := steps_evaluate fuel source file s s h.sessions
  rw [hv] at ho
  cases ho with
  | value hv hs => exact ⟨hs.left, hv.2⟩

/-- **What sources evaluate to can be compared**, where no NaN stands in it. -/
theorem Reached.isComparable (h : Reached coreRegistry s) {v : Term}
    (hv : (parse source file >>= evaluateAll fuel) s = .value v s') (hshown : isNothing v = false)
    (hnan : v.nanFree = true) : v.isComparable = true := by
  obtain ⟨-, hproper | ⟨rfl, -⟩⟩ := h.safe.shown hv
  · exact Term.isComparable_iff.2 ⟨hproper, hnan⟩
  · cases hshown

/-- **What a run may fail with**, and each of its stages: reading at a fault of the source or a
number that is too long, a builtin with overflow where its numbers are too large, and printing at a
number that is too long. A power is a number, and its operands have a real power. -/
structure Reports (fuel : Nat) (source file : String) (s : Session) : Prop where
  run {e : Failure} {s' : Session} (h : run fuel source file s = .failure e s') :
    e.reportable = true
  reading {e : Failure} {s' : Session} (h : parse source file s = .failure e s') :
    e.ofReading = true
  overflow {p : Primitive} {compute : List Term → Computed} (hp : p.compute? = some compute)
    {ev : Evaluator Machine} {args : List Term} {m m' : Machine}
    (h : p.run s.registry fuel ev args m = .failure .overflow m') : Overflows p args
  power {ev : Evaluator Machine} {args : List Term} {v : Term} {m m' : Machine}
    (h : Primitive.power.run s.registry fuel ev args m = .value v m') :
    ∃ base exponent n, args = [.num base, .num exponent] ∧ v = .num n ∧
      (base.isNegative = true → exponent.isFractional = false) ∧
      (base.isZero = true → exponent.isNegative = false)
  printing {v : Term} {s' : Session} {e : Failure}
    (hv : (parse source file >>= evaluateAll fuel) s = .value v s') (hnot : isNothing v = false)
    (h : format s'.registry v = .error e) : e = .tooManyDigits

/-- **Nothing but what is meant comes out of a session**, whatever has been run before in it. -/
theorem reports_of_reached (h : Reached coreRegistry s) (fuel : Nat) (source file : String) :
    s.Reports fuel source file where
  run hrun := (h.safe.failure hrun).2
  reading hparse := ofReading_of_parse hparse
  overflow hp _ _ _ _ hrun := Primitive.overflows_of_run hp hrun
  power hrun := Primitive.real_of_run_power hrun
  printing hv hnot hformat := by
    obtain ⟨hregistry, hproper | ⟨rfl, -⟩⟩ := h.safe.shown hv
    · rw [hregistry] at hformat
      exact tooManyDigits_of_format hproper hformat
    · cases hnot

end

/-- A session in which a division has failed. -/
theorem reports_of_reached_division : ∃ s,
    run 3 "1 / 0" "f" (start coreRegistry false) = .failure .divisionByZero s ∧
      Reached coreRegistry s ∧ s.Reports 9 "Write(a); 10 ^ 5000" "f" := by
  have hregistry : (start coreRegistry false).registry = coreRegistry := by simp only [start]
  obtain ⟨s, hs, -⟩ := evaluate_division hregistry "f"
  have hrun : run 3 "1 / 0" "f" (start coreRegistry false) = .failure .divisionByZero s := by
    rw [run_eq, Action.bind_apply, hs]
    rfl
  have hreached : Reached coreRegistry s := .failure (.start false) hrun
  exact ⟨s, hrun, hreached, reports_of_reached hreached 9 _ _⟩

end Session

end TermCalc
