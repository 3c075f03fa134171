import TermCalc.Proofs.Evaluation.Lockstep
import TermCalc.Proofs.Evaluation.Stackless
import TermCalc.Session

/-!
# Sessions in step

A relation that is kept by the parts of an evaluation is kept by a session that reads a source and
evaluates its statements one after the other. Notes do not matter to it.

* `Session.parse_of_ok`, `Session.parse_of_error`: a session parses with its registry.
* `Session.evaluateFrom_cons`: a statement that can be shown is evaluated.
* `Session.deliver`, `Session.run_eq`: the stages of a run.
* `Lockstep.Sessions`, `Lockstep.Steps`: sessions in related worlds, and actions that keep them so.
* `Lockstep.steps_parse`, `Lockstep.Laws.steps_evaluateFrom`: **reading and evaluating keep the
  relation.**
-/

namespace TermCalc

namespace Session

variable {s : Session} {source file : String}

theorem exists_note (text : String) (s : Session) :
    ∃ notes, note text s = { s with notes := notes } := by
  unfold note
  split
  · exact ⟨_, rfl⟩
  · exact ⟨s.notes, rfl⟩

/-- A session parses a source with its registry, and changes nothing but its notes. -/
theorem parse_of_ok {ts : List Term} (h : (Parser.mk s.registry file).parse source = .ok ts) :
    ∃ notes, parse source file s = .value ts { s with notes := notes } := by
  obtain ⟨tokens, htokens, hparse⟩ := bind_eq_ok_iff.1 h
  obtain ⟨trees, htrees, hterms⟩ := bind_eq_ok_iff.1 hparse
  cases hterms
  obtain ⟨notes, hnotes⟩ :=
    exists_note ("Lexed " ++ showInt tokens.length ++ " tokens from " ++ file) s
  obtain ⟨notes', hnotes'⟩ := exists_note ("Parsed " ++ showInt trees.length ++ " statement(s)")
    { s with notes := notes }
  refine ⟨notes', ?_⟩
  simp only [parse, Session.tokens, Action.bind_apply, Action.read, Action.ofExcept, Action.modify,
    Action.pure_apply, Outcome.andThen, htokens, hnotes, htrees, hnotes']

/-- Where a source cannot be parsed, nothing changes but the notes either. -/
theorem parse_of_error {e : Failure} (h : (Parser.mk s.registry file).parse source = .error e) :
    ∃ notes, parse source file s = .failure e { s with notes := notes } := by
  -- cutting the source into tokens fails, or else reading them does, with a note taken
  rcases bind_eq_error_iff.1 h with htokens | ⟨tokens, htokens, h⟩
  · refine ⟨s.notes, ?_⟩
    simp only [parse, Session.tokens, Action.bind_apply, Action.read, Action.ofExcept, Action.fail,
      Outcome.andThen, htokens]
  · obtain ⟨notes, hnotes⟩ :=
      exists_note ("Lexed " ++ showInt tokens.length ++ " tokens from " ++ file) s
    rcases bind_eq_error_iff.1 h with htrees | ⟨trees, -, h⟩
    · refine ⟨notes, ?_⟩
      simp only [parse, Session.tokens, Action.bind_apply, Action.read, Action.ofExcept,
        Action.modify, Action.fail, Action.pure_apply, Outcome.andThen, htokens, hnotes, htrees]
    · cases h

/-- **A statement that can be shown is evaluated**, and then those behind it. -/
theorem evaluateFrom_cons {t : Term} (ht : t.writable = true) (fuel : Nat) (last : Term)
    (ts : List Term) (s : Session) : ∃ notes, evaluateFrom fuel last (t :: ts) s =
      (onMachine (s.registry.evaluate fuel t) >>= fun v => evaluateFrom fuel v ts)
        { s with notes := notes } := by
  obtain ⟨notes, hnotes⟩ := exists_note ("evaluating " ++ t.shown) s
  have hnoted : t.noted = .ok t.shown := if_pos ht
  refine ⟨notes, ?_⟩
  simp only [evaluateFrom, Action.bind_apply, Action.ofExcept, Action.modify, Action.read,
    Action.pure_apply, Outcome.andThen, hnoted, hnotes]

/-- One statement by itself, given that all there are can be shown. -/
theorem evaluateAll_singleton {t : Term} (ht : Term.allWritable [t] = true) (fuel : Nat)
    (s : Session) : ∃ notes, evaluateAll fuel [t] s =
      onMachine (s.registry.evaluate fuel t) { s with notes := notes } := by
  rw [Term.allWritable, Bool.and_eq_true] at ht
  obtain ⟨notes, hnotes⟩ := evaluateFrom_cons ht.1 fuel .nothing [] s
  exact ⟨notes, hnotes.trans (congrFun (bind_pure _) _)⟩

/-- **What a run does with the value of its source**: hand over the output, and print the value. -/
def deliver (value : Term) : Action Session String := do
  let text ← release
  if isNothing value then pure text
  else
    let registry ← Action.read Session.registry
    let shown ← Action.ofExcept (format registry value)
    pure (text ++ shown)

/-- **The stages of a run.** -/
theorem run_eq (fuel : Nat) (source file : String) :
    run fuel source file = (parse source file >>= evaluateAll fuel) >>= deliver := by
  rw [bind_assoc]
  rfl

end Session

namespace Lockstep

variable {L : Lockstep} {r : Registry} {s s' : Session}

/-- **Sessions over a registry in related worlds.** -/
structure Sessions (L : Lockstep) (r : Registry) (s s' : Session) : Prop where
  left : s.registry = r
  right : s'.registry = r
  verbose : s.verbose = s'.verbose
  stack : s.machine.stack = s'.machine.stack
  world : L.worlds s.machine.world s'.machine.world

/-- **Actions that keep sessions in related worlds** and fail only as they may. -/
abbrev Steps (L : Lockstep) (r : Registry) {α β : Type} (R : α → β → Prop) (x : Action Session α)
    (y : Action Session β) : Prop :=
  Action.InStep (L.Sessions r) L.allowed R x y

theorem Sessions.withNotes (h : L.Sessions r s s') (notes notes' : List String) :
    L.Sessions r { s with notes := notes } { s' with notes := notes' } :=
  ⟨h.left, h.right, h.verbose, h.stack, h.world⟩

theorem Sessions.note (h : L.Sessions r s s') (text text' : String) :
    L.Sessions r (s.note text) (s'.note text') := by
  obtain ⟨notes, hnotes⟩ := Session.exists_note text s
  obtain ⟨notes', hnotes'⟩ := Session.exists_note text' s'
  rw [hnotes, hnotes']
  exact h.withNotes notes notes'

/-- **Reading a source** takes both sessions to the same statements, or fails alike. -/
theorem steps_parse {source file : String}
    (hF : ∀ e, (Parser.mk r file).parse source = .error e → L.allowed e) :
    L.Steps r (fun ts us => ts = us ∧ (Parser.mk r file).parse source = .ok ts)
      (Session.parse source file) (Session.parse source file) := by
  intro s s' hs
  cases hparse : (Parser.mk r file).parse source with
  | ok ts =>
    obtain ⟨notes, h⟩ := @Session.parse_of_ok s source file ts (by rw [hs.left]; exact hparse)
    obtain ⟨notes', h'⟩ := @Session.parse_of_ok s' source file ts (by rw [hs.right]; exact hparse)
    rw [h, h']
    exact ⟨.value ⟨rfl, rfl⟩ (hs.withNotes notes notes'), fun _ _ he => by cases he⟩
  | error e =>
    obtain ⟨notes, h⟩ := @Session.parse_of_error s source file e (by rw [hs.left]; exact hparse)
    obtain ⟨notes', h'⟩ := @Session.parse_of_error s' source file e (by rw [hs.right]; exact hparse)
    rw [h, h']
    exact ⟨.failure e (hs.withNotes notes notes'), fun _ _ he => by cases he; exact hF e hparse⟩

namespace Laws

variable (h : L.Laws r r)
include h

/-- Evaluation on the stack keeps the relation, since it is that without a stack. -/
theorem steps_onMachine (fuel : Nat) {t u : Term} (ht : L.terms t u) :
    L.Steps r L.terms (Session.onMachine (r.evaluate fuel t))
      (Session.onMachine (r.evaluate fuel u)) := by
  intro s s' hs
  -- on either side the stack stays, and what happens beside it keeps the relation
  have hstack := r.evaluate_stackless h.callsPrimitives fuel t s.machine.stack s.machine.world
  have hstack' := r.evaluate_stackless h.callsPrimitives fuel u s'.machine.stack s'.machine.world
  obtain ⟨ho, hfail⟩ := h.evaluateDirect fuel ht _ _ hs.world
  unfold Session.onMachine
  rw [show r.evaluate fuel t s.machine = _ from hstack,
    show r.evaluate fuel u s'.machine = _ from hstack']
  match r.evaluateDirect fuel t _, r.evaluateDirect fuel u _, ho, hfail with
  | _, _, .value hv hw, _ =>
    exact ⟨.value hv ⟨hs.left, hs.right, hs.verbose, hs.stack, hw⟩, fun _ _ he => by cases he⟩
  | _, _, .failure e hw, hfail =>
    exact ⟨.failure e ⟨hs.left, hs.right, hs.verbose, hs.stack, hw⟩,
      fun _ _ he => by cases he; exact hfail e _ rfl⟩
  | _, _, .exhausted, _ => exact ⟨.exhausted, fun _ _ he => by cases he⟩

/-- Of two related statements both can be shown, or neither. -/
theorem steps_noted {t u : Term} (ht : L.terms t u) :
    L.Steps r (fun _ _ => True) (Action.ofExcept t.noted) (Action.ofExcept u.noted) := by
  have hwritable : t.writable = u.writable :=
    Term.Alike.apply_eq Term.writable_unplaced (h.alike ht)
  unfold Term.noted
  rw [← hwritable]
  cases t.writable with
  | true => exact .pure trivial
  | false => exact .fail h.tooManyDigits

/-- A statement and then others. What there was before it does not matter. -/
theorem steps_evaluateFrom_cons (fuel : Nat) {R : Term → Term → Prop} {t u : Term}
    (ht : L.terms t u) {ts us : List Term} (last last' : Term)
    (hrest : ∀ v v', L.terms v v' →
      L.Steps r R (Session.evaluateFrom fuel v ts) (Session.evaluateFrom fuel v' us)) :
    L.Steps r R (Session.evaluateFrom fuel last (t :: ts))
      (Session.evaluateFrom fuel last' (u :: us)) := by
  refine .bind (h.steps_noted ht) fun text text' _ => ?_
  refine .bind (.modify fun _ _ hs => hs.note ("evaluating " ++ text) ("evaluating " ++ text'))
    fun _ _ _ => ?_
  refine .bind (R := fun x y => x = r ∧ y = r) (.read fun _ _ hs => ⟨hs.left, hs.right⟩) ?_
  rintro _ _ ⟨rfl, rfl⟩
  exact .bind (h.steps_onMachine fuel ht) hrest

/-- **Evaluating statements keeps the relation.** -/
theorem steps_evaluateFrom (fuel : Nat) {ts us : List Term} (hts : List.Forall₂ L.terms ts us)
    {last last' : Term} (hlast : L.terms last last') :
    L.Steps r L.terms (Session.evaluateFrom fuel last ts)
      (Session.evaluateFrom fuel last' us) := by
  induction hts generalizing last last' with
  | nil => exact .pure hlast
  | cons ht _ ih => exact h.steps_evaluateFrom_cons fuel ht _ _ fun v v' hv => ih hv

end Laws

end Lockstep

end TermCalc
