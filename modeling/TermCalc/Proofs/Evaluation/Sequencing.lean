import TermCalc.Proofs.Evaluation.Blindness
import TermCalc.Proofs.Evaluation.Values
import TermCalc.Proofs.Syntax.Joining

/-!
# Joining sources is sequencing

To evaluate a source with another one behind it, on a new line and after a semicolon, is to evaluate
the one and then the other.

* `Session.Agree`: sessions that differ at most in their notes and in the places of expressions.
* `Session.evaluateFrom_append`: statements are evaluated in order.
* `Session.Alike.evaluateFrom`: evaluation of statements is blind to places.
* `Session.evaluateBoth`: one source after the other.
* `Session.evaluate_joined`: **the statements and the outcome of joined sources.**
-/

namespace TermCalc

namespace Session

/-! ### Sessions -/

/-- Sessions in which the same matters, over a registry that calls nothing but primitives. -/
structure Alike (s s' : Session) : Prop where
  primitives : s.registry.CallsPrimitives
  registry : s.registry = s'.registry
  verbose : s.verbose = s'.verbose
  stack : s.machine.stack = s'.machine.stack
  world : s.machine.world.Alike s'.machine.world

/-- **Sessions that differ at most in their notes and in the places of expressions.** -/
structure Agree (s s' : Session) : Prop where
  registry : s.registry = s'.registry
  verbose : s.verbose = s'.verbose
  stack : s.machine.stack = s'.machine.stack
  globals (name : String) : (s.machine.world.globals.get? name).map Term.unplaced =
    (s'.machine.world.globals.get? name).map Term.unplaced
  output : s.machine.world.output = s'.machine.world.output
  marks : s.machine.world.marks = s'.machine.world.marks

variable {s s' : Session}

theorem Alike.agree (h : s.Alike s') : s.Agree s' where
  registry := h.registry
  verbose := h.verbose
  stack := h.stack
  globals name := by
    have hname := congrArg (Option.map Term.unplaced) (h.world.globals name)
    simpa [Option.map_map, Function.comp_def] using hname
  output := h.world.output
  marks := h.world.marks

/-- Notes do not matter. -/
theorem Alike.withNotes (h : s.Alike s') (notes notes' : List String) :
    Alike { s with notes := notes } { s' with notes := notes' } :=
  ⟨h.primitives, h.registry, h.verbose, h.stack, h.world⟩

/-! ### Statements -/

/-- **Statements are evaluated in order.** -/
theorem evaluateFrom_append (fuel : Nat) (last : Term) (ts us : List Term) :
    evaluateFrom fuel last (ts ++ us) =
      evaluateFrom fuel last ts >>= fun v => evaluateFrom fuel v us := by
  induction ts generalizing last with
  | nil => rfl
  | cons t ts ih => simp only [List.cons_append, evaluateFrom, ih, bind_assoc]

/-- **Evaluation of statements is blind to places.** -/
theorem Alike.evaluateFrom (hs : s.Alike s') (fuel : Nat) {ts us : List Term}
    (h : List.Forall₂ Term.Alike ts us) {last last' : Term} (hlast : last.Alike last') :
    Outcomes (fun s₁ s₁' => s₁.Alike s₁' ∧ s₁'.registry = s'.registry) Term.Alike
      (Session.evaluateFrom fuel last ts s) (Session.evaluateFrom fuel last' us s') := by
  have hsteps := (laws_blindness hs.primitives).steps_evaluateFrom fuel h hlast
  refine (hsteps s s' ⟨rfl, hs.registry.symm, hs.verbose, hs.stack, hs.world⟩).1.mono ?_
    fun _ _ h => h
  exact fun s₁ s₁' h => ⟨⟨h.left ▸ hs.primitives, h.left.trans h.right.symm, h.verbose, h.stack,
    h.world⟩, h.right.trans hs.registry⟩

/-! ### Two sources -/

/-- **Evaluate one source and then, if that did not fail, another.** The value is that of the second
source, or that of the first where the second has no statements. -/
def evaluateBoth (fuel : Nat) (source₁ source₂ file : String) : Action Session Term := do
  let v ← parse source₁ file >>= evaluateAll fuel
  let ts ← parse source₂ file
  let w ← evaluateAll fuel ts
  pure (if ts.isEmpty then v else w)

/-- The value of statements, or what it is without any. -/
theorem evaluateFrom_eq (fuel : Nat) (v : Term) (ts : List Term) : Session.evaluateFrom fuel v ts =
    (evaluateAll fuel ts >>= fun w => pure (if ts.isEmpty then v else w)) := by
  cases ts with
  | nil => rfl
  | cons t ts => exact (bind_pure _).symm

variable {file source₁ source₂ : String} {ts₁ ts₂ : List Term}

/-- The second source, after statements that gave a value. -/
theorem evaluateBoth_rest (h : (Parser.mk s.registry file).parse source₂ = .ok ts₂) (fuel : Nat)
    (v : Term) : ∃ notes,
      (parse source₂ file >>= fun ts => evaluateAll fuel ts >>= fun w =>
        pure (if ts.isEmpty then v else w)) s =
      Session.evaluateFrom fuel v ts₂ { s with notes := notes } := by
  obtain ⟨notes, hparse⟩ := parse_of_ok h
  refine ⟨notes, ?_⟩
  rw [evaluateFrom_eq, Action.bind_apply, hparse]
  rfl

/-- One source after the other is all statements in order, but for the notes. -/
theorem Alike.evaluateBoth (hs : s.Alike s')
    (h₁ : (Parser.mk s'.registry file).parse source₁ = .ok ts₁)
    (h₂ : (Parser.mk s'.registry file).parse source₂ = .ok ts₂) (fuel : Nat) {us₁ us₂ : List Term}
    (hus₁ : List.Forall₂ Term.Alike us₁ ts₁) (hus₂ : List.Forall₂ Term.Alike us₂ ts₂) :
    Outcomes Alike Term.Alike (evaluateAll fuel (us₁ ++ us₂) s)
      (Session.evaluateBoth fuel source₁ source₂ file s') := by
  -- the first source, parsed in a session with other notes
  obtain ⟨notes, hparse₁⟩ := parse_of_ok h₁
  have hfirst := (hs.withNotes s.notes notes).evaluateFrom fuel hus₁ (Term.Alike.refl .nothing)
  rw [evaluateAll, evaluateFrom_append, Action.bind_apply, Session.evaluateBoth, Action.bind_apply,
    Action.bind_apply, hparse₁]
  refine hfirst.andThen (fun _ _ h => h.1) fun v w s₁ s₁' hv hs₁ => ?_
  -- the second source, in the session that the first one leaves
  obtain ⟨notes', hrest⟩ := evaluateBoth_rest (hs₁.2 ▸ h₂) fuel w
  rw [hrest]
  exact ((hs₁.1.withNotes s₁.notes notes').evaluateFrom fuel hus₂ hv).mono (fun _ _ h => h.1)
    fun _ _ h => h

/-- **Joining sources is sequencing.** Where two sources can be parsed, so can the second behind the
first, on a new line and after a semicolon: to the statements of the first and then those of the
second. They are evaluated as the one source and then the other. -/
theorem evaluate_joined {ds : List Declaration} (hr : Registry.build ds = .ok s.registry)
    (file : String) (h₁ : (Parser.mk s.registry file).parse source₁ = .ok ts₁)
    (h₂ : (Parser.mk s.registry file).parse source₂ = .ok ts₂) :
    ∃ ts, (Parser.mk s.registry file).parse (source₁ ++ "\n;" ++ source₂) = .ok ts ∧
      List.Forall₂ (fun t u => t.sameStructure u = true) ts (ts₁ ++ ts₂) ∧
      ∀ fuel, Outcomes Agree (fun v w => v.unplaced = w.unplaced)
        ((parse (source₁ ++ "\n;" ++ source₂) file >>= evaluateAll fuel) s)
        (evaluateBoth fuel source₁ source₂ file s) := by
  obtain ⟨us₁, us₂, hparse, hus₁, hus₂⟩ := Parser.parse_append h₁ h₂
  have hdefinite := Parser.definite_of_parse hparse
  refine ⟨us₁ ++ us₂, hparse, ?_, fun fuel => ?_⟩
  · exact Term.Alike.all_sameStructure (Term.Alike.all_symm (List.rel_append hus₁ hus₂)) hdefinite
  · obtain ⟨notes, hnotes⟩ := parse_of_ok hparse
    have hs : Alike { s with notes := notes } s :=
      ⟨Registry.build_callsPrimitives hr, rfl, rfl, rfl, .refl _⟩
    rw [Action.bind_apply, hnotes]
    exact (hs.evaluateBoth h₁ h₂ fuel (Term.Alike.all_symm hus₁) (Term.Alike.all_symm hus₂)).mono
      (fun _ _ h => h.agree) fun _ _ h => h.unplaced

/-- An assignment can be parsed, and the atom that it gives a value. -/
theorem parse_assignment (file : String) :
    ∃ t u, (Parser.mk coreRegistry file).parse "a := 1" = .ok [t] ∧
      (Parser.mk coreRegistry file).parse "a" = .ok [u] := by
  have hoperator : coreRegistry.operatorOf? ":=" 2 = some ⟨.infixed, 10000, ":=", 16⟩ := by
    simp only [Registry.operatorOf?, Registry.operator?, CoreTable.operators_eq]
    decide
  have hatom {d : Int} (hd : 0 ≤ d) : Written coreRegistry d (.atom "a" .none) [.word "a"] :=
    .atom hd (by decide) (CoreTable.operator?_prefixed_of_isName (by decide) (by decide))
  have hone : Written coreRegistry 9999 (.numeral (.int 1) .none) [.digits 1] :=
    .numeral (by decide) (Num.lt_digitBound (by decide))
  have hassign := @Written.infixed coreRegistry loosest ⟨.infixed, 10000, ":=", 16⟩ _ _ _ _ .none
    hoperator rfl (by decide) (hatom (by decide)) hone
  obtain ⟨t, h₁, -⟩ := hassign.parse_layout file
  obtain ⟨u, h₂, -⟩ := (hatom (by decide) : Written _ loosest _ _).parse_layout file
  exact ⟨t, u, h₁, h₂⟩

/-- An assignment, and the atom that it gives a value, in a session with globals and output. -/
theorem evaluate_joined_assignment :
    let s : Session := ⟨coreRegistry,
      ⟨.empty, ⟨⟨[("a", .atom "b" .none), ("b", .num (.int 2))]⟩, ⟨"out", 3⟩, 0⟩⟩, true, []⟩
    Registry.build coreDeclarations = .ok s.registry ∧
      ∃ ts₁ ts₂, (Parser.mk s.registry "f").parse "a := 1" = .ok ts₁ ∧
        (Parser.mk s.registry "f").parse "a" = .ok ts₂ ∧
        ∃ ts, (Parser.mk s.registry "f").parse ("a := 1" ++ "\n;" ++ "a") = .ok ts ∧
          List.Forall₂ (fun t u => t.sameStructure u = true) ts (ts₁ ++ ts₂) ∧
          ∀ fuel, Outcomes Agree (fun v w => v.unplaced = w.unplaced)
            ((parse ("a := 1" ++ "\n;" ++ "a") "f" >>= evaluateAll fuel) s)
            (evaluateBoth fuel "a := 1" "a" "f" s) := by
  intro s
  obtain ⟨t, u, h₁, h₂⟩ := parse_assignment "f"
  exact ⟨build_coreDeclarations, _, _, h₁, h₂, evaluate_joined build_coreDeclarations "f" h₁ h₂⟩

end Session

end TermCalc
