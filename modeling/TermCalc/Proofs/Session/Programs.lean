import TermCalc.Proofs.Evaluation.Sequencing

/-!
# Texts of expressions as programs

The text that an expression is printed as is a source of one statement. It is evaluated as the
expression is, wherever the parser puts that.

* `Legible.unplaced_eq`: legible expressions of the same structure differ only in places.
* `Session.evaluate_layout`: **to evaluate the text of an expression is to evaluate the
  expression.** `Session.evaluate_operation`: the text of an operation on two numbers.
-/

namespace TermCalc

theorem Term.unplacedAll_eq_of_forall₂ {R : Term → Term → Prop} {us ts : List Term}
    (h : List.Forall₂ R us ts)
    (hR : ∀ u ∈ us, ∀ t ∈ ts, R u t → u.unplaced = t.unplaced) :
    unplacedAll us = unplacedAll ts := by
  induction h with
  | nil => rfl
  | @cons u t us ts hut _ ih =>
    have hhead := hR u (by simp) t (by simp) hut
    have htail := ih fun u hu t ht => hR u (by simp [hu]) t (by simp [ht])
    simp only [unplacedAll, hhead, htail]

/-- **Legible expressions of the same structure differ only in places**: their numbers are integers,
and equality leaves nothing else open. -/
theorem Legible.unplaced_eq {t u : Term} (ht : Legible t) (hu : Legible u)
    (h : u.sameStructure t = true) : u.unplaced = t.unplaced := by
  induction ht generalizing u with
  | atom =>
    cases hu with
    | atom =>
      obtain rfl := by simpa [Term.sameStructure, Term.matches?] using h
      rfl
    | _ => simp [Term.sameStructure, Term.matches?] at h
  | numeral =>
    obtain ⟨pos, rfl⟩ := hu.eq_numeral h
    rfl
  | text =>
    cases hu with
    | text =>
      obtain rfl := by simpa [Term.sameStructure, Term.matches?] using h
      rfl
    | _ => simp [Term.sameStructure, Term.matches?] at h
  | form _ _ _ ih =>
    obtain ⟨ys, pos, rfl, hys, hargs⟩ := hu.eq_form h
    have hmap := Term.unplacedAll_eq_of_forall₂ hargs fun y hy a ha => ih a ha (hys y hy)
    simp only [Term.unplaced, hmap]

theorem Legible.isDefinite {t : Term} (h : Legible t) : t.isDefinite = true := by
  induction h with
  | numeral => simp [Term.isDefinite, Num.equal]
  | @form _ args _ _ _ _ ih =>
    have hall : Term.allDefinite args = true := by
      clear * - ih
      induction args with
      | nil => rfl
      | cons a args ihargs =>
        simp [Term.allDefinite, ih a (by simp), ihargs fun b hb => ih b (by simp [hb])]
    exact hall
  | _ => rfl

variable {t : Term} {ps : List Piece}

/-- The text of an expression is parsed as the expression, but for places. -/
theorem Written.parse_alike (h : Written coreRegistry loosest t ps) (ht : Legible t)
    (hu : Uncaptured t) (file : String) :
    ∃ u, (coreParser file).parse (String.ofList (layout ps)) = .ok [u] ∧ u.Alike t := by
  obtain ⟨u, hparse, hsame⟩ := h.parse_layout file
  have hlegible := h.legible_of_parse hparse
  exact ⟨u, hparse, .of_unplaced hlegible.isDefinite (ht.unplaced_eq hlegible (hsame.2 hu))⟩

namespace Session

/-- One statement is evaluated without a stack, in the world of the session. -/
theorem outcomes_evaluateAll {s : Session} (hr : s.registry.CallsPrimitives) (fuel : Nat)
    {t : Term} (ht : Term.allWritable [t] = true) :
    Outcomes (fun s₁ w => s₁.registry = s.registry ∧ s₁.machine.world = w) Eq
      (evaluateAll fuel [t] s) (s.registry.evaluateDirect fuel t s.machine.world) := by
  obtain ⟨notes, hnotes⟩ := evaluateAll_singleton ht fuel s
  have hstack := s.registry.evaluate_stackless hr fuel t s.machine.stack s.machine.world
  have hmachine : s.registry.evaluate fuel t s.machine = _ := hstack
  simp only [hnotes, onMachine, hmachine]
  cases s.registry.evaluateDirect fuel t s.machine.world with
  | value v w => exact .value rfl ⟨rfl, rfl⟩
  | failure e w => exact .failure e ⟨rfl, rfl⟩
  | exhausted => exact .exhausted

/-- **To evaluate the text of an expression is to evaluate the expression.** -/
theorem evaluate_layout {s : Session} (hs : s.registry = coreRegistry)
    (h : Written coreRegistry loosest t ps) (ht : Legible t) (hu : Uncaptured t) (fuel : Nat)
    (file : String) :
    Outcomes (fun s₁ w => s₁.registry = coreRegistry ∧ s₁.machine.world.Alike w) Term.Alike
      ((parse (String.ofList (layout ps)) file >>= evaluateAll fuel) s)
      (coreRegistry.evaluateDirect fuel t s.machine.world) := by
  -- what is parsed may stand at other places, to which evaluation is blind
  obtain ⟨u, hparse, halike⟩ := h.parse_alike ht hu file
  obtain ⟨notes, hnotes⟩ := @parse_of_ok s _ file [u] (by rw [hs]; exact hparse)
  have hr := Registry.build_callsPrimitives build_coreDeclarations
  have hsession := @outcomes_evaluateAll { s with notes := notes } (hs ▸ hr) fuel u
    (Parser.allWritable_of_parse hparse)
  have hblind := Registry.blind_evaluateDirect (hs ▸ hr) fuel u t halike s.machine.world _ (.refl _)
  rw [Action.bind_apply, hnotes, ← hs]
  refine hsession.trans hblind ?_ fun v v' v'' hv hv' => hv ▸ hv'
  rintro s₁ w w' ⟨hregistry, rfl⟩ hw
  exact ⟨hregistry, hw⟩

/-- The text of an operation on two numbers. -/
theorem evaluate_operation {s : Session} (hs : s.registry = coreRegistry) {op : Operator}
    (hop : coreRegistry.operatorOf? op.name 2 = some op) (hfixity : op.fixity = .infixed)
    (hprecedence : 0 < op.precedence) {m n : Nat} (hm : m < Num.digitBound)
    (hn : n < Num.digitBound) (fuel : Nat) (file : String) :
    Outcomes (fun s₁ w => s₁.registry = coreRegistry ∧ s₁.machine.world.Alike w) Term.Alike
      ((parse (String.ofList (layout [.digits m, .space, .word op.name, .space, .digits n])) file
        >>= evaluateAll fuel) s)
      (coreRegistry.evaluateDirect fuel
        (.form op.name [.numeral (.int m) .none, .numeral (.int n) .none] .none)
        s.machine.world) := by
  have hmem := (Registry.operatorOf?_eq_some hop).1
  have hnot := CoreTable.name_ne_not hmem (.inl hfixity)
  refine evaluate_layout hs
    (.infixed hop hfixity (CoreTable.precedence_bounds hmem).2
      (.numeral (by omega) hm) (.numeral (by omega) hn))
    (.form (CoreTable.spelling_of_mem hmem) (by simp) fun a ha => ?_)
    (.form (fun a ha => ?_) fun h => absurd h hnot) fuel file
  · rcases List.mem_pair.1 ha with rfl | rfl
    · exact .numeral hm
    · exact .numeral hn
  · rcases List.mem_pair.1 ha with rfl | rfl <;> exact .numeral

/-- A builtin of two operands, applied to numbers. -/
theorem evaluateDirect_operation {r : Registry} {name : String} {e : Entry} {p : Primitive}
    (he : r.lookup name = some e) (hp : e.implementation = .primitive p)
    (haccepts : e.accepts 2 = true) (hholds : e.flags.holds = false) (fuel : Nat) (a b : Num) :
    r.evaluateDirect (fuel + 2) (.form name [.numeral a .none, .numeral b .none] .none) =
      p.run r (fuel + 1) (r.evaluateDirect (fuel + 1)) [.num a, .num b] := by
  have happly : r.applyDirect (fuel + 1) (r.evaluateDirect (fuel + 1)) name
      [.numeral a .none, .numeral b .none] = _ := r.applyDirect_accepted _ he hp haccepts
  rw [hholds] at happly
  exact happly

theorem evaluate_division {s : Session} (hs : s.registry = coreRegistry) (file : String) :
    ∃ s', (parse "1 / 0" file >>= evaluateAll 3) s = .failure .divisionByZero s' ∧
      s'.pending = s.pending := by
  have hop : coreRegistry.operatorOf? "/" 2 = some ⟨.infixed, 30, "/", 2⟩ := by
    simp only [Registry.operatorOf?, Registry.operator?, CoreTable.operators_eq]
    decide
  have hlookup : coreRegistry.lookup "/" = some ⟨"/", .primitive .divide, 2, .fixed, none⟩ := by
    rw [Registry.lookup, CoreTable.entries_eq]
    rfl
  have houtcomes := @evaluate_operation s hs ⟨.infixed, 30, "/", 2⟩ hop rfl (by decide)
    1 0 (Num.lt_digitBound (by decide)) (Num.lt_digitBound (by decide)) 3 file
  rw [evaluateDirect_operation hlookup rfl rfl rfl] at houtcomes
  obtain ⟨s', hs', -, hworld⟩ := houtcomes.eq_failure (e := .divisionByZero)
  exact ⟨s', hs', congrArg Buffer.text hworld.output⟩

end Session

end TermCalc
