import TermCalc.Proofs.Evaluation.Framing
import TermCalc.Proofs.Session.Safety

/-!
# The delivery of output

What a program writes is pending until a run hands it over. A run that fails leaves what it wrote
behind what was pending before, for the next run to deliver, with one exception: the output is
handed over before the last value is printed, and is lost where that value cannot be printed.

* `Session.written`: the text that a source writes.
* `Session.outcomes_evaluate`: **it comes behind what is pending**, whatever that is.
* `Session.Unprintable`: the last value of a source cannot be printed.
* `Session.Delivers`, `Session.delivers`: **where the output of a run goes.**
* `Session.Failing`, `Session.Failing.deliver`: **a run delivers what failed runs before it wrote.**
-/

namespace TermCalc

namespace Session

variable {s s' : Session} {fuel : Nat} {source file : String}

/-! ### What a source writes -/

/-- The session with nothing pending. -/
def drained (s : Session) : Session :=
  { s with machine := { s.machine with world := { s.machine.world with output := .empty } } }

/-- What an outcome leaves pending. -/
def left {α : Type} : Outcome Session α → String
  | .value _ s => s.pending
  | .failure _ s => s.pending
  | .exhausted => ""

/-- **The text that a source writes** in a session: what is pending once it has been evaluated, if
nothing was before. -/
def written (fuel : Nat) (source file : String) (s : Session) : String :=
  left ((parse source file >>= evaluateAll fuel) s.drained)

/-- **What a source writes comes behind what is pending**, and makes no difference to anything
else. -/
theorem outcomes_evaluate (hr : s.registry.CallsPrimitives) (fuel : Nat) (source file : String) :
    Outcomes (fun s₀ s₁ => s₁.pending = s.pending ++ s₀.pending ∧ s₁.registry = s.registry) Eq
      ((parse source file >>= evaluateAll fuel) s.drained)
      ((parse source file >>= evaluateAll fuel) s) := by
  have hsteps : (framing s.machine.world.output).Steps s.registry Eq
      (parse source file >>= evaluateAll fuel) (parse source file >>= evaluateAll fuel) := by
    refine .bind (Lockstep.steps_parse fun _ _ => trivial) ?_
    rintro ts _ ⟨rfl, -⟩
    exact (laws_framing hr).steps_evaluateFrom fuel (List.forall₂_same.2 fun _ _ => rfl) rfl
  -- the session is the drained one behind its own output
  have hworld : s.machine.world = s.drained.machine.world.behind s.machine.world.output := by
    simp [drained, World.behind, Buffer.behind, Buffer.empty]
  refine (hsteps s.drained s ⟨rfl, rfl, rfl, rfl, hworld⟩).1.mono ?_ fun _ _ h => h
  intro s₀ s₁ h
  refine ⟨?_, h.right⟩
  have hbehind : s₁.machine.world = s₀.machine.world.behind s.machine.world.output := h.world
  simp only [pending, hbehind, World.behind, Buffer.behind]

theorem pending_of_value (hr : s.registry.CallsPrimitives) {v : Term}
    (h : (parse source file >>= evaluateAll fuel) s = .value v s') :
    s'.pending = s.pending ++ s.written fuel source file ∧ s'.registry = s.registry := by
  have ho := outcomes_evaluate hr fuel source file
  rw [h] at ho
  obtain ⟨_, s₀, hs₀, -, hpending⟩ := ho.eq_value
  rw [written, hs₀]
  exact hpending

theorem pending_of_failure (hr : s.registry.CallsPrimitives) {e : Failure}
    (h : (parse source file >>= evaluateAll fuel) s = .failure e s') :
    s'.pending = s.pending ++ s.written fuel source file := by
  have ho := outcomes_evaluate hr fuel source file
  rw [h] at ho
  obtain ⟨s₀, hs₀, hpending, -⟩ := ho.eq_failure
  rw [written, hs₀]
  exact hpending

/-! ### Where it goes -/

/-- **The last value of a source cannot be printed.** -/
def Unprintable (fuel : Nat) (source file : String) (s : Session) : Prop :=
  ∃ v s₁ e, (parse source file >>= evaluateAll fuel) s = .value v s₁ ∧ isNothing v = false ∧
    format s.registry v = .error e

/-- What `deliver` does: it hands over what is pending, and then prints the value. -/
theorem deliver_eq (v : Term) (s : Session) : deliver v s =
    if isNothing v then .value s.pending s.drained
    else
      match format s.registry v with
      | .ok shown => .value (s.pending ++ shown) s.drained
      | .error e => .failure e s.drained := by
  simp only [deliver, Action.bind_apply, release, Outcome.andThen]
  split
  · rfl
  · simp only [Action.bind_apply, Action.read, Outcome.andThen]
    cases format s.registry v <;> rfl

/-- **Where the output of a run goes.** -/
structure Delivers (fuel : Nat) (source file : String) (s : Session) : Prop where
  /-- A run that succeeds returns what was pending, what the source writes, and the last value. -/
  value {text : String} {s' : Session} (h : run fuel source file s = .value text s') :
    s'.pending = "" ∧ ∃ v s₁ shown, (parse source file >>= evaluateAll fuel) s = .value v s₁ ∧
      (if isNothing v then shown = "" else format s.registry v = .ok shown) ∧
      text = s.pending ++ s.written fuel source file ++ shown
  /-- There is a last value just if there are statements. -/
  nothing (hs : s.Safe) {v : Term} {s₁ : Session}
    (hv : (parse source file >>= evaluateAll fuel) s = .value v s₁) :
    isNothing v = true ↔ (Parser.mk s.registry file).parse source = .ok []
  /-- A run that fails leaves what was pending and what the source writes, -/
  failure {e : Failure} {s' : Session} (h : run fuel source file s = .failure e s')
    (hprint : ¬s.Unprintable fuel source file) :
    s'.pending = s.pending ++ s.written fuel source file
  /-- but nothing at all where it fails at printing. -/
  unprintable {e : Failure} {s' : Session} (h : run fuel source file s = .failure e s')
    (hprint : s.Unprintable fuel source file) : s'.pending = ""

theorem delivers_of_primitives (hr : s.registry.CallsPrimitives) (fuel : Nat)
    (source file : String) : s.Delivers fuel source file where
  value h := by
    rw [run_eq] at h
    obtain ⟨v, s₁, hv, h⟩ := Outcome.andThen_eq_value h
    obtain ⟨hpending, hregistry⟩ := pending_of_value hr hv
    rw [deliver_eq, hpending, hregistry] at h
    split at h
    · rename_i hnothing
      cases h
      exact ⟨rfl, v, s₁, "", hv, by rw [if_pos hnothing], by simp⟩
    · rename_i hnot
      split at h
      · rename_i shown hshown
        cases h
        exact ⟨rfl, v, s₁, shown, hv, by rw [if_neg hnot]; exact hshown, rfl⟩
      · cases h
  nothing hs v s₁ hv := by
    constructor
    · intro hnothing
      obtain ⟨-, hproper | ⟨-, hparse⟩⟩ := hs.shown hv
      · rw [isNothing_of_isProper hproper] at hnothing
        cases hnothing
      · rw [hs.registry]
        exact hparse
    · intro hparse
      obtain ⟨notes, hvalue⟩ := parse_of_ok hparse
      rw [Action.bind_apply, hvalue] at hv
      cases hv
      rfl
  failure h hprint := by
    rw [run_eq] at h
    obtain hv | ⟨v, s₁, hv, h⟩ := Outcome.andThen_eq_failure h
    · exact pending_of_failure hr hv
    · rw [deliver_eq, (pending_of_value hr hv).2] at h
      split at h
      · cases h
      · rename_i hnot
        split at h
        · cases h
        · rename_i e he
          exact absurd ⟨v, s₁, e, hv, Bool.eq_false_iff.2 hnot, he⟩ hprint
  unprintable h hprint := by
    obtain ⟨v, s₁, e, hv, hnot, he⟩ := hprint
    rw [run_eq, Action.bind_apply, hv, Outcome.andThen, deliver_eq, (pending_of_value hr hv).2,
      hnot, he] at h
    cases h
    rfl

/-- **Where the output of a run goes**, in every session over a registry that is built. -/
theorem delivers {ds : List Declaration} (h : Registry.build ds = .ok s.registry) (fuel : Nat)
    (source file : String) : s.Delivers fuel source file :=
  delivers_of_primitives (Registry.build_callsPrimitives h) fuel source file

/-- A division that fails, in a session with output pending. -/
theorem delivers_division :
    let s : Session := ⟨coreRegistry, ⟨.empty, ⟨.empty, ⟨"a", 1⟩, 0⟩⟩, false, []⟩
    Registry.build coreDeclarations = .ok s.registry ∧ s.Delivers 3 "1 / 0" "f" ∧
      ∃ s', run 3 "1 / 0" "f" s = .failure .divisionByZero s' ∧ s'.pending = "a" := by
  intro s
  have hregistry : s.registry = coreRegistry := by simp only [s]
  obtain ⟨s', hs', hpending⟩ := evaluate_division hregistry "f"
  have hbuild : Registry.build coreDeclarations = .ok s.registry := by
    rw [hregistry, build_coreDeclarations]
  refine ⟨hbuild, delivers hbuild 3 _ _, s', ?_, hpending⟩
  rw [run_eq, Action.bind_apply, hs']
  rfl

/-! ### Output that is lost -/

theorem powerOf_ten (n : Nat) :
    powerOf [.num (.int 10), .num (.int n)] = .ok (.num (.int (10 ^ n : Nat))) := by
  have hpower : Num.power (.int 10) (.int n) = some (.int (10 ^ n : Nat)) := by
    simp only [Num.power, Num.intPower_eq]
    simp
  have hzero : Num.isZero (.int 10) = false := rfl
  have hnegative : Num.isNegative (.int 10) = false := rfl
  simp only [powerOf, twoNumbers, two, numberArg, bind, Except.bind, pure, Except.pure, hzero,
    hnegative, hpower, Bool.false_and, Bool.false_eq_true, if_false]

theorem format_power {n : Nat} (hn : Num.maxDigits ≤ n) :
    format coreRegistry (.num (.int (10 ^ n : Nat))) = .error .tooManyDigits := by
  have hwritable : (Term.numeral (.int (10 ^ n : Nat)) .none).writable = false :=
    Term.writable_numeral_pow hn .none
  show coreRegistry.textOf (.numeral (.int (10 ^ n : Nat)) .none) = _
  rw [Registry.textOf_of_isTree CoreTable.printable rfl, hwritable]
  rfl

/-- **A power of ten**, as a program. -/
theorem evaluate_power (hs : s.registry = coreRegistry) {n : Nat} (hn : n < Num.digitBound)
    (file : String) :
    ∃ s', (parse (String.ofList (layout [.digits 10, .space, .word "^", .space, .digits n])) file
        >>= evaluateAll 3) s = .value (.num (.int (10 ^ n : Nat))) s' ∧
      s'.registry = coreRegistry := by
  have hop : coreRegistry.operatorOf? "^" 2 = some ⟨.infixed, 20, "^", 1⟩ := by
    simp only [Registry.operatorOf?, Registry.operator?, CoreTable.operators_eq]
    decide
  have hlookup : coreRegistry.lookup "^" = some ⟨"^", .primitive .power, 2, .fixed, none⟩ := by
    rw [Registry.lookup, CoreTable.entries_eq]
    rfl
  have houtcomes := @evaluate_operation s hs ⟨.infixed, 20, "^", 1⟩ hop rfl (by decide) 10 n
    (Num.lt_digitBound (by decide)) hn 3 file
  have hrun : Primitive.power.run coreRegistry 2 (coreRegistry.evaluateDirect 2)
      [.num (.int (10 : Nat)), .num (.int n)] s.machine.world =
        .value (.num (.int (10 ^ n : Nat))) s.machine.world := by
    rw [Primitive.run_of_compute? coreRegistry 2 rfl, Action.bind_apply,
      show powerOf [.num (.int (10 : Nat)), .num (.int n)] = _ from powerOf_ten n]
    rfl
  rw [evaluateDirect_operation hlookup rfl rfl rfl, hrun] at houtcomes
  obtain ⟨v, s', hs', hv, hregistry, -⟩ := houtcomes.eq_value
  rw [Term.Alike.eq_num hv.symm] at hs'
  exact ⟨s', hs', hregistry⟩

/-- **Output is lost**: where the last value is too long to be printed, what was pending is gone. -/
theorem run_loses_pending :
    let s : Session := ⟨coreRegistry, ⟨.empty, ⟨.empty, ⟨"a", 1⟩, 0⟩⟩, false, []⟩
    ∃ s', run 3 "10 ^ 5000" "f" s = .failure .tooManyDigits s' ∧ s'.pending = "" ∧
      s'.pending ≠ s.pending ++ s.written 3 "10 ^ 5000" "f" := by
  intro s
  have htext : String.ofList (layout [.digits 10, .space, .word "^", .space, .digits 5000]) =
      "10 ^ 5000" := by
    rfl
  have hs : s.registry = coreRegistry := by simp only [s]
  obtain ⟨s', hs', hregistry⟩ := evaluate_power hs (Num.lt_digitBound (n := 5000) (by decide)) "f"
  rw [htext] at hs'
  refine ⟨s'.drained, ?_, rfl, ?_⟩
  · rw [run_eq, Action.bind_apply, hs', Outcome.andThen, deliver_eq, hregistry,
      format_power (by decide)]
    rfl
  · -- what is gone had one character, whatever else was written
    intro h
    have hlength := congrArg String.length h
    have hdrained : s'.drained.pending.length = 0 := rfl
    have hpending : s.pending.length = 1 := by decide
    rw [String.length_append] at hlength
    omega

/-! ### Runs that fail -/

/-- **Runs that fail**, though not at printing, one after the other, and what they write. -/
inductive Failing : Session → String → Session → Prop
  | refl (s : Session) : Failing s "" s
  | step {s s' s'' : Session} {fuel : Nat} {source file text : String} {e : Failure} :
      run fuel source file s = .failure e s' → ¬s.Unprintable fuel source file →
      Failing s' text s'' → Failing s (s.written fuel source file ++ text) s''

theorem registry_of_run {e : Failure} (hr : s.registry.CallsPrimitives)
    (h : run fuel source file s = .failure e s') : s'.registry = s.registry := by
  have ho := outcomes_evaluate hr fuel source file
  rw [run_eq] at h
  obtain hv | ⟨v, s₁, hv, h⟩ := Outcome.andThen_eq_failure h
  · rw [hv] at ho
    obtain ⟨s₀, -, -, hregistry⟩ := ho.eq_failure
    exact hregistry
  · rw [deliver_eq] at h
    split at h
    · cases h
    · split at h
      · cases h
      · cases h
        exact (pending_of_value hr hv).2

/-- Failed runs leave everything pending that they wrote. -/
theorem Failing.pending_eq {text : String} (h : Failing s text s')
    (hr : s.registry.CallsPrimitives) :
    s'.pending = s.pending ++ text ∧ s'.registry = s.registry := by
  induction h with
  | refl s => simp
  | @step s s₁ _ fuel source file text e hrun hprint _ ih =>
    have hregistry := registry_of_run hr hrun
    obtain ⟨hpending, hregistry'⟩ := ih (hregistry ▸ hr)
    have hfirst := (delivers_of_primitives hr fuel source file).failure hrun hprint
    exact ⟨by rw [hpending, hfirst, String.append_assoc], hregistry'.trans hregistry⟩

/-- **A run delivers what failed runs before it wrote**, in order and once. -/
theorem Failing.deliver {ds : List Declaration} (hr : Registry.build ds = .ok s.registry)
    {text : String} (h : Failing s text s') {delivered : String} {s'' : Session}
    (hrun : run fuel source file s' = .value delivered s'') :
    s''.pending = "" ∧ ∃ shown,
      delivered = s.pending ++ text ++ s'.written fuel source file ++ shown := by
  have hprimitives := Registry.build_callsPrimitives hr
  obtain ⟨hpending, hregistry⟩ := h.pending_eq hprimitives
  obtain ⟨hempty, v, s₁, shown, -, -, htext⟩ :=
    (delivers_of_primitives (hregistry ▸ hprimitives) fuel source file).value hrun
  exact ⟨hempty, shown, by rw [htext, hpending]⟩

end Session

end TermCalc
