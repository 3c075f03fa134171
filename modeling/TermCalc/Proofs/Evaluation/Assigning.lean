import TermCalc.Proofs.Evaluation.Unfolding

/-!
# Assignments and what atoms are read as

An assignment evaluates its expression, and gives the atom the value of it in the globals that the
expression has left behind. An atom is read from the globals, unless it is a truth value: those are
read before the globals are.

* `ends_atom`: **what an atom evaluates to**, from any machine.
* `CoreTable.ends_assign_iff`: when an assignment succeeds, and which machine it leaves.
* `CoreTable.read_of_assign`: **an assignment is readable**, but for the truth values.
-/

namespace TermCalc

namespace World

variable {w : World} {name : String} {value atom : Term}

/-- The truth values are read without the globals. -/
theorem atomValue_truthName (b : Bool) : w.atomValue (Term.truthName b) atom = .truth b := by
  cases b <;> rfl

/-- Any other atom is read from the globals. -/
theorem atomValue_eq (hname : ∀ b, name ≠ Term.truthName b) :
    w.atomValue name atom = (w.globals.get? name).getD atom := by
  have htrue : (name == Term.truthName true) = false := beq_eq_false_iff_ne.2 (hname true)
  have hfalse : (name == Term.truthName false) = false := beq_eq_false_iff_ne.2 (hname false)
  rw [atomValue, htrue, hfalse]
  rfl

/-- **The atom that was assigned to** is read as its value. -/
theorem atomValue_assign (hname : ∀ b, name ≠ Term.truthName b) :
    (w.assign name value).atomValue name atom = value := by
  rw [atomValue_eq hname, assign, Globals.get?_set, if_pos rfl, Option.getD_some]

/-- **Any other atom** is read as before. -/
theorem atomValue_assign_of_ne {other : String} (hother : other ≠ name) :
    (w.assign name value).atomValue other atom = w.atomValue other atom := by
  unfold atomValue assign
  rw [Globals.get?_set, if_neg hother]

end World

/-- **What an atom evaluates to**: what the world says. Reading it changes nothing. -/
theorem ends_atom (r : Registry) (m : Machine) (name : String) (pos : Pos) :
    Ends (fun fuel => r.evaluate fuel (.atom name pos) m)
      (.value (m.world.atomValue name (.atom name pos)) m) := by
  refine ⟨by simp, 1, ?_⟩
  intro fuel hfuel
  obtain ⟨n, rfl⟩ : ∃ n, fuel = n + 1 := ⟨fuel - 1, by omega⟩
  rfl

namespace CoreTable

attribute [local irreducible] coreRegistry

/-- The names of assignment. -/
def assigners : List String := ["Set", ":="]

variable {op x : String} {e : Term} {n : Nat} {p q : Pos}

theorem evaluateDirect_assign (hop : op ∈ assigners) :
    eval (n + 1) (.form op [.atom x q, e] p) = eval n e >>= fun v =>
      (do Action.modify (World.assign x v); pure (.truth true) : Action World Term) := by
  have hentry : coreRegistry.lookup op = some ⟨op, .primitive .set, 2, .held, none⟩ := by
    rw [Registry.lookup, entries_eq]
    simp only [assigners, List.mem_cons, List.not_mem_nil, or_false] at hop
    rcases hop with rfl | rfl <;> rfl
  exact Registry.evaluateDirect_held hentry rfl rfl rfl n p

/-- An assignment goes on from the value of its expression. -/
theorem evaluate_assign (hop : op ∈ assigners) (fuel : Nat) (m : Machine) :
    coreRegistry.evaluate (fuel + 1) (.form op [.atom x q, e] p) m =
      (coreRegistry.evaluate fuel e m).andThen fun v m₁ =>
        .value (.truth true) { m₁ with world := m₁.world.assign x v } := by
  obtain ⟨stack, w⟩ := m
  have hdirect : coreRegistry.evaluateDirect (fuel + 1) (.form op [.atom x q, e] p) w =
      (coreRegistry.evaluateDirect fuel e w).andThen fun v w₁ =>
        .value (.truth true) (w₁.assign x v) :=
    congrFun (evaluateDirect_assign hop) w
  rw [coreRegistry.evaluate_stackless callsPrimitives (fuel + 1) _ stack w, hdirect,
    coreRegistry.evaluate_stackless callsPrimitives fuel e stack w]
  cases coreRegistry.evaluateDirect fuel e w <;> rfl

/-- **When an assignment succeeds**: where its expression gives a value, which the atom then has in
the machine that the expression leaves. -/
theorem ends_assign_iff (hop : op ∈ assigners) {m m' : Machine} {u : Term} :
    Ends (fun fuel => coreRegistry.evaluate fuel (.form op [.atom x q, e] p) m) (.value u m') ↔
      u = .truth true ∧ ∃ v m₁, Ends (fun fuel => coreRegistry.evaluate fuel e m) (.value v m₁) ∧
        m' = { m₁ with world := m₁.world.assign x v } := by
  constructor
  · rintro ⟨-, n, hn⟩
    have hstep : coreRegistry.evaluate (n + 1) (.form op [.atom x q, e] p) m = .value u m' :=
      hn (n + 1) (Nat.le_succ n)
    rw [evaluate_assign hop] at hstep
    obtain ⟨v, m₁, hv, heq⟩ := Outcome.andThen_eq_value hstep
    cases heq
    have hne : coreRegistry.evaluate n e m ≠ .exhausted := by simp [hv]
    have hends := coreRegistry.ends_evaluate callsPrimitives hne
    rw [hv] at hends
    exact ⟨rfl, v, m₁, hends, rfl⟩
  · rintro ⟨rfl, v, m₁, ⟨-, n, hn⟩, rfl⟩
    refine ⟨by simp, n + 1, ?_⟩
    intro fuel hfuel
    obtain ⟨k, rfl⟩ : ∃ k, fuel = k + 1 := ⟨fuel - 1, by omega⟩
    have hvalue : coreRegistry.evaluate k e m = .value v m₁ := hn k (by omega)
    have hstep := evaluate_assign (e := e) (x := x) (q := q) (p := p) hop k m
    rw [hvalue] at hstep
    exact hstep

/-- **An assignment is readable.** Where it succeeds, its expression has a value. Behind it the atom
is read as that value, unless it is a truth value, which is read as itself; every other atom is read
as it was behind the expression, and the stack and the output are those behind the expression. -/
theorem read_of_assign (hop : op ∈ assigners) {m m' : Machine} {u : Term}
    (h : Ends (fun fuel => coreRegistry.evaluate fuel (.form op [.atom x q, e] p) m)
      (.value u m')) :
    ∃ v m₁, Ends (fun fuel => coreRegistry.evaluate fuel e m) (.value v m₁) ∧
      ((∀ b, x ≠ Term.truthName b) → ∀ pos,
        Ends (fun fuel => coreRegistry.evaluate fuel (.atom x pos) m') (.value v m')) ∧
      (∀ b, x = Term.truthName b → ∀ pos,
        Ends (fun fuel => coreRegistry.evaluate fuel (.atom x pos) m') (.value (.truth b) m')) ∧
      (∀ y, y ≠ x → ∀ pos, ∃ a,
        Ends (fun fuel => coreRegistry.evaluate fuel (.atom y pos) m₁) (.value a m₁) ∧
          Ends (fun fuel => coreRegistry.evaluate fuel (.atom y pos) m') (.value a m')) ∧
      m'.stack = m₁.stack ∧ m'.world.output = m₁.world.output := by
  obtain ⟨-, v, m₁, hv, rfl⟩ := (ends_assign_iff hop).1 h
  let m' : Machine := { m₁ with world := m₁.world.assign x v }
  refine ⟨v, m₁, hv, ?_, ?_, ?_, rfl, rfl⟩
  · intro hx pos
    have hread := ends_atom coreRegistry m' x pos
    rwa [World.atomValue_assign hx] at hread
  · rintro b rfl pos
    have hread := ends_atom coreRegistry m' (Term.truthName b) pos
    rwa [World.atomValue_truthName] at hread
  · intro y hy pos
    have hread := ends_atom coreRegistry m' y pos
    rw [World.atomValue_assign_of_ne hy] at hread
    exact ⟨_, ends_atom coreRegistry m₁ y pos, hread⟩

/-- An atom is given the value of a number, and another the value of that assignment. -/
def nested : Term :=
  .form ":=" [.atom "a" .none, .form "Set" [.atom "b" .none, .numeral (.int 7) .none] .none] .none

/-- A numeral evaluates to its number. -/
theorem ends_numeral (z : Num) (m : Machine) :
    Ends (fun fuel => coreRegistry.evaluate fuel (.numeral z .none) m) (.value (.num z) m) := by
  refine ⟨by simp, 1, ?_⟩
  intro fuel hfuel
  obtain ⟨n, rfl⟩ : ∃ n, fuel = n + 1 := ⟨fuel - 1, by omega⟩
  rfl

/-- Behind both assignments the inner atom is read as the number, and the outer one as the truth
value that the inner assignment gave. -/
theorem read_of_assign_nested : ":=" ∈ assigners ∧ ∃ m',
    Ends (fun fuel => coreRegistry.evaluate fuel nested .empty) (.value (.truth true) m') ∧
      Ends (fun fuel => coreRegistry.evaluate fuel (.atom "a" .none) m')
        (.value (.truth true) m') ∧
      Ends (fun fuel => coreRegistry.evaluate fuel (.atom "b" .none) m')
        (.value (.num (.int 7)) m') := by
  have hop : ":=" ∈ assigners := by decide
  have hop' : "Set" ∈ assigners := by decide
  have hinner := (ends_assign_iff (e := .numeral (.int 7) .none) (x := "b") (q := .none)
    (p := .none) hop').2 ⟨rfl, _, _, ends_numeral (.int 7) .empty, rfl⟩
  have houter := (ends_assign_iff (x := "a") (q := .none) (p := .none) hop).2
    ⟨rfl, _, _, hinner, rfl⟩
  obtain ⟨v, m₁, hv, hread, -, hother, -⟩ := read_of_assign hop houter
  cases hv.unique hinner
  obtain ⟨a, hbefore, hafter⟩ := hother "b" (by decide) .none
  cases hbefore.unique (ends_atom coreRegistry _ "b" .none)
  exact ⟨hop, _, houter, hread (by decide) .none, hafter⟩

/-- **A truth value that was assigned to** is not read as what was assigned. -/
theorem not_read_of_assign_truth : ∃ m',
    Ends (fun fuel => coreRegistry.evaluate fuel
        (.form "Set" [.atom "True" .none, .numeral (.int 5) .none] .none) .empty)
      (.value (.truth true) m') ∧
    Ends (fun fuel => coreRegistry.evaluate fuel (.numeral (.int 5) .none) .empty)
      (.value (.num (.int 5)) .empty) ∧
    Ends (fun fuel => coreRegistry.evaluate fuel (.atom "True" .none) m')
      (.value (.truth true) m') ∧
    ¬ Ends (fun fuel => coreRegistry.evaluate fuel (.atom "True" .none) m')
      (.value (.num (.int 5)) m') := by
  have hop : "Set" ∈ assigners := by decide
  have hassign := (ends_assign_iff (e := .numeral (.int 5) .none) (x := "True") (q := .none)
    (p := .none) hop).2 ⟨rfl, _, _, ends_numeral (.int 5) .empty, rfl⟩
  have hread := ends_atom coreRegistry { Machine.empty with
    world := Machine.empty.world.assign "True" (.num (.int 5)) } "True" .none
  refine ⟨_, hassign, ends_numeral (.int 5) .empty, hread, ?_⟩
  intro hfive
  cases hread.unique hfive

end CoreTable

end TermCalc
