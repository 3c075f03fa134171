import TermCalc.Proofs.Evaluation.Blindness
import TermCalc.Proofs.Term.Equivalence

/-!
# Structural equality

Two expressions have the same structure where they have the same key, so that this is an
equivalence, to which places are nothing. Where all numbers are integers a key leaves open nothing
but places, and neither the printer nor the evaluator looks at those.

* `Term.isIntegral`: the expressions whose numbers are all integers.
* `Term.unplaced_eq_of_exprKey`: integral expressions of one key differ only in places.
* `Machine.Matches`: machines that differ only in places.
* `Registry.print_eq_of_unplaced`, `Registry.outcomes_of_unplaced`: expressions that differ only in
  places are printed and evaluated alike.
* `sameStructure_sound`: **structural equality is sound.**
-/

namespace TermCalc

namespace Term

mutual

/-- **An expression whose numbers are all integers.** -/
def isIntegral : Term → Bool
  | atom .. | text .. | numeral (.int _) _ => true
  | form _ args _ => allIntegral args
  | _ => false

/-- Whether all numbers of all expressions are integers. -/
def allIntegral : List Term → Bool
  | [] => true
  | t :: ts => isIntegral t && allIntegral ts

end

mutual

theorem isDefinite_of_isIntegral {t : Term} (h : t.isIntegral = true) : t.isDefinite = true := by
  cases t with
  | numeral n pos =>
    cases n with
    | int z => simp [isDefinite, Num.equal]
    | float | nan => simp [isIntegral] at h
  | form op args pos => exact allDefinite_of_allIntegral h
  | atom | text => rfl
  | _ => simp [isIntegral] at h

theorem allDefinite_of_allIntegral {ts : List Term} (h : allIntegral ts = true) :
    allDefinite ts = true := by
  match ts with
  | [] => rfl
  | t :: ts =>
    simp only [allIntegral, Bool.and_eq_true] at h
    rw [allDefinite, isDefinite_of_isIntegral h.1, allDefinite_of_allIntegral h.2]
    rfl

end

/-- An integral numeral holds an integer. -/
theorem exists_int_of_isIntegral {n : Num} {pos : Pos} (h : (numeral n pos).isIntegral = true) :
    ∃ z, n = .int z := by
  cases n with
  | int z => exact ⟨z, rfl⟩
  | float | nan => simp [isIntegral] at h

mutual

/-- **Integral expressions of one key differ only in places.** -/
theorem unplaced_eq_of_exprKey {t u : Term} (ht : t.isIntegral = true) (hu : u.isIntegral = true)
    (h : t.exprKey = u.exprKey) : t.unplaced = u.unplaced := by
  cases t with
  | atom a p =>
    cases u with
    | atom b q => simpa [exprKey, unplaced] using h
    | numeral | text | form => simp [exprKey] at h
    | _ => simp [isIntegral] at hu
  | numeral m p =>
    cases u with
    | numeral n q =>
      obtain ⟨y, rfl⟩ := exists_int_of_isIntegral ht
      obtain ⟨z, rfl⟩ := exists_int_of_isIntegral hu
      have hvalue : (Num.int y).value? = (Num.int z).value? := by simpa [exprKey] using h
      have hself : (Num.int y).equal (.int y) = true := by simp [Num.equal]
      have hequal := (Num.equal_iff_value hself).2 hvalue
      obtain rfl : y = z := by simpa [Num.equal] using hequal
      rfl
    | atom | text | form => simp [exprKey] at h
    | _ => simp [isIntegral] at hu
  | text s p =>
    cases u with
    | text r q => simpa [exprKey, unplaced] using h
    | atom | numeral | form => simp [exprKey] at h
    | _ => simp [isIntegral] at hu
  | form f xs p =>
    cases u with
    | form g ys q =>
      rw [exprKey, exprKey, Key.form.injEq] at h
      rw [unplaced, unplaced, h.1, unplacedAll_eq_of_exprKeys ht hu h.2]
    | atom | numeral | text => simp [exprKey] at h
    | _ => simp [isIntegral] at hu
  | _ => simp [isIntegral] at ht

theorem unplacedAll_eq_of_exprKeys {ts us : List Term} (hts : allIntegral ts = true)
    (hus : allIntegral us = true) (h : exprKeys ts = exprKeys us) :
    unplacedAll ts = unplacedAll us := by
  match ts, us with
  | [], [] => rfl
  | [], _ :: _ => simp [exprKeys] at h
  | _ :: _, [] => simp [exprKeys] at h
  | t :: ts, u :: us =>
    simp only [allIntegral, Bool.and_eq_true] at hts hus
    rw [exprKeys, exprKeys, List.cons.injEq] at h
    rw [unplacedAll, unplacedAll, unplaced_eq_of_exprKey hts.1 hus.1 h.1,
      unplacedAll_eq_of_exprKeys hts.2 hus.2 h.2]

end

section Structure

variable {t u s : Term}

/-- **Expressions have the same structure where they have the same key.** -/
theorem sameStructure_iff_exprKey (ht : t.isDefinite = true) (hu : u.isDefinite = true) :
    t.sameStructure u = true ↔ t.exprKey = u.exprKey := by
  rw [sameStructure, beq_iff_eq]
  exact (decides_matches? (fun _ _ => Num.equal_iff_value) ht hu).eq_some_iff

theorem sameStructure_comm (ht : t.isDefinite = true) (hu : u.isDefinite = true) :
    t.sameStructure u = u.sameStructure t := by
  rw [Bool.eq_iff_iff, sameStructure_iff_exprKey ht hu, sameStructure_iff_exprKey hu ht]
  exact eq_comm

theorem sameStructure_trans (ht : t.isDefinite = true) (hu : u.isDefinite = true)
    (hs : s.isDefinite = true) (htu : t.sameStructure u = true) (hus : u.sameStructure s = true) :
    t.sameStructure s = true := by
  rw [sameStructure_iff_exprKey ht hu] at htu
  rw [sameStructure_iff_exprKey hu hs] at hus
  rw [sameStructure_iff_exprKey ht hs, htu, hus]

/-- Integral expressions of one structure differ only in places. -/
theorem unplaced_eq_of_sameStructure (ht : t.isIntegral = true) (hu : u.isIntegral = true)
    (h : t.sameStructure u = true) : t.unplaced = u.unplaced := by
  rw [sameStructure_iff_exprKey (isDefinite_of_isIntegral ht) (isDefinite_of_isIntegral hu)] at h
  exact unplaced_eq_of_exprKey ht hu h

end Structure

end Term

/-! ### Printing and evaluation -/

/-- **Machines that differ only in places**, inside the values of atoms. -/
structure Machine.Matches (m m' : Machine) : Prop where
  stack : m.stack = m'.stack
  globals (name : String) :
    (m.world.globals.get? name).map Term.unplaced = (m'.world.globals.get? name).map Term.unplaced
  output : m.world.output = m'.world.output
  marks : m.world.marks = m'.world.marks

/-- Worlds in which the same matters differ only in places. -/
theorem World.Alike.matches {w w' : World} (h : w.Alike w') (stack : Stack) :
    Machine.Matches ⟨stack, w⟩ ⟨stack, w'⟩ := by
  refine ⟨rfl, ?_, h.output, h.marks⟩
  intro name
  rcases cases_of_map_eq (h.globals name) with ⟨hx, hy⟩ | ⟨v, v', hx, hy, hv⟩
  · rw [hx, hy]
  · rw [hx, hy]
    exact congrArg some (Term.unplaced_of_essence hv)

namespace Registry

variable {r : Registry} {t u : Term}

/-- **Expressions that differ only in places are printed alike**, to any output and in any text. -/
theorem print_eq_of_unplaced (h : t.unplaced = u.unplaced) {τ : Type} [Output τ] (out : τ) :
    r.print t out = r.print u out := by
  rw [print, print, ← r.printAt_unplaced, h, r.printAt_unplaced]

theorem textOf_eq_of_unplaced (h : t.unplaced = u.unplaced) : r.textOf t = r.textOf u := by
  unfold textOf
  rw [print_eq_of_unplaced h]

/-- **Expressions that differ only in places are evaluated alike**, if they equal themselves. -/
theorem outcomes_of_unplaced (hr : r.CallsPrimitives) (ht : t.isDefinite = true)
    (h : t.unplaced = u.unplaced) (fuel : Nat) (m : Machine) :
    Outcomes Machine.Matches (fun v v' => v.unplaced = v'.unplaced)
      (r.evaluate fuel t m) (r.evaluate fuel u m) := by
  obtain ⟨stack, w⟩ := m
  have hblind := blind_evaluateDirect hr fuel t u (.of_unplaced ht h) w w (.refl w)
  have hbeside {o o' : Outcome World Term} (ho : Outcomes World.Alike Term.Alike o o') :
      Outcomes Machine.Matches (fun v v' => v.unplaced = v'.unplaced)
        (o.beside stack) (o'.beside stack) := by
    cases ho with
    | value hv hw => exact .value hv.unplaced (hw.matches stack)
    | failure e hw => exact .failure e (hw.matches stack)
    | exhausted => exact .exhausted
  rw [r.evaluate_stackless hr fuel t stack w, r.evaluate_stackless hr fuel u stack w]
  exact hbeside hblind

end Registry

/-- **Structural equality is sound.** On expressions in which no NaN stands it is reflexive,
symmetric and transitive, and places are nothing to it. Two expressions of one structure whose
numbers are all integers are printed alike under every registry, text and failure, and evaluated
alike on the core table from every machine: both end, and in the same failure, or in values that
differ only in places, in machines that differ only in places, or neither ends. -/
theorem sameStructure_sound {t u s : Term} (ht : t.isDefinite = true) (hu : u.isDefinite = true)
    (hs : s.isDefinite = true) :
    t.sameStructure t = true ∧
      t.sameStructure u = u.sameStructure t ∧
      (t.sameStructure u = true → u.sameStructure s = true → t.sameStructure s = true) ∧
      (∀ t' u' : Term, t'.unplaced = t.unplaced → u'.unplaced = u.unplaced →
        t'.sameStructure u' = t.sameStructure u) ∧
      (t.isIntegral = true → u.isIntegral = true → t.sameStructure u = true →
        (∀ r : Registry, r.textOf t = r.textOf u ∧
          ∀ (τ : Type) [Output τ] (out : τ), r.print t out = r.print u out) ∧
        ∀ (m : Machine) (o : Outcome Machine Term),
          Ends (fun fuel => coreRegistry.evaluate fuel t m) o →
            ∃ o', Ends (fun fuel => coreRegistry.evaluate fuel u m) o' ∧
              Outcomes Machine.Matches (fun v v' => v.unplaced = v'.unplaced) o o') := by
  refine ⟨(Term.sameStructure_iff_exprKey ht ht).2 rfl, Term.sameStructure_comm ht hu,
    Term.sameStructure_trans ht hu hs, ?_, ?_⟩
  · intro t' u' ht' hu'
    unfold Term.sameStructure
    rw [← Term.matches?_unplaced, ht', hu', Term.matches?_unplaced]
  · intro hti hui hstructure
    have hplaces := Term.unplaced_eq_of_sameStructure hti hui hstructure
    refine ⟨?_, ?_⟩
    · intro r
      exact ⟨Registry.textOf_eq_of_unplaced hplaces,
        fun τ _ out => Registry.print_eq_of_unplaced hplaces out⟩
    · intro m o ho
      have hr := Registry.build_callsPrimitives build_coreDeclarations
      have halike := fun fuel => Registry.outcomes_of_unplaced hr ht hplaces fuel m
      refine coreRegistry.exists_ends_of_related hr ?_ halike ho
      intro o ho
      cases ho
      rfl

/-- A sum as it is read from a source, and as it is built without one. -/
theorem sameStructure_sound_sum :
    let t : Term := .form "+" [.numeral (.int 1) ⟨1, 1⟩, .atom "x" ⟨1, 5⟩] ⟨1, 3⟩
    let u : Term := .form "+" [.numeral (.int 1) .none, .atom "x" .none] .none
    t.isDefinite = true ∧ u.isDefinite = true ∧ t.isIntegral = true ∧ u.isIntegral = true ∧
      t.sameStructure u = true ∧ u.sameStructure t = true ∧
      coreRegistry.textOf t = coreRegistry.textOf u ∧
      ∀ (m : Machine) (o : Outcome Machine Term),
        Ends (fun fuel => coreRegistry.evaluate fuel t m) o →
          ∃ o', Ends (fun fuel => coreRegistry.evaluate fuel u m) o' ∧
            Outcomes Machine.Matches (fun v v' => v.unplaced = v'.unplaced) o o' := by
  intro t u
  have ht : t.isDefinite = true := by decide
  have hu : u.isDefinite = true := by decide
  have hstructure : t.sameStructure u = true := by decide
  obtain ⟨-, hcomm, -, -, hsound⟩ := sameStructure_sound ht hu ht
  obtain ⟨hprint, hevaluate⟩ := hsound rfl rfl hstructure
  rw [hstructure] at hcomm
  exact ⟨ht, hu, rfl, rfl, hstructure, hcomm.symm, (hprint coreRegistry).1, hevaluate⟩

end TermCalc
