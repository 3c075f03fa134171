import TermCalc.Proofs.Evaluation.Sequencing
import TermCalc.Proofs.Evaluation.Unfolding
import TermCalc.Proofs.Syntax.Embedding

/-!
# Blocks and sources

A source within brackets is one block of its statements, and to evaluate the block is to evaluate
the source.

* `Session.Alike.evaluateFrom_block`: statements are evaluated as a block of them is, with one step
  more.
* `Session.evaluate_enclosed`: **the statement and the outcome of a source within brackets.**
-/

namespace TermCalc

namespace Session

variable {s s' : Session}

/-- **Statements are evaluated as their block is**, with one step more, whatever notes are taken. -/
theorem Alike.evaluateFrom_block (hs : s.Alike s') (hr : s'.registry = coreRegistry) (fuel : Nat)
    {u : Term} {ts : List Term} (hts : ts ≠ []) (hw : Term.allWritable ts = true)
    (hu : u.Alike (.form "Prog" ts .none)) :
    Outcomes Alike Term.Alike (evaluateAll (fuel + 1) [u] s) (evaluateAll fuel ts s') := by
  have hblock := hs.evaluateFrom (fuel + 1) (.cons hu .nil) (Term.Alike.refl .nothing)
  obtain ⟨notes, hnotes⟩ :=
    evaluateFrom_eq_onMachine (fuel + 1) .nothing [.form "Prog" ts .none] s'
  obtain ⟨notes', hnotes'⟩ := evaluateFrom_eq_onMachine fuel .nothing ts s'
  -- on the machine the block is the sequence of its statements
  have hmachine : sequence (s'.registry.evaluateStatement (fuel + 1)) .nothing
      [.form "Prog" ts .none] s'.machine =
        sequence (s'.registry.evaluateStatement fuel) .nothing ts s'.machine := by
    have hprog := CoreTable.evaluateAll_eq hts hw fuel s'.machine .none
    have hsingle : sequence (coreRegistry.evaluateStatement (fuel + 1)) .nothing
        [.form "Prog" ts .none] = coreRegistry.evaluate (fuel + 1) (.form "Prog" ts .none) := by
      rw [← Registry.evaluateStatement_of_writable (t := .form "Prog" ts .none) hw]
      exact bind_pure _
    rw [hr, hsingle, ← hprog]
    rfl
  rw [hnotes] at hblock
  rw [evaluateAll, evaluateAll, hnotes']
  simp only [onMachine, hmachine] at hblock ⊢
  -- what the two leave differs in notes alone
  generalize Session.evaluateFrom (fuel + 1) .nothing [u] s = outcome at hblock ⊢
  generalize sequence (s'.registry.evaluateStatement fuel) .nothing ts s'.machine = result
    at hblock ⊢
  cases result with
  | value v m =>
    obtain ⟨w, s₁, rfl, hwv, hs₁, -⟩ := hblock.eq_value
    exact .value hwv (hs₁.withNotes s₁.notes notes')
  | failure e m =>
    obtain ⟨s₁, rfl, hs₁, -⟩ := hblock.eq_failure
    exact .failure e (hs₁.withNotes s₁.notes notes')
  | exhausted =>
    cases hblock
    exact .exhausted

/-- **Blocks and sources agree.** Whatever semicolons, blocks and comments a source that can be
parsed has, within brackets, the closing one on a new line, it is parsed to one block of its
statements. On the core table, if there are any, the block has the outcome of the source, whatever
the session. -/
theorem evaluate_enclosed {p : Parser} {source : String} {ts : List Term}
    (h : p.parse source = .ok ts) :
    ∃ u, p.parse ("[" ++ source ++ "\n]") = .ok [u] ∧
      u.sameStructure (.form "Prog" ts .none) = true ∧
      (p.registry = coreRegistry → ts ≠ [] → ∀ s : Session, s.registry = coreRegistry → ∀ fuel,
        Outcomes Agree (fun v w => v.unplaced = w.unplaced)
          ((parse ("[" ++ source ++ "\n]") p.file >>= evaluateAll (fuel + 1)) s)
          ((parse source p.file >>= evaluateAll fuel) s)) := by
  obtain ⟨us, pos, hblock, hus⟩ := Parser.parse_enclosed h
  have hdefinite := Parser.definite_of_parse hblock
  have hsymm := Term.Alike.all_symm hus
  have hargs : Term.allDefinite us = true := by
    simpa [Term.allDefinite, Term.isDefinite] using hdefinite
  refine ⟨.form "Prog" us pos, hblock, ?_, ?_⟩
  · exact Term.sameStructure_form.2 ⟨rfl, Term.Alike.all_sameStructure hsymm hargs⟩
  · intro hcore hts s hs fuel
    have hregistry : p.registry = s.registry := hcore.trans hs.symm
    have hparser : p = Parser.mk s.registry p.file := by rw [← hregistry]
    rw [hparser] at h hblock
    obtain ⟨notes, hnotes⟩ := parse_of_ok hblock
    obtain ⟨notes', hnotes'⟩ := parse_of_ok h
    have halike : Alike { s with notes := notes } { s with notes := notes' } :=
      ⟨hs ▸ CoreTable.callsPrimitives, rfl, rfl, rfl, .refl _⟩
    have hform : (Term.form "Prog" us pos).Alike (.form "Prog" ts .none) :=
      Term.Alike.form_congr hargs hsymm
    rw [Action.bind_apply, Action.bind_apply, hnotes, hnotes']
    have hw := Parser.allWritable_of_parse h
    exact (halike.evaluateFrom_block hs fuel hts hw hform).mono (fun _ _ h => h.agree)
      fun _ _ h => h.unplaced

/-- An assignment and the atom that it gives a value, on lines of their own. -/
theorem evaluate_enclosed_assignment :
    let p := Parser.mk coreRegistry "f"
    let source := "a := 1" ++ "\n;" ++ "a"
    ∃ ts, p.parse source = .ok ts ∧ ts ≠ [] ∧
      ∃ u, p.parse ("[" ++ source ++ "\n]") = .ok [u] ∧
        u.sameStructure (.form "Prog" ts .none) = true ∧
        ∀ s : Session, s.registry = coreRegistry → ∀ fuel,
          Outcomes Agree (fun v w => v.unplaced = w.unplaced)
            ((parse ("[" ++ source ++ "\n]") "f" >>= evaluateAll (fuel + 1)) s)
            ((parse source "f" >>= evaluateAll fuel) s) := by
  intro p source
  obtain ⟨t, v, h₁, h₂⟩ := parse_assignment "f"
  obtain ⟨us₁, us₂, hparse, hus₁, -⟩ := Parser.parse_append h₁ h₂
  have hnonempty : us₁ ++ us₂ ≠ [] := by
    obtain ⟨_, _⟩ := hus₁
    simp
  obtain ⟨u, hblock, hsame, hvalue⟩ := evaluate_enclosed hparse
  exact ⟨us₁ ++ us₂, hparse, hnonempty, u, hblock, hsame, hvalue rfl hnonempty⟩

end Session

end TermCalc
