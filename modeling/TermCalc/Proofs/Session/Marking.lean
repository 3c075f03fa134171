import TermCalc.Proofs.Evaluation.Marking
import TermCalc.Proofs.Session.Safety

/-!
# Sessions give marks in order

No NaN stands in a source. So whatever sources a session has run, the values of its atoms have no
other marks than those that were given.

* `Term.marksBelow_of_isDefinite`: what is read from a source has no marks.
* `Session.marking`: the relation of a world to itself where it is marked.
* `Session.keeps_evaluateFrom`, `Session.keeps_run`: **statements and runs keep it.**
* `Session.Reached.marked`: so every session that runs lead to has a marked world.
-/

namespace TermCalc

namespace Term

mutual

/-- What equals itself has no marks. -/
theorem marksBelow_of_isDefinite {bound : Nat} {t : Term} (h : t.isDefinite = true) :
    t.marksBelow bound = true := by
  cases t with
  | numeral n pos =>
    cases n with
    | nan k => cases h
    | int | float => rfl
  | form op args pos => exact allMarksBelow_of_allDefinite h
  | atom | text => rfl
  | _ => cases h

theorem allMarksBelow_of_allDefinite {bound : Nat} {ts : List Term} (h : allDefinite ts = true) :
    allMarksBelow bound ts = true := by
  match ts with
  | [] => rfl
  | t :: ts =>
    rw [allDefinite, Bool.and_eq_true] at h
    rw [allMarksBelow, marksBelow_of_isDefinite h.1, allMarksBelow_of_allDefinite h.2]
    rfl

end

end Term

namespace Session

/-- **A marked world.** Any failure may arise. -/
def marking : Lockstep where
  worlds w w' := w = w' ∧ w.Marked
  terms := Eq
  allowed _ := True

variable {r : Registry} (hr : r.CallsPrimitives)
include hr

theorem keeps_onMachine (fuel : Nat) {t : Term} (ht : ∀ bound, t.marksBelow bound = true) :
    marking.Steps r Eq (onMachine (r.evaluate fuel t)) (onMachine (r.evaluate fuel t)) := by
  rintro s s' ⟨hleft, hright, hverbose, hstack, hworld, hmarked⟩
  have hmachine : s'.machine = s.machine := by
    obtain ⟨registry, ⟨stack, w⟩, verbose, notes⟩ := s
    obtain ⟨registry', ⟨stack', w'⟩, verbose', notes'⟩ := s'
    dsimp only at hstack hworld
    rw [hstack, hworld]
  obtain ⟨hvalue, hfailure⟩ := Registry.marked_evaluate hr hmarked (ht _) fuel
  unfold onMachine
  rw [hmachine]
  generalize r.evaluate fuel t s.machine = o at hvalue hfailure
  refine ⟨?_, fun _ _ _ => trivial⟩
  cases o with
  | value v m =>
    exact .value rfl ⟨hleft, hright, hverbose, rfl, rfl, (hvalue v m rfl).1⟩
  | failure e m =>
    exact .failure e ⟨hleft, hright, hverbose, rfl, rfl, (hfailure e m rfl).1⟩
  | exhausted => exact .exhausted

/-- **Statements keep the world marked.** -/
theorem keeps_evaluateFrom (fuel : Nat) {ts : List Term} (hts : Term.allDefinite ts = true)
    (last : Term) :
    marking.Steps r Eq (evaluateFrom fuel last ts) (evaluateFrom fuel last ts) := by
  induction ts generalizing last with
  | nil => exact .pure rfl
  | cons t ts ih =>
    rw [Term.allDefinite, Bool.and_eq_true] at hts
    refine .bind (R := Eq) (.ofExcept (.of_eq (fun _ => rfl) rfl) fun _ _ => trivial) ?_
    rintro text _ rfl
    refine .bind (.modify fun _ _ hs => hs.note ("evaluating " ++ text) _) fun _ _ _ => ?_
    refine .bind (R := fun x y => x = r ∧ y = r) (.read fun _ _ hs => ⟨hs.left, hs.right⟩) ?_
    rintro _ _ ⟨rfl, rfl⟩
    have ht : ∀ bound, t.marksBelow bound = true := fun _ => Term.marksBelow_of_isDefinite hts.1
    refine .bind (keeps_onMachine hr fuel ht) ?_
    rintro v _ rfl
    exact ih hts.2 v

omit hr in
theorem keeps_deliver (v : Term) : marking.Steps r Eq (deliver v) (deliver v) := by
  refine .bind (R := Eq) ?_ ?_
  · rintro s s' ⟨hleft, hright, hverbose, hstack, hworld, hmarked⟩
    have htext : s.machine.world.output.text = s'.machine.world.output.text := by rw [hworld]
    refine ⟨.value htext ⟨hleft, hright, hverbose, hstack, ?_, ?_⟩, fun _ _ _ => trivial⟩
    · rw [hworld]
    · exact hmarked.of_globals rfl (Nat.le_refl _)
  · rintro text _ rfl
    split
    · exact .pure rfl
    · refine .bind (R := fun x y => x = r ∧ y = r) (.read fun _ _ hs => ⟨hs.left, hs.right⟩) ?_
      rintro _ _ ⟨rfl, rfl⟩
      refine .bind (R := Eq) (.ofExcept (.of_eq (fun _ => rfl) rfl) fun _ _ => trivial) ?_
      rintro shown _ rfl
      exact .pure rfl

/-- **A run keeps the world marked**, with success or not. -/
theorem keeps_run (fuel : Nat) (source file : String) :
    marking.Steps r Eq (run fuel source file) (run fuel source file) := by
  rw [run_eq]
  refine .bind (R := Eq) ?_ ?_
  · refine .bind (Lockstep.steps_parse fun _ _ => trivial) ?_
    rintro ts _ ⟨rfl, hparse⟩
    -- what is read from a source equals itself, so that no NaN is among its numbers
    exact keeps_evaluateFrom hr fuel (Parser.definite_of_parse hparse) .nothing
  · rintro v _ rfl
    exact keeps_deliver v

/-- **Every session that runs lead to has a marked world.** -/
theorem Reached.marked {s : Session} (h : Reached r s) :
    s.registry = r ∧ s.machine.world.Marked := by
  induction h with
  | start verbose => exact ⟨rfl, fun _ _ h => by cases h⟩
  | @value s s' fuel source file text _ hrun ih =>
    obtain ⟨ho, -⟩ := keeps_run hr fuel source file s s ⟨ih.1, ih.1, rfl, rfl, rfl, ih.2⟩
    rw [hrun] at ho
    cases ho with
    | value _ hs => exact ⟨hs.left, hs.world.2⟩
  | @failure s s' fuel source file e _ hrun ih =>
    obtain ⟨ho, -⟩ := keeps_run hr fuel source file s s ⟨ih.1, ih.1, rfl, rfl, rfl, ih.2⟩
    rw [hrun] at ho
    cases ho with
    | failure _ hs => exact ⟨hs.left, hs.world.2⟩

end Session

end TermCalc
