import TermCalc.Proofs.Evaluation.Lockstep
import TermCalc.Proofs.Term.Printing

/-!
# Evaluation adds to the output

An evaluation does not look at what has been written before it. With more text in front, it goes the
same way and writes the same behind it.

* `World.behind`: a world with text in front of its output.
* `framing`, `laws_framing`: the relation of a world to the same behind some text, and that it is
  kept by the parts of an evaluation.
-/

namespace TermCalc

/-- **The same world behind some output.** -/
def World.behind (before : Buffer) (w : World) : World :=
  { w with output := before.behind w.output }

/-- **A world and the same behind some output.** Any failure may arise. -/
def framing (before : Buffer) : Lockstep :=
  ⟨fun w w' => w' = w.behind before, Eq, fun _ => True⟩

variable {before : Buffer} {r : Registry}

/-- **The parts of an evaluation only add to the output.** -/
theorem laws_framing (hr : r.CallsPrimitives) : (framing before).Laws r r where
  alike h := h ▸ .refl _
  truth _ := rfl
  number h := by cases h; rfl
  string h := by cases h; rfl
  args h := by cases h; exact List.forall₂_same.2 fun _ _ => rfl
  atomValue hw _ _ _ h := by cases hw; cases h; rfl
  assign hw _ _ _ h := by cases hw; cases h; rfl
  write {w _} hw text := by
    cases hw
    exact congrArg (fun output => { w with output }) (before.hom_behind.write w.output text).symm
  adopt hw _ := by
    cases hw
    exact ⟨rfl, rfl⟩
  expr _ _ := trivial
  print {t _ e _} h ht hu w _ hw := by
    cases hw
    cases h
    cases ht.symm.trans hu
    -- What is printed comes behind what is there.
    have hprint : r.print e (before.behind w.output) = (r.print e w.output).map before.behind :=
      r.printAt_map before.hom_behind loosest e w.output
    simp only [World.behind, hprint, Printed.map]
    exact ⟨trivial, fun _ _ => trivial, rfl⟩
  compute _ _ _ h _ := by
    obtain rfl := (congrFun₂ List.forall₂_eq_eq_eq _ _).mp h
    exact ⟨.of_eq (fun _ => rfl) rfl, fun _ _ => trivial⟩
  lookup _ := rfl
  callsPrimitives := hr
  takes _ _ _ _ _ := ⟨trivial, trivial⟩
  unknownName _ := trivial
  wrongArity _ := trivial
  tooManyDigits := trivial
  argument _ := trivial

end TermCalc
