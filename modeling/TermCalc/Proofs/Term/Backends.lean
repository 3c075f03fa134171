import TermCalc.Proofs.Term.Printing

/-!
# Printing onto every output

An expression is printed onto an output as onto an empty buffer, behind what is there: a buffer gets
the text, and an output of single characters gets one after the other.

* `Buffer.hom_onto`: a buffer read out to an output of single characters.
* `Registry.pieces_print`: every character that is printed is a piece.
* `Registry.Emits`: **what printing an expression does** to a buffer, to any output of single
  characters and to a log.
* `Registry.emits_print`: **every expression is printed so**, as far as printing goes.
* `Registry.emits_of_textOf`, `Registry.exists_emits_of_textOf`: all of its text, or what comes
  before a failure.
-/

namespace TermCalc

/-- **An output of single characters**, by what it does with one. -/
abbrev singly {σ : Type} (put : σ → Char → σ) : Output σ := { put }

/-- A buffer read out to an output of single characters. -/
theorem Buffer.hom_onto {σ : Type} (put : σ → Char → σ) (s : σ) :
    @Output.Hom Buffer σ _ (singly put) fun b => b.text.toList.foldl put s := by
  refine @Output.Hom.mk _ _ _ (singly put) _ (fun b c => ?_) fun b text => ?_
  · simp only [Output.put, String.toList_push, List.foldl_append]
    rfl
  · simp only [Output.write, String.toList_append, List.foldl_append]

/-- A buffer in which every character is a piece. -/
theorem Buffer.hom_ofText : Output.Hom fun b : Buffer => ofText b.text where
  put b c := by simp [Output.put, ofText]
  write b text := by simp [Output.write, ofText]

namespace CallLog

/-- The calls of an output that gets single characters. -/
theorem calls_foldl (log : CallLog) (cs : List Char) :
    (cs.foldl (fun log c => log.putPiece (String.singleton c)) log).calls =
      log.calls ++ cs.map String.singleton := by
  induction cs generalizing log with
  | nil => simp
  | cons c cs ih => rw [List.foldl_cons, ih, calls_putPiece]; simp

end CallLog

namespace Registry

variable (r : Registry) (t : Term)

/-- Every character that is printed is a piece. -/
theorem pieces_print : (r.print t Buffer.empty).output.pieces =
    (r.print t Buffer.empty).output.text.length := by
  have hprint := r.printAt_map Buffer.hom_ofText loosest t Buffer.empty
  exact congrArg (fun p => p.output.pieces) hprint

/-- **What printing an expression does**: a text comes behind what is there, in a buffer and
character by character elsewhere, and then printing ends, well or by a failure. -/
structure Emits (text : String) (failure : Option Failure) : Prop where
  buffer (b : Buffer) : r.print t b = ⟨⟨b.text ++ text, b.pieces + text.length⟩, failure⟩
  single {σ : Type} (put : σ → Char → σ) (s : σ) :
    @print r σ (singly put) t s = ⟨text.toList.foldl put s, failure⟩
  log (log : CallLog) : (r.print t log).failure = failure ∧
    (r.print t log).output.calls = log.calls ++ text.toList.map String.singleton

variable {r t}

/-- **What is printed onto an empty buffer** is printed onto every output. -/
theorem emits_print (r : Registry) (t : Term) :
    r.Emits t (r.print t Buffer.empty).output.text (r.print t Buffer.empty).failure := by
  have hsingle {σ : Type} (put : σ → Char → σ) (s : σ) :=
    @printAt_map r Buffer σ _ (singly put) _ (Buffer.hom_onto put s) loosest t Buffer.empty
  refine ⟨fun b => ?_, fun put s => hsingle put s, fun log => ?_⟩
  · rw [← r.pieces_print t]
    exact r.printAt_behind loosest t b
  · have hlog := hsingle (fun log c => log.putPiece (String.singleton c)) log
    have hprint : r.print t log = _ := hlog
    rw [hprint]
    exact ⟨rfl, CallLog.calls_foldl log _⟩

theorem emits_of_textOf {text : String} (h : r.textOf t = .ok text) : r.Emits t text none := by
  have hemits := r.emits_print t
  unfold textOf at h
  dsimp only at h
  split at h
  · rename_i hnone
    rwa [hnone, Except.ok.inj h] at hemits
  · cases h

theorem exists_emits_of_textOf {e : Failure} (h : r.textOf t = .error e) :
    ∃ text, r.Emits t text (some e) := by
  have hemits := r.emits_print t
  unfold textOf at h
  dsimp only at h
  split at h
  · cases h
  · rename_i hsome
    rw [hsome, Except.error.inj h] at hemits
    exact ⟨_, hemits⟩

end Registry

end TermCalc
