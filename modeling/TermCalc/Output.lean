import TermCalc.Failure

/-!
# Output

Where text is written to. Every output takes single characters; one that can do better for a
whole text may.

* `Output`: the interface. `Output.write` of an output that says nothing else puts one character
  after the other.
* `Buffer`: the text so far, and how many pieces it was put together from.
* `CallLog`: an output of single pieces that remembers each of them.
* `Printed`: an output after printing, and the failure that ended the printing, if one did. What
  was written before a failure stays.
-/

namespace TermCalc

/-- **What takes text.** -/
class Output (σ : Type) where
  put : σ → Char → σ
  write : σ → String → σ := fun s text => text.toList.foldl put s

/-- An output that keeps the text written to it. A piece is a character, unless more or less than
one was put at once. -/
structure Buffer where
  text : String
  pieces : Nat
  deriving DecidableEq, Repr, Inhabited

namespace Buffer

/-- The buffer without text. -/
def empty : Buffer := ⟨"", 0⟩

/-- A buffer that holds a text, every character a piece. -/
def ofText (text : String) : Buffer := ⟨text, text.length⟩

/-- Put a text as one piece. -/
def putPiece (b : Buffer) (text : String) : Buffer := ⟨b.text ++ text, b.pieces + 1⟩

instance : Output Buffer where
  put b c := ⟨b.text.push c, b.pieces + 1⟩
  write b text := ⟨b.text ++ text, b.pieces + text.length⟩

/-- Hand over the text and start anew. -/
def release (b : Buffer) : String × Buffer := (b.text, empty)

/-- A buffer as messages show it. -/
def shown (b : Buffer) : String := "StringOutput(" ++ quoted b.text ++ ")"

end Buffer

/-- An output that remembers the pieces put to it, the latest first. -/
structure CallLog where
  latest : List String
  deriving DecidableEq, Repr

namespace CallLog

/-- The pieces in order. -/
def calls (log : CallLog) : List String := log.latest.reverse

/-- Put a text as one piece. -/
def putPiece (log : CallLog) (text : String) : CallLog := ⟨text :: log.latest⟩

theorem calls_putPiece (log : CallLog) (text : String) :
    (log.putPiece text).calls = log.calls ++ [text] := by simp [calls, putPiece]

end CallLog

instance : Output CallLog where
  put log c := log.putPiece (String.singleton c)

/-- **An output after printing.** -/
structure Printed (σ : Type) where
  output : σ
  failure : Option Failure

namespace Printed

variable {σ : Type}

/-- Nothing printed. -/
def done (output : σ) : Printed σ := ⟨output, none⟩

/-- Printing ended by a failure. -/
def fail (output : σ) (failure : Failure) : Printed σ := ⟨output, some failure⟩

/-- Print more, unless printing has ended. -/
def andThen (p : Printed σ) (more : σ → Printed σ) : Printed σ :=
  match p.failure with
  | none => more p.output
  | some _ => p

/-- Put a character, unless printing has ended. -/
def put [Output σ] (p : Printed σ) (c : Char) : Printed σ :=
  p.andThen fun s => done (Output.put s c)

/-- Write a text, unless printing has ended. -/
def write [Output σ] (p : Printed σ) (text : String) : Printed σ :=
  p.andThen fun s => done (Output.write s text)

@[simp] theorem done_andThen (s : σ) (more : σ → Printed σ) : (done s).andThen more = more s := rfl

@[simp] theorem fail_andThen (s : σ) (e : Failure) (more : σ → Printed σ) :
    (fail s e).andThen more = fail s e := rfl

theorem andThen_assoc (p : Printed σ) (f g : σ → Printed σ) :
    (p.andThen f).andThen g = p.andThen fun s => (f s).andThen g := by
  rcases p with ⟨s, _ | e⟩ <;> rfl

end Printed

end TermCalc
