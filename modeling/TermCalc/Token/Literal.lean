import TermCalc.Text.Class
import TermCalc.Number.Notation

/-!
# The shapes of tokens

How many of the characters ahead belong to a token, and what they mean. Everything here works on
a list of characters alone.

* `NumberLiteral.scan`: digits, then a period with digits behind it, then an `e` with digits behind
  it; a part without its digits is no part of the literal.
* `stringBody`: the characters up to the closing quote, escapes decoded.
* `symbolLength`: the longest known operator at the start of a run of operator characters.
* `commentLength`: a comment, from its second character on.
-/

namespace TermCalc

/-- The digits at the start of a text. -/
def digitRun (cs : List Char) : List Char := cs.takeWhile isDigit

/-- The parts of a number literal. -/
structure NumberLiteral where
  whole : List Char
  /-- The digits behind the period. -/
  fraction : List Char
  /-- The `e` as written with what follows it: a sign, if there is one, and digits. -/
  exponent : List Char
  deriving DecidableEq, Repr

namespace NumberLiteral

/-- The digits behind a period, if the text starts with one and digits follow. -/
def fractionAt : List Char → List Char
  | '.' :: rest => digitRun rest
  | _ => []

/-- The sign at the start of a text. -/
def signAt : List Char → List Char
  | c :: _ => if c == '+' || c == '-' then [c] else []
  | [] => []

/-- The exponent part at the start of a text. -/
def exponentAt : List Char → List Char
  | c :: rest =>
    if c == 'e' || c == 'E' then
      let sign := signAt rest
      let digits := digitRun (rest.drop sign.length)
      if digits.isEmpty then [] else c :: (sign ++ digits)
    else []
  | [] => []

/-- The number of characters of a fraction, with its period. -/
def fractionLength (fraction : List Char) : Nat :=
  if fraction.isEmpty then 0 else fraction.length + 1

/-- **The longest number literal at the start of a text.** -/
def scan (cs : List Char) : NumberLiteral :=
  let whole := digitRun cs
  let fraction := fractionAt (cs.drop whole.length)
  let exponent := exponentAt (cs.drop (whole.length + fractionLength fraction))
  ⟨whole, fraction, exponent⟩

/-- The number of characters of a literal. -/
def length (x : NumberLiteral) : Nat :=
  x.whole.length + fractionLength x.fraction + x.exponent.length

/-- Whether a literal is that of an integer. -/
def isInteger (x : NumberLiteral) : Bool := x.fraction.isEmpty && x.exponent.isEmpty

/-- The power of ten that an exponent part stands for. -/
def exponentValue (exponent : List Char) : Int :=
  let digits := exponent.filter isDigit
  let size : Int := Nat.ofDigitChars 10 digits 0
  if exponent.contains '-' then -size else size

/-- The double that a literal denotes. -/
def double (x : NumberLiteral) : Float :=
  let digits := x.whole ++ x.fraction
  doubleOfDecimal false (Nat.ofDigitChars 10 digits 0) digits.length
    (exponentValue x.exponent - x.fraction.length)

end NumberLiteral

/-- The character that stands for itself and a letter for a control character behind a
backslash. -/
def unescaped (c : Char) : Char :=
  if c == 'n' then '\n' else if c == 't' then '\t' else c

/-- **The content of a string literal** behind its opening quote, and the number of characters up
to and with the closing one; `none` if there is no closing quote. -/
def stringBody : List Char → Option (List Char × Nat)
  | [] => none
  | '"' :: _ => some ([], 1)
  | '\\' :: c :: rest => (stringBody rest).map fun (cs, n) => (unescaped c :: cs, n + 2)
  | c :: rest => (stringBody rest).map fun (cs, n) => (c :: cs, n + 1)

/-- Whether a spelling is a proper part of a run, at its start. -/
def startsRun (run : List Char) (spelling : String) : Bool :=
  spelling.toList.isPrefixOf run && spelling != "" && spelling.length < run.length

/-- The length of the longest known spelling that is a proper part of a run, at its start. -/
def longestKnown (known : List String) (run : List Char) : Option Nat :=
  ((known.filter (startsRun run)).map String.length).max?

/-- **The length of the operator at the start of a run** of operator characters: all of the run if
it is known, or if nothing is known, or if no part of it is known; else the longest known part. -/
def symbolLength (known : List String) (run : List Char) : Nat :=
  if known.isEmpty || known.contains (String.ofList run) then run.length
  else (longestKnown known run).getD run.length

/-- The number of characters up to and with the first `*/`. -/
def blockEnd : List Char → Option Nat
  | [] => none
  | '*' :: '/' :: _ => some 2
  | _ :: rest => (blockEnd rest).map (· + 1)

/-- The length of a comment from its second character on: up to the end of the line if that is a
slash, else up to and with `*/`. -/
def commentLength (second : Char) (rest : List Char) : Option Nat :=
  if second == '/' then some (1 + (rest.takeWhile (· != '\n')).length)
  else (blockEnd rest).map (· + 1)

/-- Whether a comment starts a text. -/
def startsComment : List Char → Bool
  | '/' :: '/' :: _ => true
  | '/' :: '*' :: _ => true
  | _ => false

theorem longestKnown_pos {known : List String} {run : List Char} {k : Nat}
    (h : longestKnown known run = some k) : 0 < k := by
  have hmem := List.max?_mem h
  simp only [List.mem_map, List.mem_filter, startsRun, Bool.and_eq_true, bne_iff_ne] at hmem
  obtain ⟨s, ⟨-, ⟨-, hne⟩, -⟩, rfl⟩ := hmem
  exact Nat.pos_of_ne_zero fun h0 => hne (String.length_eq_zero_iff.1 h0)

theorem symbolLength_pos (known : List String) {run : List Char} (h : run ≠ []) :
    0 < symbolLength known run := by
  have hlen : 0 < run.length := List.length_pos_iff.2 h
  unfold symbolLength
  split
  · exact hlen
  · cases hk : longestKnown known run with
    | none => simpa using hlen
    | some k => simpa using longestKnown_pos hk

end TermCalc
