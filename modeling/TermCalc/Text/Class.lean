import TermCalc.Text.Decimals
import TermCalc.Text.Letters
import TermCalc.Text.Numerals
import TermCalc.Text.Unprintable

/-!
# Character classes

The classes that the lexer, the printer and quoted text ask about.

* `isLetter`, `isNumeral`, `isAlphanumeric`: the characters of names.
* `isDecimal`: the digits of numbers on a command line.
* `isPrintable`: the characters that quoted text shows as they are.
* `isDigit`, `isBlank`, `isOperatorChar`, `isNameStart`, `isNameChar`: the alphabet of the
  source language.
* `isNamePiece`: the same question as `isNameChar`, asked about a text.
-/

namespace TermCalc

/-- Letters of any script. -/
def isLetter (c : Char) : Bool :=
  if c.toNat < 0x80 then c.isAlpha else letterRanges.holds c.toNat

/-- Characters with a numeric value, such as digits of any script, fractions and Roman numerals. -/
def isNumeral (c : Char) : Bool :=
  if c.toNat < 0x80 then c.isDigit else numeralRanges.holds c.toNat

/-- The decimal digits of any script. -/
def isDecimal (c : Char) : Bool :=
  if c.toNat < 0x80 then c.isDigit else decimalRanges.holds c.toNat

/-- Letters and numerals. -/
def isAlphanumeric (c : Char) : Bool := isLetter c || isNumeral c

/-- Characters that stand for themselves in quoted text: no controls, and no separators but the
space. -/
def isPrintable (c : Char) : Bool :=
  if c.toNat < 0x80 then 0x20 ≤ c.toNat && c.toNat < 0x7F else !unprintableRanges.holds c.toNat

/-- The ten digits of number literals. -/
def isDigit (c : Char) : Bool := '0' ≤ c && c ≤ '9'

/-- The characters that separate tokens and mean nothing else. -/
def isBlank (c : Char) : Bool :=
  c == ' ' || c == '\t' || c == '\n' || c == '\r' || c == '\x0c'

/-- The characters of operator symbols. -/
def operatorChars : List Char :=
  ['~', '\x60', '!', '@', '#', '$', '^', '&', '*', '-', '=', '+', ':', '<', '>', '?', '/', '\\',
   '|', '%', '.']

/-- Whether a character belongs to operator symbols. -/
def isOperatorChar (c : Char) : Bool := operatorChars.contains c

/-- The first character of a name. -/
def isNameStart (c : Char) : Bool := isLetter c || c == '_'

/-- The later characters of a name. -/
def isNameChar (c : Char) : Bool := isAlphanumeric c || c == '_' || c == '\''

/-- Whether a text is alphanumeric, or part of the two other characters of names side by side. -/
def isNamePiece (text : String) : Bool :=
  (text != "" && text.all isAlphanumeric) || ["", "_", "'", "_'"].contains text

theorem isNameChar_of_isNameStart {c : Char} (h : isNameStart c = true) : isNameChar c = true := by
  simp only [isNameStart, Bool.or_eq_true] at h
  simp only [isNameChar, isAlphanumeric, Bool.or_eq_true]
  rcases h with h | h
  · exact .inl (.inl (.inl h))
  · exact .inl (.inr h)

end TermCalc
