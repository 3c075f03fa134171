import TermCalc.Text.Class

/-!
# Quoted text

The form in which messages show a piece of text: between quotes, on one line, every character
visible.

* `quoteFor`: the quote is `'`, unless the text holds `'` and no `"`.
* `escaped`: a character between the quotes. The quote and the backslash get a backslash, line
  feed, carriage return and tab their letter, other unprintable characters their code in
  hexadecimal: two digits after `\x`, four after `\u` or eight after `\U`.
* `quoted`: the whole.
-/

namespace TermCalc

/-- The lower-case hexadecimal digits of `n`, `width` of them. -/
def hexDigits : Nat → Nat → List Char
  | 0, _ => []
  | width + 1, n => hexDigits width (n / 16) ++ [Nat.digitChar (n % 16)]

/-- The quote around a text. -/
def quoteFor (text : List Char) : Char :=
  if text.contains '\'' && !text.contains '"' then '"' else '\''

/-- A character as it stands between quotes. -/
def escaped (quote c : Char) : List Char :=
  if c == quote || c == '\\' then ['\\', c]
  else if c == '\n' then ['\\', 'n']
  else if c == '\r' then ['\\', 'r']
  else if c == '\t' then ['\\', 't']
  else if isPrintable c then [c]
  else if c.toNat < 0x100 then '\\' :: 'x' :: hexDigits 2 c.toNat
  else if c.toNat < 0x10000 then '\\' :: 'u' :: hexDigits 4 c.toNat
  else '\\' :: 'U' :: hexDigits 8 c.toNat

/-- **A text between quotes**, every character visible. -/
def quoted (text : String) : String :=
  let chars := text.toList
  let quote := quoteFor chars
  String.ofList (quote :: chars.flatMap (escaped quote) ++ [quote])

end TermCalc
