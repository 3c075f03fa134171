import TermCalc.Term.Equality

/-!
# Tokens

The pieces of a source: literals, names, operator symbols, the eight marks and the end. Every token
carries a value. Reading a text gives each kind of token its own kind of value, but tokens may also
be made by hand, with any value.

* `Mark`, `TokenKind`, `Token`.
* `Token.ofMark`, `Token.ofEnd`: the tokens whose kind determines their value.
* `Token.shown`, `Token.shownInError`: tokens as listings and messages show them.
* `Token.spelling?`: what can be looked up as an operator: the text of a symbol or a name.
-/

namespace TermCalc

/-- The characters that are tokens by themselves. -/
inductive Mark where
  | openParen | closeParen | openBrace | closeBrace | openBracket | closeBracket | comma | semicolon
  deriving DecidableEq, Repr

namespace Mark

/-- The character of a mark. -/
def char : Mark → Char
  | openParen => '(' | closeParen => ')' | openBrace => '\x7b' | closeBrace => '\x7d'
  | openBracket => '[' | closeBracket => ']' | comma => ',' | semicolon => ';'

/-- The kind of token that a mark is, as messages name it. -/
def kindName : Mark → String
  | openParen => "LPAREN" | closeParen => "RPAREN" | openBrace => "LBRACE" | closeBrace => "RBRACE"
  | openBracket => "LBRACKET" | closeBracket => "RBRACKET" | comma => "COMMA"
  | semicolon => "SEMICOLON"

/-- The mark that a character is. -/
def ofChar? (c : Char) : Option Mark :=
  if c == '(' then some openParen else if c == ')' then some closeParen
  else if c == '\x7b' then some openBrace else if c == '\x7d' then some closeBrace
  else if c == '[' then some openBracket else if c == ']' then some closeBracket
  else if c == ',' then some comma else if c == ';' then some semicolon
  else none

theorem ofChar?_char (m : Mark) : ofChar? m.char = some m := by cases m <;> rfl

end Mark

/-- The kinds of tokens. -/
inductive TokenKind where
  | number
  | string
  | atom
  | operator
  | mark (m : Mark)
  | finish
  deriving DecidableEq, Repr

/-- A kind of token, as messages name it. -/
def TokenKind.name : TokenKind → String
  | number => "NUMBER"
  | string => "STRING"
  | atom => "ATOM"
  | operator => "OPERATOR"
  | mark m => m.kindName
  | finish => "EOF"

/-- **A token**: its kind, its value and the place of its first character. -/
structure Token where
  kind : TokenKind
  value : Term
  pos : Pos
  deriving DecidableEq

namespace Token

/-- The token of a mark: its value is its character. -/
def ofMark (m : Mark) (pos : Pos) : Token := ⟨.mark m, .str (String.singleton m.char), pos⟩

/-- The token behind all others, which has no value. -/
def ofEnd (pos : Pos) : Token := ⟨.finish, .nothing, pos⟩

/-- The token of a text without tokens. -/
def theEnd : Token := ofEnd ⟨1, 1⟩

/-- What may be looked up as an operator. -/
def spelling? (t : Token) : Option String :=
  match t.kind, t.value with
  | .atom, .str s => some s
  | .operator, .str s => some s
  | _, _ => none

/-- Whether a name or symbol is spelled by a list, which cannot even be looked up. -/
def spelledByList (t : Token) : Bool :=
  match t.kind, t.value with
  | .atom, .list _ => true
  | .operator, .list _ => true
  | _, _ => false

/-- Kind and value of a token, as error messages show them. -/
def shownInError (t : Token) : String := t.kind.name ++ " (" ++ t.value.shown ++ ")"

/-- A token as listings show it. -/
def shown (t : Token) : String :=
  "Token(" ++ t.kind.name ++ ", " ++ t.value.shown ++ ", " ++ t.pos.text ++ ")"

end Token

end TermCalc
