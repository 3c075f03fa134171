import TermCalc.Registry.Basic
import TermCalc.Term.Tree
import TermCalc.Token.Lexer

/-!
# From tokens to trees

Operators are read by precedence climbing: an operand, then every infix and postfix operator that
binds no looser than a given depth. Infix operators associate to the left. All other syntax is
calls, lists in braces, blocks in brackets and parentheses.

* `Rest`: what a parsing function returns; the tokens left are fewer than those given, which is why
  parsing ends.
* `Parser.expression`, `Parser.operators`, `Parser.operand`, `Parser.primary`, `Parser.call`,
  `Parser.arguments`, `Parser.block`: the syntax, a function for each form.
* `Parser.statements`, `Parser.parseTokens`: the trees of all statements.
* `Parser.parse`: the expressions of a source.
-/

namespace TermCalc

/-- **A result and the tokens behind it**, fewer than `n`. -/
structure Rest (α : Type) (n : Nat) where
  value : α
  tokens : List Token
  fewer : tokens.length < n

/-- The same result where more tokens were given. -/
def Rest.widen {α : Type} {m n : Nat} (x : Rest α m) (h : m ≤ n) : Rest α n :=
  ⟨x.value, x.tokens, Nat.lt_of_lt_of_le x.fewer h⟩

/-- The tokens behind a mark, if the tokens start with it. -/
def Mark.after? (m : Mark) : List Token → Option (List Token)
  | [] => none
  | t :: rest => if t.kind = .mark m then some rest else none

theorem Mark.length_of_after? {m : Mark} {ts rest : List Token} (h : m.after? ts = some rest) :
    ts.length = rest.length + 1 := by
  cases ts with
  | nil => simp [after?] at h
  | cons t ts =>
    simp only [after?, Option.ite_none_right_eq_some, Option.some.injEq] at h
    simp [h.2]

/-- **How tokens are read**: the operators and names that there are, and the name of the source for
messages. -/
structure Parser where
  registry : Registry
  file : String

namespace Parser

variable (p : Parser)

/-- The token to be read next. -/
def current (ts : List Token) : Token := ts.headD .theEnd

/-- A fault at a token. -/
def fault {α : Type} (t : Token) (cause : SourceFault) : Except Failure α :=
  .error (Failure.source p.file t.pos cause).reported

/-- Take a mark. -/
def expect (m : Mark) (ts : List Token) : Except Failure (Rest Unit ts.length) :=
  match h : m.after? ts with
  | some rest => .ok ⟨(), rest, by have := Mark.length_of_after? h; omega⟩
  | none => p.fault (current ts) (.expected m (current ts))

/-- The operator that a token is in a position. -/
def operatorAt? (fixity : Fixity) (t : Token) : Option Operator :=
  t.spelling?.bind (p.registry.operator? fixity)

/-- The infix or else postfix operator that a token is, if it binds no looser than `depth`. -/
def following? (t : Token) (depth : Int) : Option Operator :=
  ((p.operatorAt? .infixed t).filter (·.precedence ≤ depth)).or
    ((p.operatorAt? .postfixed t).filter (·.precedence ≤ depth))

/-- The form of the operator that a token is. The operator must name a builtin. -/
def operatorForm (op : Operator) (operands : List Tree) (t : Token) : Except Failure Tree :=
  if p.registry.contains op.name then .ok (.form t operands)
  else p.fault t (.unboundOperator op.fixity op.name)

mutual

/-- **An expression** whose operators bind no looser than `depth`. -/
def expression (ts : List Token) (depth : Int) : Except Failure (Rest Tree ts.length) := do
  let lhs ← operand ts
  let x ← operators lhs.value lhs.tokens depth
  return x.widen lhs.fewer
termination_by (ts.length, 2)
decreasing_by
  · simp [Prod.lex_def]
  · have := lhs.fewer; simp [Prod.lex_def]; omega

/-- **The infix and postfix operators** behind an expression. What stands there is looked up first,
which fails where it is spelled by a list. -/
def operators (lhs : Tree) (ts : List Token) (depth : Int) :
    Except Failure (Rest Tree (ts.length + 1)) :=
  match ts with
  | [] => .ok ⟨lhs, [], by simp⟩
  | t :: rest =>
    if t.spelledByList then .error .listLookedUp
    else
      match p.following? t depth with
      | some op =>
        if op.fixity = .infixed then do
          let rhs ← expression rest (op.precedence - 1)
          let lhs ← p.operatorForm op [lhs, rhs.value] t
          let x ← operators lhs rhs.tokens depth
          return x.widen (by have := rhs.fewer; simp; omega)
        else do
          let lhs ← p.operatorForm op [lhs] t
          let x ← operators lhs rest depth
          return x.widen (by simp)
      | none => .ok ⟨lhs, t :: rest, by simp⟩
termination_by (ts.length, 1)
decreasing_by
  · simp [Prod.lex_def]
  · have := rhs.fewer; simp [Prod.lex_def]; omega
  · simp [Prod.lex_def]

/-- **An operand**: the application of a prefix operator, or a primary expression.

A symbol before a parenthesis is a call. If it is a prefix operator and has one argument, the
operator is applied to what starts with that argument, so that `-(a) ^ 2` negates `a ^ 2`. A name
before a parenthesis is a call too, even that of a prefix operator. Either is looked up first, which
fails where it is spelled by a list. -/
def operand (ts : List Token) : Except Failure (Rest Tree ts.length) :=
  match ts with
  | [] => p.fault .theEnd .unexpectedEnd
  | t :: rest =>
    if t.spelledByList then .error .listLookedUp
    else
      match _h : Mark.openParen.after? rest, t.kind, p.operatorAt? .prefixed t with
      | some inner, .operator, prefixOp => do
        let operands ← arguments .closeParen inner
        match prefixOp, operands.value with
        | some op, [first] =>
          let x ← operators first operands.tokens op.precedence
          let e ← p.operatorForm op [x.value] t
          return ⟨e, x.tokens, by
            have := x.fewer; have := operands.fewer; have := Mark.length_of_after? _h
            simp; omega⟩
        | _, values =>
          return ⟨.form t values, operands.tokens, by
            have := operands.fewer; have := Mark.length_of_after? _h
            simp; omega⟩
      | none, _, some op => do
        let x ← expression rest op.precedence
        let e ← p.operatorForm op [x.value] t
        return ⟨e, x.tokens, by have := x.fewer; simp; omega⟩
      | _, _, _ => primary t rest
termination_by (ts.length, 1)
decreasing_by
  · have := Mark.length_of_after? _h; simp [Prod.lex_def]; omega
  · have := operands.fewer; have := Mark.length_of_after? _h; simp [Prod.lex_def]; omega
  · simp [Prod.lex_def]
  · simp [Prod.lex_def]

/-- **A primary expression** that starts with a token: a literal, an atom, a call, or something
between brackets. -/
def primary (t : Token) (rest : List Token) : Except Failure (Rest Tree (rest.length + 1)) :=
  match t.kind with
  | .number => .ok ⟨.leaf t, rest, by simp⟩
  | .string => .ok ⟨.leaf t, rest, by simp⟩
  | .atom =>
    match _h : Mark.openParen.after? rest with
    | some inner => do
      let x ← call t inner
      return x.widen (by have := Mark.length_of_after? _h; omega)
    | none => .ok ⟨.leaf t, rest, by simp⟩
  | .mark .openParen => do
    let x ← expression rest loosest
    let close ← p.expect .closeParen x.tokens
    return ⟨x.value, close.tokens, by have := x.fewer; have := close.fewer; omega⟩
  | .mark .openBrace => do
    let items ← arguments .closeBrace rest
    return ⟨.form t items.value, items.tokens, by have := items.fewer; omega⟩
  | .mark .openBracket => do
    let body ← block t rest
    return ⟨.form t body.value, body.tokens, by have := body.fewer; omega⟩
  | .finish => p.fault t .unexpectedEnd
  | _ => p.fault t (.unexpectedToken t)
termination_by (rest.length + 1, 0)
decreasing_by
  · have := Mark.length_of_after? _h; simp [Prod.lex_def]; omega
  · simp [Prod.lex_def]
  · simp [Prod.lex_def]
  · simp [Prod.lex_def]

/-- **A call** of a name, from behind its opening parenthesis. A bodied operator has its last
argument behind the closing one. -/
def call (t : Token) (inner : List Token) : Except Failure (Rest Tree inner.length) := do
  let operands ← arguments .closeParen inner
  match p.operatorAt? .bodied t with
  | some op =>
    let body ← expression operands.tokens op.precedence
    let e ← p.operatorForm op (operands.value ++ [body.value]) t
    return ⟨e, body.tokens, by have := body.fewer; have := operands.fewer; omega⟩
  | none => return ⟨.form t operands.value, operands.tokens, operands.fewer⟩
termination_by (inner.length, 5)
decreasing_by
  · simp [Prod.lex_def]
  · have := operands.fewer; simp [Prod.lex_def]; omega

/-- **Expressions between commas**, up to and with a closing mark; possibly none. -/
def arguments (closing : Mark) (ts : List Token) : Except Failure (Rest (List Tree) ts.length) :=
  match _h : closing.after? ts with
  | some rest => .ok ⟨[], rest, by have := Mark.length_of_after? _h; omega⟩
  | none => argumentList closing ts
termination_by (ts.length, 4)
decreasing_by simp [Prod.lex_def]

/-- At least one expression, commas between them, up to and with a closing mark. -/
def argumentList (closing : Mark) (ts : List Token) :
    Except Failure (Rest (List Tree) ts.length) := do
  let x ← expression ts loosest
  match _h : Mark.comma.after? x.tokens with
  | some rest =>
    let more ← argumentList closing rest
    return ⟨x.value :: more.value, more.tokens, by
      have := more.fewer; have := x.fewer; have := Mark.length_of_after? _h; omega⟩
  | none =>
    let close ← p.expect closing x.tokens
    return ⟨[x.value], close.tokens, by have := x.fewer; have := close.fewer; omega⟩
termination_by (ts.length, 3)
decreasing_by
  · simp [Prod.lex_def]
  · have := x.fewer; have := Mark.length_of_after? _h; simp [Prod.lex_def]; omega

/-- **The statements of a block**, up to and with its closing bracket. `start` is the token of its
opening one. -/
def block (start : Token) (ts : List Token) : Except Failure (Rest (List Tree) ts.length) :=
  match ts with
  | [] => p.fault start .unterminatedBlock
  | t :: rest =>
    if t.kind = .mark .closeBracket then .ok ⟨[], rest, by simp⟩
    else if t.kind = .finish then p.fault start .unterminatedBlock
    else if t.kind = .mark .semicolon then do
      let more ← block start rest
      return more.widen (by simp)
    else do
      let x ← expression (t :: rest) loosest
      let separator := current x.tokens
      if separator.kind = .mark .closeBracket ∨ separator.kind = .finish then
        let more ← block start x.tokens
        return ⟨x.value :: more.value, more.tokens, by have := more.fewer; have := x.fewer; omega⟩
      else
        let next ← p.expect .semicolon x.tokens
        let more ← block start next.tokens
        return ⟨x.value :: more.value, more.tokens, by
          have := more.fewer; have := x.fewer; have := next.fewer; omega⟩
termination_by (ts.length, 3)
decreasing_by
  · simp [Prod.lex_def]
  · simp [Prod.lex_def]
  · have := x.fewer; simp [Prod.lex_def] at *; omega
  · have := x.fewer; have := next.fewer; simp [Prod.lex_def] at *; omega

end

/-- **The statements of a source**, separated by semicolons, up to the end. -/
def statements (ts : List Token) : Except Failure (List Tree) :=
  match ts with
  | [] => .ok []
  | t :: rest =>
    if t.kind = .finish then .ok []
    else if t.kind = .mark .semicolon then statements rest
    else do
      let x ← p.expression (t :: rest) loosest
      if (current x.tokens).kind = .finish then return [x.value]
      else
        let next ← p.expect .semicolon x.tokens
        let more ← statements next.tokens
        return x.value :: more
termination_by ts.length
decreasing_by
  · simp
  · have := x.fewer; have := next.fewer; omega

/-- The tokens as they are read: those without an end repeat their last token, once for each
bracket that could be open before it. -/
def supply (ts : List Token) : List Token :=
  if ts.any (·.kind == .finish) then ts
  else ts ++ List.replicate ts.length (ts.getLastD .theEnd)

/-- **Parse tokens.** -/
def parseTokens (ts : List Token) : Except Failure (List Tree) := p.statements (supply ts)

/-- **Parse a source.** -/
def parse (source : String) : Except Failure (List Term) := do
  let ts ← Lexer.tokens ⟨p.file, p.registry.operatorNames⟩ source
  let trees ← p.parseTokens ts
  return Tree.terms trees

end Parser

end TermCalc
