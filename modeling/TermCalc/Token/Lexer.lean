import TermCalc.Cursor
import TermCalc.Token.Literal

/-!
# From text to tokens

Blanks and comments separate tokens; the longest possible token is read at each place.

* `Reading`: what a reader returns, the cursor behind what it has read; a reader that fails says
  where it stopped (`Stop`).
* `Lexer.skipBlank`, `Lexer.skipComment`, `Lexer.readString`, `Lexer.readNumber`,
  `Lexer.readName`, `Lexer.readOperator`: the readers. They may be called anywhere.
* `Lexer.nextToken`: one token. `nextToken_shorter`: a token other than the end takes at least one
  character, so `Lexer.scan` ends.
* `Lexer.scan`, `Lexer.tokens`: all tokens.
-/

namespace TermCalc

/-- A failure, and where the reader stopped. -/
structure Stop where
  failure : Failure
  cursor : Cursor

/-- The result of a reader. -/
abbrev Reading (α : Type) := Except Stop (α × Cursor)

/-- **How a source is cut into tokens**: the name of the source for messages, and the operator
spellings that are known. -/
structure Lexer where
  file : String
  known : List String

namespace Lexer

variable (l : Lexer)

/-- A fault located in the source. -/
def located (pos : Pos) (fault : SourceFault) : Failure :=
  (Failure.source l.file pos fault).reported

/-- Skip a comment. The first two characters are not looked at beyond what tells the two kinds of
comments apart. -/
def skipComment (c : Cursor) : Reading Unit :=
  match c.ahead with
  | [] => .error ⟨.endOfText c.position, c⟩
  | [_] => .error ⟨.endOfText (c.position + 1), c.forward 1⟩
  | _ :: second :: rest =>
    match commentLength second rest with
    | some n => .ok ((), c.forward (1 + n))
    | none => .error ⟨l.located c.pos .unterminatedComment, c.forward c.ahead.length⟩

theorem skipComment_shorter {c c' : Cursor} (h : l.skipComment c = .ok ((), c')) :
    c'.ahead.length < c.ahead.length := by
  unfold skipComment at h
  split at h
  · simp at h
  · simp at h
  · rename_i first second rest hc
    split at h
    · simp only [Except.ok.injEq, Prod.mk.injEq, true_and] at h
      subst h
      simp only [Cursor.ahead_forward, hc, List.length_drop, List.length_cons]
      omega
    · simp at h

/-- **Skip blanks and comments.** -/
def skipBlank (c : Cursor) : Reading Unit :=
  match _ha : c.ahead with
  | [] => .ok ((), c)
  | ch :: rest =>
    if isBlank ch then skipBlank (c.forward 1)
    else if startsComment (ch :: rest) then
      match _hs : l.skipComment c with
      | .ok ((), c') => skipBlank c'
      | .error stop => .error stop
    else .ok ((), c)
termination_by c.ahead.length
decreasing_by
  · simp [_ha]
  · exact skipComment_shorter l _hs

theorem skipBlank_le {c c' : Cursor} (h : l.skipBlank c = .ok ((), c')) :
    c'.ahead.length ≤ c.ahead.length := by
  fun_induction skipBlank l c with
  | case1 c ha => simp_all
  | case2 c ch rest ha hb ih =>
    have := ih h
    simp only [Cursor.ahead_forward, List.length_drop] at this
    omega
  | case3 c ch rest ha hb hc c₁ hs ih =>
    have := ih h
    have := skipComment_shorter l hs
    omega
  | case4 => simp at h
  | case5 => simp_all

/-- Read a string literal, its opening quote unseen. -/
def readString (c : Cursor) : Reading String :=
  match c.ahead with
  | [] => .error ⟨.endOfText c.position, c⟩
  | _ :: rest =>
    match stringBody rest with
    | some (content, n) => .ok (String.ofList content, c.forward (1 + n))
    | none =>
      let stop := c.forward c.ahead.length
      .error ⟨l.located stop.pos (.unterminatedString c.pos), stop⟩

/-- The number that a literal denotes. -/
def numberOf (x : NumberLiteral) : Except Failure Num :=
  if x.isInteger then
    if x.whole.isEmpty then .error .malformedNumber
    else if Num.maxDigits < x.whole.length then .error .tooManyDigits
    else .ok (.int (Nat.ofDigitChars 10 x.whole 0))
  else if x.whole.isEmpty && x.fraction.isEmpty then .error .malformedNumber
  else .ok (.float x.double)

/-- Read a number. -/
def readNumber (c : Cursor) : Reading Num :=
  let x := NumberLiteral.scan c.ahead
  let c' := c.forward x.length
  match numberOf x with
  | .ok n => .ok (n, c')
  | .error failure => .error ⟨failure, c'⟩

/-- Read a run of name characters. -/
def readName (c : Cursor) : String × Cursor :=
  let run := c.ahead.takeWhile isNameChar
  (String.ofList run, c.forward run.length)

/-- Read an operator from the run of operator characters ahead. -/
def readOperator (c : Cursor) : String × Cursor :=
  let run := c.ahead.takeWhile isOperatorChar
  let n := symbolLength l.known run
  (String.ofList (run.take n), c.forward n)

/-- The token that starts at the cursor, blanks not skipped. -/
def tokenHere (c : Cursor) : Reading Token :=
  match c.ahead with
  | [] => .ok (.ofEnd c.pos, c)
  | ch :: _ =>
    match Mark.ofChar? ch with
    | some m => .ok (.ofMark m c.pos, c.forward 1)
    | none =>
      if ch == '"' then
        match l.readString c with
        | .ok (s, c') => .ok (⟨.string, .str s, c.pos⟩, c')
        | .error stop => .error stop
      else if isDigit ch then
        match readNumber c with
        | .ok (n, c') => .ok (⟨.number, .num n, c.pos⟩, c')
        | .error stop => .error stop
      else if isNameStart ch then
        let (name, c') := readName c
        .ok (⟨.atom, .str name, c.pos⟩, c')
      else if isOperatorChar ch then
        let (symbol, c') := l.readOperator c
        .ok (⟨.operator, .str symbol, c.pos⟩, c')
      else .error ⟨l.located c.pos (.unexpectedCharacter ch), c⟩

/-- **The next token**, blanks and comments before it skipped. -/
def nextToken (c : Cursor) : Reading Token :=
  match l.skipBlank c with
  | .ok ((), c') => l.tokenHere c'
  | .error stop => .error stop

theorem tokenHere_shorter {c c' : Cursor} {t : Token} (h : l.tokenHere c = .ok (t, c'))
    (ht : t.kind ≠ .finish) : c'.ahead.length < c.ahead.length := by
  unfold tokenHere at h
  split at h
  · simp only [Except.ok.injEq, Prod.mk.injEq] at h
    obtain ⟨rfl, -⟩ := h
    exact absurd rfl ht
  · rename_i ch rest hc
    split at h
    · simp only [Except.ok.injEq, Prod.mk.injEq] at h
      obtain ⟨-, rfl⟩ := h
      simp [hc]
    · split at h
      · split at h
        · rename_i s c₁ hr
          simp only [Except.ok.injEq, Prod.mk.injEq] at h
          obtain ⟨-, rfl⟩ := h
          unfold readString at hr
          split at hr
          · simp at hr
          · split at hr
            · simp only [Except.ok.injEq, Prod.mk.injEq] at hr
              obtain ⟨-, rfl⟩ := hr
              simp only [Cursor.ahead_forward, hc, List.length_drop, List.length_cons]
              omega
            · simp at hr
        · simp at h
      · split at h
        · rename_i hd
          split at h
          · rename_i n c₁ hr
            simp only [Except.ok.injEq, Prod.mk.injEq] at h
            obtain ⟨-, rfl⟩ := h
            unfold readNumber at hr
            simp only at hr
            split at hr
            · simp only [Except.ok.injEq, Prod.mk.injEq] at hr
              obtain ⟨-, rfl⟩ := hr
              have : 0 < (NumberLiteral.scan c.ahead).length := by
                simp only [NumberLiteral.length, NumberLiteral.scan, digitRun, hc,
                  List.takeWhile_cons, hd, if_true, List.length_cons]
                omega
              simp only [Cursor.ahead_forward, List.length_drop]
              have : 0 < c.ahead.length := by simp [hc]
              omega
            · simp at hr
          · simp at h
        · split at h
          · rename_i hn
            simp only [readName, Except.ok.injEq, Prod.mk.injEq] at h
            obtain ⟨-, rfl⟩ := h
            simp only [Cursor.ahead_forward, hc, List.takeWhile_cons,
              isNameChar_of_isNameStart hn, if_true, List.length_cons, List.length_drop]
            omega
          · split at h
            · rename_i ho
              simp only [readOperator, Except.ok.injEq, Prod.mk.injEq] at h
              obtain ⟨-, rfl⟩ := h
              have : 0 < symbolLength l.known (c.ahead.takeWhile isOperatorChar) :=
                symbolLength_pos _ (by simp [hc, ho])
              simp only [Cursor.ahead_forward, List.length_drop]
              have : 0 < c.ahead.length := by simp [hc]
              omega
            · simp at h

theorem nextToken_shorter {c c' : Cursor} {t : Token} (h : l.nextToken c = .ok (t, c'))
    (ht : t.kind ≠ .finish) : c'.ahead.length < c.ahead.length := by
  unfold nextToken at h
  split at h
  · rename_i c₁ hs
    have := skipBlank_le l hs
    have := tokenHere_shorter l h ht
    omega
  · simp at h

/-- What a lexer has made of a text: the tokens in order, where it ended, and the failure that
ended it, if one did. -/
structure Scan where
  tokens : List Token
  cursor : Cursor
  failure : Option Failure

/-- **All tokens from the cursor on**, up to the end or to the first failure. -/
def scan (c : Cursor) : Scan :=
  match _h : l.nextToken c with
  | .error stop => ⟨[], stop.cursor, some stop.failure⟩
  | .ok (t, c') =>
    if _ht : t.kind = .finish then ⟨[t], c', none⟩
    else
      let rest := scan c'
      { rest with tokens := t :: rest.tokens }
termination_by c.ahead.length
decreasing_by exact nextToken_shorter l _h _ht

/-- The tokens of a text, or what is wrong with it. -/
def tokensFrom (c : Cursor) : Except Failure (List Token) :=
  let s := l.scan c
  match s.failure with
  | none => .ok s.tokens
  | some failure => .error failure

/-- **The tokens of a source.** -/
def tokens (source : String) : Except Failure (List Token) := l.tokensFrom (.start source 1)

end Lexer

end TermCalc
