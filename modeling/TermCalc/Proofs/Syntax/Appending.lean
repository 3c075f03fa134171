import TermCalc.Proofs.Syntax.Tiling

/-!
# Text behind a text

The tokens of a text are not affected by what stands behind it, if that starts on a new line: no
token runs on over a line feed, and a comment at the end of the text ends there.

* `Breaks`: a text that starts on a new line, if there is anything in it.
* `Cursor.Before`: a cursor that has a text behind all that another has ahead.
* `Lexer.tokenHere_before`, `Lexer.nextToken_before`: each token is read as without the text.
* `Lexer.scan_before`: **the tokens of the text come behind those that are read without it.**
* `Lexer.Passes`: a text that is cut into tokens before another, wherever it stands.
* `Lexer.tokens_joined`: **the tokens of two sources** with a line feed and a semicolon between.
-/

namespace TermCalc

/-- **A text that starts on a new line**, if there is anything in it. -/
def Breaks (ys : List Char) : Prop := ys = [] ∨ ys.head? = some '\n'

namespace Breaks

variable {ys : List Char} (h : Breaks ys)
include h

/-- What is the same before a line feed as at the end is the same before the text. -/
theorem apply_eq {β : Type} {f : List Char → β} (hf : ∀ rest, f ('\n' :: rest) = f []) :
    f ys = f [] := by
  rcases h with rfl | h
  · rfl
  · obtain ⟨rest, rfl⟩ := List.head?_eq_some_iff.1 h
    exact hf rest

/-- What is taken as long as characters are of a class ends at the line feed at the latest. -/
theorem takeWhile {p : Char → Bool} (hp : p '\n' = false) (xs : List Char) :
    (xs ++ ys).takeWhile p = xs.takeWhile p := by
  induction xs with
  | nil => exact h.apply_eq (f := List.takeWhile p) fun rest => by simp [hp]
  | cons x xs ih => rw [List.cons_append, List.takeWhile_cons, List.takeWhile_cons, ih]

theorem startsComment {c : Char} (cs : List Char) :
    startsComment (c :: cs ++ ys) = TermCalc.startsComment (c :: cs) := by
  cases cs with
  | cons d cs => unfold TermCalc.startsComment; split <;> simp_all
  | nil =>
    refine h.apply_eq (f := fun ys => TermCalc.startsComment (c :: ys)) fun rest => ?_
    unfold TermCalc.startsComment
    split <;> simp_all

end Breaks

/-! ### The shapes of tokens -/

theorem stringBody_append {cs : List Char} {x : List Char × Nat} (h : stringBody cs = some x)
    (ys : List Char) : stringBody (cs ++ ys) = some x := by
  fun_induction stringBody cs generalizing x with
  | case1 => cases h
  | case2 rest => exact h
  | case3 c rest ih =>
    obtain ⟨y, hy, rfl⟩ := Option.map_eq_some_iff.1 h
    rw [List.cons_append, List.cons_append, stringBody, ih hy]
    rfl
  | case4 c rest hquote hslash ih =>
    obtain ⟨y, hy, rfl⟩ := Option.map_eq_some_iff.1 h
    rw [List.cons_append, stringBody, ih hy]
    · rfl
    · exact hquote
    · -- a backslash at the very end closes no string
      intro c' rest' hc hrest
      cases rest with
      | nil => cases hy
      | cons d rest => exact hslash d rest hc rfl

theorem blockEnd_append {cs : List Char} {n : Nat} (h : blockEnd cs = some n) (ys : List Char) :
    blockEnd (cs ++ ys) = some n := by
  fun_induction blockEnd cs generalizing n with
  | case1 => cases h
  | case2 rest => exact h
  | case3 c rest hnot ih =>
    obtain ⟨m, hm, rfl⟩ := Option.map_eq_some_iff.1 h
    rw [List.cons_append, blockEnd, ih hm]
    · rfl
    · intro rest' hc hrest
      cases rest with
      | nil => cases hm
      | cons d rest =>
        obtain ⟨rfl, -⟩ := List.cons.inj hrest
        exact hnot rest hc rfl

theorem commentLength_append {second : Char} {rest ys : List Char} (hy : Breaks ys) {n : Nat}
    (h : commentLength second rest = some n) : commentLength second (rest ++ ys) = some n := by
  unfold commentLength at h ⊢
  split at h
  · rename_i hslash
    rw [if_pos hslash, hy.takeWhile rfl]
    exact h
  · rename_i hslash
    obtain ⟨m, hm, rfl⟩ := Option.map_eq_some_iff.1 h
    rw [if_neg hslash, blockEnd_append hm]
    rfl

theorem commentLength_le {second : Char} {rest : List Char} {n : Nat}
    (h : commentLength second rest = some n) : n ≤ rest.length + 1 := by
  unfold commentLength at h
  split at h
  · cases h
    have := (List.takeWhile_prefix (p := (· != '\n')) (l := rest)).length_le
    omega
  · obtain ⟨m, hm, rfl⟩ := Option.map_eq_some_iff.1 h
    obtain ⟨body, after, rfl, rfl, -⟩ := blockEnd_eq_some hm
    simp

namespace NumberLiteral

variable {ys : List Char} (hy : Breaks ys)
include hy

theorem digitRun_append (cs : List Char) : digitRun (cs ++ ys) = digitRun cs :=
  hy.takeWhile (by decide) cs

theorem fractionAt_append (cs : List Char) : fractionAt (cs ++ ys) = fractionAt cs := by
  cases cs with
  | nil => exact hy.apply_eq fun _ => rfl
  | cons c cs =>
    rw [List.cons_append]
    unfold fractionAt
    split
    · rename_i rest heq
      obtain ⟨rfl, rfl⟩ := List.cons.inj heq
      exact digitRun_append hy cs
    · rename_i hnot
      split
      · rename_i rest heq
        obtain ⟨rfl, rfl⟩ := List.cons.inj heq
        exact (hnot _ rfl).elim
      · rfl

theorem signAt_append (cs : List Char) : signAt (cs ++ ys) = signAt cs := by
  cases cs with
  | nil => exact hy.apply_eq fun _ => rfl
  | cons c cs => rfl

theorem exponentAt_append (cs : List Char) : exponentAt (cs ++ ys) = exponentAt cs := by
  cases cs with
  | nil => exact hy.apply_eq fun _ => rfl
  | cons c cs =>
    have hsign : (signAt cs).length ≤ cs.length := (signAt_starts cs).length_le
    simp only [List.cons_append, exponentAt, signAt_append hy,
      List.drop_append_of_le_length hsign, digitRun_append hy]

/-- **A number literal does not run on** over a line feed. -/
theorem scan_append (cs : List Char) : scan (cs ++ ys) = scan cs := by
  have hchars := (chars_starts cs).length_le
  rw [length_chars, length] at hchars
  simp only [scan] at hchars ⊢
  have hwhole : (digitRun cs).length ≤ cs.length := (digitRun_starts cs).length_le
  rw [digitRun_append hy, List.drop_append_of_le_length hwhole, fractionAt_append hy,
    List.drop_append_of_le_length (by omega), exponentAt_append hy]

end NumberLiteral

/-- Kind and value of the token of a mark. -/
abbrev Mark.shape (m : Mark) : TokenKind × Term := (.mark m, .str (String.singleton m.char))

/-! ### The readers -/

namespace Cursor

/-- **A cursor before a text** that stands behind all that another cursor has ahead. -/
def Before (ys : List Char) (c d : Cursor) : Prop := d.ahead = c.ahead ++ ys

theorem Before.ahead_cons {ys : List Char} {c d : Cursor} (h : Before ys c d) {ch : Char}
    {rest : List Char} (ha : c.ahead = ch :: rest) : d.ahead = ch :: (rest ++ ys) := by
  rw [show d.ahead = _ from h, ha, List.cons_append]

theorem Before.forward {ys : List Char} {c d : Cursor} (h : Before ys c d) {n : Nat}
    (hn : n ≤ c.ahead.length) : Before ys (c.forward n) (d.forward n) := by
  rw [Before, ahead_forward, ahead_forward, h, List.drop_append_of_le_length hn]

end Cursor

namespace Lexer

open Cursor (Before)

variable {l : Lexer} {ys : List Char} {c c' d : Cursor} {t : Token}

theorem readString_before (h : Before ys c d) {s : String} (hr : l.readString c = .ok (s, c')) :
    ∃ d', l.readString d = .ok (s, d') ∧ Before ys c' d' := by
  unfold readString at hr
  split at hr
  · cases hr
  · rename_i q rest ha
    split at hr
    · rename_i content n hbody
      cases hr
      obtain ⟨body, after, rfl, rfl, -⟩ := decodes_of_stringBody hbody
      refine ⟨d.forward (1 + (body.length + 1)), ?_, h.forward (by simp [ha]; omega)⟩
      simp only [readString, show d.ahead = _ from h, ha, List.cons_append,
        stringBody_append hbody]
    · cases hr

theorem readNumber_before (hy : Breaks ys) (h : Before ys c d) {n : Num}
    (hr : readNumber c = .ok (n, c')) : ∃ d', readNumber d = .ok (n, d') ∧ Before ys c' d' := by
  unfold readNumber at hr
  dsimp only at hr
  split at hr
  · rename_i hn
    cases hr
    have hlen := (NumberLiteral.chars_starts c.ahead).length_le
    rw [NumberLiteral.length_chars] at hlen
    refine ⟨d.forward (NumberLiteral.scan c.ahead).length, ?_, h.forward hlen⟩
    simp only [readNumber, show d.ahead = _ from h, NumberLiteral.scan_append hy, hn]
  · cases hr

theorem readName_before (hy : Breaks ys) (h : Before ys c d) :
    (readName d).1 = (readName c).1 ∧ Before ys (readName c).2 (readName d).2 := by
  have hrun : d.ahead.takeWhile isNameChar = c.ahead.takeWhile isNameChar := by
    rw [show d.ahead = _ from h, hy.takeWhile (by decide)]
  simp only [readName, hrun, true_and]
  exact h.forward (List.takeWhile_prefix _).length_le

theorem readOperator_before (hy : Breaks ys) (h : Before ys c d) :
    (l.readOperator d).1 = (l.readOperator c).1 ∧
      Before ys (l.readOperator c).2 (l.readOperator d).2 := by
  have hrun : d.ahead.takeWhile isOperatorChar = c.ahead.takeWhile isOperatorChar := by
    rw [show d.ahead = _ from h, hy.takeWhile (by decide)]
  simp only [readOperator, hrun, true_and]
  exact h.forward (Nat.le_trans (symbolLength_le _ _) (List.takeWhile_prefix _).length_le)

/-- **A token is read as without the text behind it**, but for its place. -/
theorem tokenHere_before (hy : Breaks ys) (h : Before ys c d) (hc : c.ahead ≠ [])
    (hr : l.tokenHere c = .ok (t, c')) :
    ∃ u d', l.tokenHere d = .ok (u, d') ∧ u.shape = t.shape ∧ Before ys c' d' := by
  obtain ⟨ch, rest, ha⟩ := List.exists_cons_of_ne_nil hc
  unfold tokenHere at hr ⊢
  simp only [ha] at hr
  simp only [h.ahead_cons ha]
  -- the first character decides which reader it is, and that has been dealt with
  split at hr
  · cases hr
    exact ⟨_, _, rfl, rfl, h.forward (by simp [ha])⟩
  · split at hr
    · rename_i hquote
      split at hr
      · rename_i hread
        cases hr
        obtain ⟨d', hread', hbefore⟩ := readString_before h hread
        simp only [hquote, if_true, hread']
        exact ⟨_, _, rfl, rfl, hbefore⟩
      · cases hr
    · rename_i hquote
      simp only [hquote]
      split at hr
      · rename_i hdigit
        split at hr
        · rename_i hread
          cases hr
          obtain ⟨d', hread', hbefore⟩ := readNumber_before hy h hread
          simp only [hdigit, if_true, hread']
          exact ⟨_, _, rfl, rfl, hbefore⟩
        · cases hr
      · rename_i hdigit
        simp only [hdigit]
        split at hr
        · rename_i hstart
          cases hr
          obtain ⟨hname, hbefore⟩ := readName_before hy h
          simp only [hstart]
          exact ⟨_, _, rfl, by rw [Token.shape, Token.shape, hname], hbefore⟩
        · rename_i hstart
          simp only [hstart]
          split at hr
          · rename_i hop
            cases hr
            obtain ⟨hsymbol, hbefore⟩ := readOperator_before (l := l) hy h
            simp only [hop]
            exact ⟨_, _, rfl, by rw [Token.shape, Token.shape, hsymbol], hbefore⟩
          · cases hr

theorem skipComment_before (hy : Breaks ys) (h : Before ys c d)
    (hs : l.skipComment c = .ok ((), c')) :
    ∃ d', l.skipComment d = .ok ((), d') ∧ Before ys c' d' := by
  unfold skipComment at hs
  split at hs
  · cases hs
  · cases hs
  · rename_i first second rest ha
    split at hs
    · rename_i n hn
      cases hs
      have hle := commentLength_le hn
      refine ⟨d.forward (1 + n), ?_, h.forward (by simp [ha]; omega)⟩
      simp only [skipComment, show d.ahead = _ from h, ha, List.cons_append,
        commentLength_append hy hn]
    · cases hs

/-- **Blanks are skipped as without the text behind them**, and on in that text if nothing else is
before it. -/
theorem skipBlank_before (hy : Breaks ys) (h : Before ys c d)
    (hs : l.skipBlank c = .ok ((), c')) :
    ∃ d', Before ys c' d' ∧ l.skipBlank d = l.skipBlank d' ∧
      (c'.ahead ≠ [] → l.skipBlank d' = .ok ((), d')) := by
  fun_induction skipBlank l c generalizing d with
  | case1 c ha =>
    cases hs
    exact ⟨d, h, rfl, fun hne => absurd ha hne⟩
  | case2 c ch rest ha hb ih =>
    obtain ⟨d', hbefore, hskip, hstop⟩ := ih (h.forward (by simp [ha])) hs
    exact ⟨d', hbefore, (skipBlank_of_blank (h.ahead_cons ha) hb).trans hskip, hstop⟩
  | case3 c ch rest ha hb hc c₁ hs₁ ih =>
    obtain ⟨d₁, hs₁', hbefore₁⟩ := skipComment_before hy h hs₁
    obtain ⟨d', hbefore, hskip, hstop⟩ := ih hbefore₁ hs
    have hcomment := skipBlank_of_comment (h.ahead_cons ha) (by simpa using hb)
      ((hy.startsComment rest).trans hc) hs₁'
    exact ⟨d', hbefore, hcomment.trans hskip, hstop⟩
  | case4 => cases hs
  | case5 c ch rest ha hb hc =>
    cases hs
    have hneither := skipBlank_of_neither (l := l) (h.ahead_cons ha) (by simpa using hb)
      ((hy.startsComment rest).trans (by simpa using hc))
    exact ⟨d, h, rfl, fun _ => hneither⟩

/-- **The next token**: where there is none before the text, it is the first one of the text. -/
theorem nextToken_before (hy : Breaks ys) (h : Before ys c d) (hn : l.nextToken c = .ok (t, c')) :
    (t = .ofEnd c'.pos ∧ ∃ d', d'.ahead = ys ∧ l.nextToken d = l.nextToken d') ∨
      ∃ u d', l.nextToken d = .ok (u, d') ∧ u.shape = t.shape ∧ t.kind ≠ .finish ∧
        Before ys c' d' := by
  unfold nextToken at hn
  split at hn
  · rename_i c₁ hskip
    obtain ⟨d₁, hbefore, hsame, hstop⟩ := skipBlank_before hy h hskip
    rcases cuts_of_tokenHere hn with ⟨hend, ht, rfl⟩ | ⟨chars, after, hchars, hne, -, hlex, -⟩
    · -- nothing is left before the text
      refine .inl ⟨ht, d₁, by rw [show d₁.ahead = _ from hbefore, hend]; rfl, ?_⟩
      rw [nextToken, nextToken, hsame]
    · have hahead : c₁.ahead ≠ [] := by rw [hchars]; simp [hne]
      obtain ⟨u, d', hu, hshape, hbefore'⟩ := tokenHere_before hy hbefore hahead hn
      refine .inr ⟨u, d', ?_, hshape, fun hk => ?_, hbefore'⟩
      · rw [nextToken, hsame, hstop hahead]
        exact hu
      · simp only [Lexeme, hk] at hlex
  · cases hn

/-- **The tokens of a text before another** come first, and then those of the other. -/
theorem scan_before (hy : Breaks ys) (h : Before ys c d) (hf : (l.scan c).failure = none) :
    ∃ body pos us d', (l.scan c).tokens = body ++ [.ofEnd pos] ∧
      (∀ t ∈ body, t.kind ≠ .finish) ∧ us.map Token.shape = body.map Token.shape ∧
      d'.ahead = ys ∧ (l.scan d).tokens = us ++ (l.scan d').tokens ∧
      (l.scan d).failure = (l.scan d').failure := by
  -- every token but the end leaves less of the text ahead
  induction hn : c.ahead.length using Nat.strongRecOn generalizing c d with
  | ind n ih =>
    rw [scan_eq] at hf ⊢
    split at hf
    · cases hf
    · rename_i t c' hnext
      rcases nextToken_before hy h hnext with
        ⟨rfl, d', hd', hsame⟩ | ⟨u, d₁, hu, hshape, hkind, hbefore⟩
      · have hscan : l.scan d = l.scan d' := scan_congr hsame
        exact ⟨[], c'.pos, [], d', rfl, by simp, rfl, hd', by rw [hscan]; rfl, by rw [hscan]⟩
      · have hkind' : u.kind ≠ .finish := by
          rwa [show u.kind = t.kind from congrArg Prod.fst hshape]
        rw [if_neg hkind] at hf ⊢
        have hshorter := nextToken_shorter l hnext hkind
        obtain ⟨body, pos, us, d', hbody, hnot, hus, hd', hscan, hfail⟩ :=
          ih _ (by omega) hbefore hf rfl
        refine ⟨t :: body, pos, u :: us, d', by rw [hbody]; rfl,
          List.forall_mem_cons.2 ⟨hkind, hnot⟩, by rw [List.map_cons, List.map_cons, hshape, hus],
          hd', ?_, ?_⟩
        · rw [scan_of_token hu hkind', hscan]
          rfl
        · rw [scan_of_token hu hkind']
          exact hfail

theorem tokens_eq_ok_iff {source : String} {ts : List Token} : l.tokens source = .ok ts ↔
    (l.scan (.start source 1)).failure = none ∧ (l.scan (.start source 1)).tokens = ts := by
  unfold tokens tokensFrom
  dsimp only
  split
  · rename_i hfail
    simp [hfail]
  · rename_i hfail
    simp [hfail]

/-- The tokens of a source end with its only end. -/
theorem exists_body_of_tokens {source : String} {ts : List Token} (h : l.tokens source = .ok ts) :
    ∃ body pos, ts = body ++ [.ofEnd pos] ∧ ∀ t ∈ body, t.kind ≠ .finish := by
  obtain ⟨hfail, rfl⟩ := tokens_eq_ok_iff.1 h
  obtain ⟨body, pos, -, -, hbody, hnot, -⟩ :=
    scan_before (.inl rfl) (List.append_nil _).symm hfail
  exact ⟨body, pos, hbody, hnot⟩

/-! ### Texts within texts -/

/-- Kinds and values of tokens between two marks. -/
def between (m m' : Mark) (shapes : List (TokenKind × Term)) : List (TokenKind × Term) :=
  m.shape :: (shapes ++ [m'.shape])

theorem exists_of_between {m m' : Mark} {shapes : List (TokenKind × Term)} {ts : List Token}
    (h : ts.map Token.shape = between m m' shapes) : ∃ u us c, ts = u :: (us ++ [c]) ∧
      u.kind = .mark m ∧ us.map Token.shape = shapes ∧ c.kind = .mark m' := by
  obtain ⟨u, ts, rfl, hu, hts⟩ := List.map_eq_cons_iff.1 h
  obtain ⟨us, ts, rfl, hus, hts⟩ := List.map_eq_append_iff.1 hts
  obtain ⟨c, rfl, hc⟩ := List.map_eq_singleton_iff.1 hts
  exact ⟨u, us, c, rfl, congrArg Prod.fst hu, hus, congrArg Prod.fst hc⟩

/-- **That a text is cut into tokens of some shapes before another**, wherever it stands: what is
behind is read from its own start on. -/
def Passes (l : Lexer) (text : List Char) (shapes : List (TokenKind × Term))
    (behind : List Char) : Prop :=
  ∀ d : Cursor, d.ahead = text ++ behind → ∃ us d', us.map Token.shape = shapes ∧
    d'.ahead = behind ∧ (l.scan d).tokens = us ++ (l.scan d').tokens ∧
    (l.scan d).failure = (l.scan d').failure

/-- One text behind another. -/
theorem Passes.append {xs ys behind : List Char} {shapes shapes' : List (TokenKind × Term)}
    (h : Passes l xs shapes (ys ++ behind)) (h' : Passes l ys shapes' behind) :
    Passes l (xs ++ ys) (shapes ++ shapes') behind := by
  intro d hd
  obtain ⟨us, d₁, rfl, hd₁, hscan, hfail⟩ := h d (by rw [hd, List.append_assoc])
  obtain ⟨us', d₂, rfl, hd₂, hscan', hfail'⟩ := h' d₁ hd₁
  refine ⟨us ++ us', d₂, List.map_append, hd₂, ?_, hfail.trans hfail'⟩
  rw [hscan, hscan', List.append_assoc]

theorem passes_blank {c : Char} (hc : isBlank c = true) (behind : List Char) :
    Passes l [c] [] behind := by
  intro d hd
  have hnext : l.scan d = l.scan (d.forward 1) := scan_congr (nextToken_of_blank hd hc)
  exact ⟨[], d.forward 1, rfl, by simp [hd], by rw [hnext]; rfl, by rw [hnext]⟩

theorem passes_space (behind : List Char) : Passes l [' '] [] behind :=
  passes_blank (by decide) behind

theorem passes_lineFeed (behind : List Char) : Passes l ['\n'] [] behind :=
  passes_blank (by decide) behind

/-- A piece that is cut off by what is behind. -/
theorem passes_piece {p : Piece} {shape : TokenKind × Term} (hs : p.shape? = some shape)
    {behind : List Char} (hp : p.Stands l.known behind.head?) :
    Passes l p.chars [shape] behind := by
  intro d hd
  obtain ⟨t, d', hnext, hshape, hbehind⟩ := nextToken_piece hs hp hd
  have hkind : t.kind ≠ .finish := by
    rw [← show t.shape.1 = t.kind from rfl, hshape]
    exact Piece.shape_ne_finish hs
  rw [scan_of_token hnext hkind]
  exact ⟨[t], d', by rw [← hshape]; rfl, hbehind, rfl, rfl⟩

theorem passes_mark (m : Mark) (behind : List Char) :
    Passes l [m.char] [m.shape] behind :=
  passes_piece (p := .mark m) rfl trivial

/-- **A source of its own**, before a new line or at the end. -/
theorem passes_source {source : String} {body : List Token} {last : Token}
    (h : l.tokens source = .ok (body ++ [last])) {behind : List Char} (hy : Breaks behind) :
    Passes l source.toList (body.map Token.shape) behind := by
  intro d hd
  obtain ⟨hfail, hscan⟩ := tokens_eq_ok_iff.1 h
  obtain ⟨body', pos, us, d', hbody, -, hus, hd', hscan', hfail'⟩ :=
    scan_before (c := .start source 1) hy hd hfail
  obtain ⟨rfl, -⟩ := List.append_inj' (hscan.symm.trans hbody) rfl
  exact ⟨us, d', hus, hd', hscan', hfail'⟩

/-- **A source between two marks**, the second one on a new line. -/
theorem passes_between {source : String} {body : List Token} {last : Token}
    (h : l.tokens source = .ok (body ++ [last])) (m m' : Mark) (behind : List Char) :
    Passes l (m.char :: (source.toList ++ ['\n', m'.char]))
      (between m m' (body.map Token.shape)) behind :=
  (passes_mark m _).append ((passes_source h (.inr rfl)).append
    ((passes_lineFeed _).append (passes_mark m' behind)))

/-- **A text that is cut into tokens before the end** has those tokens. -/
theorem tokens_of_passes {text : List Char} {shapes : List (TokenKind × Term)}
    (h : Passes l text shapes []) : ∃ us pos,
      l.tokens (String.ofList text) = .ok (us ++ [.ofEnd pos]) ∧ us.map Token.shape = shapes := by
  obtain ⟨us, d, hus, hd, hscan, hfail⟩ :=
    h (.start (String.ofList text) 1) (by simp [Cursor.start])
  rw [scan_of_end hd] at hscan hfail
  exact ⟨us, d.pos, tokens_eq_ok_iff.2 ⟨hfail, hscan⟩, hus⟩

/-- **The tokens of two sources joined by a semicolon on a new line** are those of the first, the
semicolon, and those of the second, but for their places. -/
theorem tokens_joined {s₁ s₂ : String} {ts₁ ts₂ : List Token} (h₁ : l.tokens s₁ = .ok ts₁)
    (h₂ : l.tokens s₂ = .ok ts₂) : ∃ body₁ body₂ us₁ us₂ pos₁ pos₂ pos semicolon,
      ts₁ = body₁ ++ [.ofEnd pos₁] ∧ ts₂ = body₂ ++ [.ofEnd pos₂] ∧
      (∀ t ∈ body₁, t.kind ≠ .finish) ∧ (∀ t ∈ body₂, t.kind ≠ .finish) ∧
      us₁.map Token.shape = body₁.map Token.shape ∧ us₂.map Token.shape = body₂.map Token.shape ∧
      semicolon.kind = .mark .semicolon ∧
      l.tokens (s₁ ++ "\n;" ++ s₂) = .ok (us₁ ++ semicolon :: us₂ ++ [.ofEnd pos]) := by
  obtain ⟨body₁, pos₁, rfl, hbody₁⟩ := exists_body_of_tokens h₁
  obtain ⟨body₂, pos₂, rfl, hbody₂⟩ := exists_body_of_tokens h₂
  have hpasses := (passes_source h₁ (.inr rfl)).append ((passes_lineFeed _).append
    ((passes_mark .semicolon _).append (passes_source h₂ (.inl rfl))))
  obtain ⟨us, pos, htokens, hus⟩ := tokens_of_passes hpasses
  -- the tokens of the one source, the semicolon, and those of the other
  obtain ⟨us₁, us', rfl, hus₁, hus'⟩ := List.map_eq_append_iff.1 hus
  obtain ⟨semicolon, us₂, rfl, hsemicolon, hus₂⟩ := List.map_eq_cons_iff.1 hus'
  refine ⟨body₁, body₂, us₁, us₂, pos₁, pos₂, pos, semicolon, rfl, rfl, hbody₁, hbody₂, hus₁, hus₂,
    congrArg Prod.fst hsemicolon, ?_⟩
  rw [← htokens]
  congr 1
  simp [← String.toList_inj, Mark.char]

end Lexer

end TermCalc
