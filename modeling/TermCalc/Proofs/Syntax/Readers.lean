import TermCalc.Proofs.Syntax.Sources

/-!
# What the readers take

Which characters of a text each reader takes, and what it makes of them, said without the reader.

* `Gap`: what separates tokens, given what stands behind it: blanks, block comments up to the first
  `*/`, and line comments up to the end of the line.
* `Decodes`, `Symbol`, `Lexeme`: the content of a string, the symbol at the start of a run of
  operator characters, and a token with the characters that it is made of.
* `Lexer.gap_of_skipBlank`: **what is skipped is a gap.**
* `Lexer.Cuts`, `Lexer.cuts_of_tokenHere`: **a token is made of the characters that are taken for
  it.**
-/

namespace TermCalc

/-! ### Gaps -/

/-- **What separates tokens**, before some text. -/
inductive Gap : List Char → List Char → Prop
  | nil (after : List Char) : Gap [] after
  | blank {c : Char} {gap after : List Char} :
      c ∈ [' ', '\t', '\n', '\r', '\x0c'] → Gap gap after → Gap (c :: gap) after
  /-- A comment up to the next line feed or to the end. -/
  | line {body gap after : List Char} :
      '\n' ∉ body → (gap ++ after = [] ∨ (gap ++ after).head? = some '\n') → Gap gap after →
      Gap ('/' :: '/' :: (body ++ gap)) after
  /-- A comment up to the first `*/`. -/
  | block {body gap after : List Char} :
      ¬ ['*', '/'] <:+: body ++ ['*'] → Gap gap after →
      Gap ('/' :: '*' :: (body ++ '*' :: '/' :: gap)) after

theorem mem_blanks {c : Char} (h : isBlank c = true) : c ∈ [' ', '\t', '\n', '\r', '\x0c'] := by
  simpa [isBlank, or_assoc] using h

/-- A block comment ends at the first `*/`. -/
theorem blockEnd_eq_some {cs : List Char} {n : Nat} (h : blockEnd cs = some n) :
    ∃ body after, cs = body ++ '*' :: '/' :: after ∧ n = body.length + 2 ∧
      ¬ ['*', '/'] <:+: body ++ ['*'] := by
  fun_induction blockEnd cs generalizing n with
  | case1 => cases h
  | case2 rest =>
    cases h
    exact ⟨[], rest, rfl, rfl, fun hin => by simpa using hin.length_le⟩
  | case3 c rest hnot ih =>
    obtain ⟨m, hm, rfl⟩ := Option.map_eq_some_iff.1 h
    obtain ⟨body, after, rfl, rfl, hbody⟩ := ih hm
    refine ⟨c :: body, after, rfl, rfl, fun hin => ?_⟩
    rcases List.infix_cons_iff.1 hin with hpre | hin
    · -- it would have ended here
      obtain ⟨rfl, hslash⟩ := List.cons_prefix_cons.1 hpre
      cases body with
      | nil => exact absurd (List.cons_prefix_cons.1 hslash).1 (by decide)
      | cons b body =>
        obtain ⟨rfl, -⟩ := List.cons_prefix_cons.1 hslash
        exact hnot _ rfl rfl
    · exact hbody hin

theorem head?_dropWhile_ne (cs : List Char) : cs.dropWhile (· != '\n') = [] ∨
    (cs.dropWhile (· != '\n')).head? = some '\n' := by
  cases hd : cs.dropWhile (· != '\n') with
  | nil => exact .inl rfl
  | cons d ds =>
    have hnot := List.head?_dropWhile_not (· != '\n') cs
    rw [hd] at hnot
    right
    simpa using hnot

namespace Cursor

theorem forward_forward (m n : Nat) (c : Cursor) : (c.forward m).forward n = c.forward (m + n) := by
  induction m generalizing c with
  | zero => rw [Nat.zero_add]; rfl
  | succ m ih =>
    obtain ⟨passed, ahead, line, column, h⟩ := c
    rw [Nat.succ_add]
    cases ahead with
    | nil => cases n <;> rfl
    | cons ch rest => exact ih _

end Cursor

namespace Lexer

variable {l : Lexer} {c c' : Cursor} {t : Token}

/-- **A comment that is skipped** makes a gap longer. -/
theorem gap_of_skipComment (hstart : startsComment c.ahead = true)
    (h : l.skipComment c = .ok ((), c')) :
    ∃ comment rest, c.ahead = comment ++ rest ∧ c' = c.forward comment.length ∧
      ∀ gap after, rest = gap ++ after → Gap gap after → Gap (comment ++ gap) after := by
  unfold skipComment at h
  unfold startsComment at hstart
  split at hstart
  · -- a line comment
    rename_i rest ha
    rw [ha] at h
    cases h
    have hsplit := (List.takeWhile_append_dropWhile (p := (· != '\n')) (l := rest)).symm
    refine ⟨'/' :: '/' :: rest.takeWhile (· != '\n'), rest.dropWhile (· != '\n'),
      by rw [ha, List.cons_append, List.cons_append, ← hsplit], by simp; congr 1; omega, ?_⟩
    intro gap after hrest hgap
    refine .line (fun hmem => ?_) (hrest ▸ head?_dropWhile_ne rest) hgap
    simpa using List.all_eq_true.1 List.all_takeWhile _ hmem
  · -- a block comment
    rename_i rest ha
    rw [ha] at h
    simp only [commentLength] at h
    cases hb : blockEnd rest with
    | none => rw [hb] at h; cases h
    | some n =>
      rw [hb] at h
      cases h
      obtain ⟨body, after, rfl, rfl, hbody⟩ := blockEnd_eq_some hb
      refine ⟨'/' :: '*' :: (body ++ ['*', '/']), after, by simp [ha], by simp; congr 1; omega, ?_⟩
      intro gap after' hrest hgap
      simpa using Gap.block hbody hgap
  · cases hstart

/-- **What is skipped is a gap.** -/
theorem gap_of_skipBlank (h : l.skipBlank c = .ok ((), c')) :
    ∃ gap after, c.ahead = gap ++ after ∧ c' = c.forward gap.length ∧ Gap gap after := by
  fun_induction skipBlank l c with
  | case1 c ha => cases h; exact ⟨[], [], ha, rfl, .nil _⟩
  | case2 c ch rest ha hb ih =>
    obtain ⟨gap, after, hrest, rfl, hgap⟩ := ih h
    rw [Cursor.ahead_forward, ha, List.drop_one, List.tail_cons] at hrest
    refine ⟨ch :: gap, after, by rw [ha, hrest]; rfl, ?_, .blank (mem_blanks hb) hgap⟩
    rw [Cursor.forward_forward, List.length_cons, Nat.add_comm]
  | case3 c ch rest ha hb hc c₁ hs ih =>
    obtain ⟨comment, behind, hahead, rfl, hcomment⟩ := gap_of_skipComment (ha ▸ hc) hs
    obtain ⟨gap, after, hrest, rfl, hgap⟩ := ih h
    rw [Cursor.ahead_forward, hahead, List.drop_left] at hrest
    refine ⟨comment ++ gap, after, by rw [hahead, hrest, List.append_assoc], ?_,
      hcomment gap after hrest hgap⟩
    rw [Cursor.forward_forward, List.length_append]
  | case4 => cases h
  | case5 c ch rest ha => cases h; exact ⟨[], _, rfl, rfl, .nil _⟩

end Lexer

/-! ### Lexemes -/

/-- **What the characters between the quotes of a string stand for.** A backslash takes the next
character with it, and the first quote without one ends the string. -/
inductive Decodes : List Char → List Char → Prop
  | nil : Decodes [] []
  | escape (c : Char) {body content : List Char} :
      Decodes body content → Decodes ('\\' :: c :: body) (unescaped c :: content)
  | plain {c : Char} {body content : List Char} :
      c ≠ '"' → c ≠ '\\' → Decodes body content → Decodes (c :: body) (c :: content)

/-- A known spelling that is a proper part of a run, at its start. -/
def KnownPart (known : List String) (run part : List Char) : Prop :=
  part <+: run ∧ part ≠ [] ∧ part ≠ run ∧ String.ofList part ∈ known

/-- **The symbol at the start of a run of operator characters**: the whole run if nothing is known
or if it is known itself, else the longest part of it that is known, else the whole run. -/
inductive Symbol (known : List String) (run : List Char) : List Char → Prop
  | known : known = [] ∨ String.ofList run ∈ known → Symbol known run run
  | part {part : List Char} :
      known ≠ [] → String.ofList run ∉ known → KnownPart known run part →
      (∀ other, KnownPart known run other → other.length ≤ part.length) → Symbol known run part
  | unknown :
      known ≠ [] → String.ofList run ∉ known → (∀ part, ¬ KnownPart known run part) →
      Symbol known run run

/-- A fraction with its period, if there is one. -/
def NumberLiteral.pointed (fraction : List Char) : List Char :=
  if fraction.isEmpty then [] else '.' :: fraction

/-- The characters of a number literal. -/
def NumberLiteral.chars (x : NumberLiteral) : List Char :=
  x.whole ++ pointed x.fraction ++ x.exponent

/-- **A token made of characters** that are taken off what is ahead: a mark, a name and a symbol are
these characters, of which a name takes all that it can. -/
def Lexeme (known : List String) (ahead chars : List Char) (t : Token) : Prop :=
  match t.kind with
  | .mark m => chars = [m.char] ∧ t.value = .str (String.ofList chars)
  | .atom =>
      chars = ahead.takeWhile isNameChar ∧ chars.head?.any isNameStart = true ∧
        t.value = .str (String.ofList chars)
  | .operator =>
      Symbol known (ahead.takeWhile isOperatorChar) chars ∧ t.value = .str (String.ofList chars)
  | .string => ∃ body content, chars = '"' :: (body ++ ['"']) ∧ Decodes body content ∧
      t.value = .str (String.ofList content)
  | .number => ∃ n, chars = (NumberLiteral.scan ahead).chars ∧
      Lexer.numberOf (NumberLiteral.scan ahead) = .ok n ∧ t.value = .num n
  | .finish => False

theorem decodes_of_stringBody {cs content : List Char} {n : Nat}
    (h : stringBody cs = some (content, n)) :
    ∃ body after, cs = body ++ '"' :: after ∧ n = body.length + 1 ∧ Decodes body content := by
  fun_induction stringBody cs generalizing content n with
  | case1 => cases h
  | case2 rest => cases h; exact ⟨[], rest, rfl, rfl, .nil⟩
  | case3 c rest ih =>
    obtain ⟨⟨ds, m⟩, hm, heq⟩ := Option.map_eq_some_iff.1 h
    cases heq
    obtain ⟨body, after, rfl, rfl, hbody⟩ := ih hm
    exact ⟨'\\' :: c :: body, after, rfl, rfl, .escape c hbody⟩
  | case4 c rest hquote hslash ih =>
    obtain ⟨⟨ds, m⟩, hm, heq⟩ := Option.map_eq_some_iff.1 h
    cases heq
    obtain ⟨body, after, rfl, rfl, hbody⟩ := ih hm
    refine ⟨c :: body, after, rfl, rfl, .plain (fun hc => hquote hc) (fun hc => ?_) hbody⟩
    -- a backslash would have taken the next character with it
    cases body with
    | nil => exact hslash _ _ hc rfl
    | cons b body => exact hslash _ _ hc rfl

theorem knownPart_iff {known : List String} {run part : List Char} :
    KnownPart known run part ↔ String.ofList part ∈ known.filter (startsRun run) := by
  have hempty : String.ofList part ≠ "" ↔ part ≠ [] := by
    rw [ne_eq, ← String.ofList_nil, String.ofList_inj]
  simp only [KnownPart, List.mem_filter, startsRun, String.toList_ofList, String.length_ofList,
    Bool.and_eq_true, List.isPrefixOf_iff_prefix, bne_iff_ne, hempty, decide_eq_true_eq]
  constructor
  · rintro ⟨hpre, hne, hrun, hmem⟩
    exact ⟨hmem, ⟨hpre, hne⟩, Nat.lt_of_le_of_ne hpre.length_le
      fun hlen => hrun (hpre.eq_of_length hlen)⟩
  · rintro ⟨hmem, ⟨hpre, hne⟩, hlen⟩
    exact ⟨hpre, hne, fun hrun => by rw [hrun] at hlen; omega, hmem⟩

/-- The longest known part of a run, if there is one. -/
theorem longestKnown_eq_some {known : List String} {run : List Char} {k : Nat}
    (h : longestKnown known run = some k) : KnownPart known run (run.take k) ∧
      ∀ other, KnownPart known run other → other.length ≤ (run.take k).length := by
  obtain ⟨hmem, hmax⟩ := List.max?_eq_some_iff.1 h
  obtain ⟨s, hs, rfl⟩ := List.mem_map.1 hmem
  have hpart : KnownPart known run s.toList := knownPart_iff.2 (by rwa [String.ofList_toList])
  have htake : run.take s.length = s.toList := by
    rw [← String.length_toList]
    exact (List.prefix_iff_eq_take.1 hpart.1).symm
  rw [htake]
  refine ⟨hpart, fun other hother => ?_⟩
  have := hmax _ (List.mem_map_of_mem (knownPart_iff.1 hother))
  rwa [String.length_ofList, ← String.length_toList] at this

theorem longestKnown_eq_none {known : List String} {run : List Char}
    (h : longestKnown known run = none) (part : List Char) : ¬ KnownPart known run part := by
  rw [longestKnown, List.max?_eq_none_iff, List.map_eq_nil_iff] at h
  rw [knownPart_iff, h]
  exact List.not_mem_nil

theorem symbolLength_le (known : List String) (run : List Char) :
    symbolLength known run ≤ run.length := by
  rcases symbolLength_cases known run with h | ⟨h, -⟩
  · exact Nat.le_of_eq h
  · exact h

/-- **What is taken of a run is the symbol at its start.** -/
theorem symbol_take (known : List String) (run : List Char) :
    Symbol known run (run.take (symbolLength known run)) := by
  by_cases hk : (known.isEmpty || known.contains (String.ofList run)) = true
  · rw [symbolLength, if_pos hk, List.take_length]
    exact .known (by simpa using hk)
  · have hk' : known ≠ [] ∧ String.ofList run ∉ known := by simpa using hk
    rw [symbolLength, if_neg hk]
    cases hlong : longestKnown known run with
    | none =>
      rw [Option.getD_none, List.take_length]
      exact .unknown hk'.1 hk'.2 (longestKnown_eq_none hlong)
    | some k =>
      obtain ⟨hpart, hmax⟩ := longestKnown_eq_some hlong
      exact .part hk'.1 hk'.2 hpart hmax

/-! ### Tokens -/

theorem append_starts {xs ys cs : List Char} (hx : xs <+: cs) (hy : ys <+: cs.drop xs.length) :
    xs ++ ys <+: cs := by
  have h := (List.prefix_append_right_inj xs).2 hy
  rwa [List.prefix_iff_eq_append.1 hx] at h

theorem digitRun_starts (cs : List Char) : digitRun cs <+: cs := List.takeWhile_prefix _

namespace NumberLiteral

theorem signAt_starts (cs : List Char) : signAt cs <+: cs := by
  unfold signAt
  split
  · split <;> simp
  · exact List.prefix_rfl

theorem exponentAt_starts (cs : List Char) : exponentAt cs <+: cs := by
  unfold exponentAt
  split
  · rename_i c rest
    split
    · dsimp only
      split
      · exact List.nil_prefix
      · exact List.cons_prefix_cons.2
          ⟨rfl, append_starts (signAt_starts rest) (digitRun_starts _)⟩
    · exact List.nil_prefix
  · exact List.nil_prefix

theorem pointed_fractionAt_starts (cs : List Char) : pointed (fractionAt cs) <+: cs := by
  unfold pointed
  split
  · exact List.nil_prefix
  · unfold fractionAt at *
    split
    · exact List.cons_prefix_cons.2 ⟨rfl, digitRun_starts _⟩
    · simp_all

theorem length_pointed (fraction : List Char) :
    (pointed fraction).length = fractionLength fraction := by
  unfold pointed fractionLength
  split <;> rfl

theorem length_chars (x : NumberLiteral) : x.chars.length = x.length := by
  rw [chars, length, List.length_append, List.length_append, length_pointed]

/-- **A number literal stands at the start of its text.** -/
theorem chars_starts (cs : List Char) : (scan cs).chars <+: cs := by
  have hwhole : (scan cs).whole ++ pointed (scan cs).fraction <+: cs :=
    append_starts (digitRun_starts cs) (pointed_fractionAt_starts _)
  refine append_starts hwhole ?_
  rw [List.length_append, length_pointed]
  exact exponentAt_starts _

end NumberLiteral

theorem Mark.char_of_ofChar? {c : Char} {m : Mark} (h : Mark.ofChar? c = some m) : c = m.char := by
  simp only [Mark.ofChar?, beq_iff_eq] at h
  repeat' split at h
  all_goals cases h
  all_goals assumption

namespace Lexer

variable {l : Lexer} {c c' : Cursor} {t : Token}

/-- That characters ahead of a cursor are taken, at least one, as a token that stands there. -/
def Cuts (known : List String) (c : Cursor) (t : Token) (c' : Cursor) : Prop :=
  ∃ chars after, c.ahead = chars ++ after ∧ chars ≠ [] ∧ c' = c.forward chars.length ∧
    Lexeme known c.ahead chars t ∧ t.pos = c.pos

theorem cuts_of_readString {s : String} {rest : List Char} (ha : c.ahead = '"' :: rest)
    (h : l.readString c = .ok (s, c')) : Cuts l.known c ⟨.string, .str s, c.pos⟩ c' := by
  unfold readString at h
  rw [ha] at h
  dsimp only at h
  split at h
  · rename_i content n hbody
    cases h
    obtain ⟨body, after, rfl, rfl, hdecodes⟩ := decodes_of_stringBody hbody
    refine ⟨'"' :: (body ++ ['"']), after, by simp [ha], by simp, by simp; congr 1; omega, ?_, rfl⟩
    exact ⟨body, content, rfl, hdecodes, rfl⟩
  · cases h

theorem cuts_of_readNumber {n : Num} {ch : Char} {rest : List Char} (ha : c.ahead = ch :: rest)
    (hch : isDigit ch = true) (h : readNumber c = .ok (n, c')) :
    Cuts l.known c ⟨.number, .num n, c.pos⟩ c' := by
  unfold readNumber at h
  dsimp only at h
  split at h
  · rename_i hn
    cases h
    obtain ⟨after, hsplit⟩ := NumberLiteral.chars_starts c.ahead
    refine ⟨_, after, hsplit.symm, ?_, by rw [NumberLiteral.length_chars], ⟨n, rfl, hn, rfl⟩, rfl⟩
    simp [NumberLiteral.chars, NumberLiteral.scan, digitRun, ha, hch]
  · cases h

theorem cuts_of_readName {ch : Char} {rest : List Char} (ha : c.ahead = ch :: rest)
    (hch : isNameStart ch = true) :
    Cuts l.known c ⟨.atom, .str (readName c).1, c.pos⟩ (readName c).2 := by
  have hrun : c.ahead.takeWhile isNameChar = ch :: rest.takeWhile isNameChar := by
    rw [ha, List.takeWhile_cons_of_pos (isNameChar_of_isNameStart hch)]
  refine ⟨c.ahead.takeWhile isNameChar, c.ahead.dropWhile isNameChar,
    List.takeWhile_append_dropWhile.symm, by simp [hrun], rfl, ⟨rfl, ?_, rfl⟩, rfl⟩
  simp [hrun, hch]

theorem cuts_of_readOperator {ch : Char} {rest : List Char} (ha : c.ahead = ch :: rest)
    (hch : isOperatorChar ch = true) :
    Cuts l.known c ⟨.operator, .str (l.readOperator c).1, c.pos⟩ (l.readOperator c).2 := by
  have hrun : c.ahead.takeWhile isOperatorChar = ch :: rest.takeWhile isOperatorChar := by
    rw [ha, List.takeWhile_cons_of_pos hch]
  obtain ⟨after, hsplit⟩ : (c.ahead.takeWhile isOperatorChar).take
      (symbolLength l.known (c.ahead.takeWhile isOperatorChar)) <+: c.ahead :=
    (List.take_prefix _ _).trans (List.takeWhile_prefix _)
  have hpos : 0 < symbolLength l.known (c.ahead.takeWhile isOperatorChar) :=
    symbolLength_pos _ (by simp [hrun])
  refine ⟨_, after, hsplit.symm, ?_, ?_, ⟨symbol_take l.known _, rfl⟩, rfl⟩
  · rw [ne_eq, List.take_eq_nil_iff, hrun]
    rw [hrun] at hpos
    simp; omega
  · rw [List.length_take_of_le (symbolLength_le _ _)]
    rfl

/-- **A token is made of the characters that are taken for it.** -/
theorem cuts_of_tokenHere (h : l.tokenHere c = .ok (t, c')) :
    (c.ahead = [] ∧ t = .ofEnd c.pos ∧ c' = c) ∨ Cuts l.known c t c' := by
  unfold tokenHere at h
  split at h
  · rename_i ha
    cases h
    exact .inl ⟨ha, rfl, rfl⟩
  · rename_i ch rest ha
    right
    split at h
    · rename_i m hm
      cases h
      obtain rfl := Mark.char_of_ofChar? hm
      exact ⟨[m.char], rest, ha, by simp, rfl, ⟨rfl, rfl⟩, rfl⟩
    · split at h
      · rename_i hquote
        obtain rfl := eq_of_beq hquote
        split at h
        · rename_i hread
          cases h
          exact cuts_of_readString ha hread
        · cases h
      · split at h
        · rename_i hdigit
          split at h
          · rename_i hread
            cases h
            exact cuts_of_readNumber ha hdigit hread
          · cases h
        · split at h
          · rename_i hstart
            cases h
            exact cuts_of_readName ha hstart
          · split at h
            · rename_i hop
              cases h
              exact cuts_of_readOperator ha hop
            · cases h

end Lexer

end TermCalc
