import TermCalc.Proofs.Syntax.Positions

/-!
# String literals

The printer writes a string with four escapes, the lexer takes a backslash before any character.
What is printed is nevertheless read back, wherever it stands in a text.

* `textOf_text`: how a string is printed, whatever operators there are. `feed_not_mem_quote`: on one
  line.
* `Lexer.ReadsAs`: a text is read as a string wherever it stands. `Lexer.readsAs_quote`: what is
  printed is.
* `Lexer.string_roundtrip`: **strings are preserved by printing and reading**, and so is the value
  of every literal that is read.
-/

namespace TermCalc

theorem textOf_text (r : Registry) (content : String) (pos : Pos) :
    r.textOf (.text content pos) = .ok (String.ofList (Piece.quote content).chars) := by
  have hprints : Prints r loosest (.text content pos) [.quote content] := prints_text (by decide)
  rw [hprints.textOf, layout_cons, layout_nil, List.append_nil]

/-- Line feeds are escaped. -/
theorem feed_not_mem_stringEscape (c : Char) : '\n' ∉ (stringEscape c).toList := by
  rcases stringEscape_cases c with ⟨d, hd, -, hfeed⟩ | ⟨hc, -, -, hfeed⟩
  · simp [hd, hfeed.symm]
  · simp [hc, hfeed.symm]

theorem feed_not_mem_quote (s : String) : '\n' ∉ (Piece.quote s).chars := by
  have hbody : '\n' ∉ s.toList.flatMap fun c => (stringEscape c).toList := fun hmem => by
    obtain ⟨c, -, hc⟩ := List.mem_flatMap.1 hmem
    exact feed_not_mem_stringEscape c hc
  simp [Piece.chars, hbody]

namespace Lexer

variable {l : Lexer}

/-- **A text is read as a string** wherever it stands: as a token with that value, at the place of
its first character. The cursor is behind it then, on the line on which it was. -/
def ReadsAs (l : Lexer) (literal content : String) : Prop :=
  ∀ (before after : String) (first : Int), ∃ c c',
    (Cursor.start (before ++ literal ++ after) first).moveTo before.length = .ok c ∧
      l.nextToken c = .ok (⟨.string, .str content, c.pos⟩, c') ∧
      c'.position = (before ++ literal).length ∧ c'.text = c.text ∧ c'.line = c.line

/-- **A printed string is read as what it holds.** -/
theorem readsAs_quote (l : Lexer) (content : String) :
    l.ReadsAs (String.ofList (Piece.quote content).chars) content := by
  intro before after first
  have hfeed := feed_not_mem_quote content
  have hread {c : Cursor} := @nextToken_quoted l c content after.toList
  generalize (Piece.quote content).chars = chars at hfeed hread ⊢
  have htext : (before ++ String.ofList chars ++ after).toList =
      before.toList ++ (chars ++ after.toList) := by
    simp
  have hinside : (before.length : Int) ≤ (before.toList ++ (chars ++ after.toList)).length := by
    rw [List.length_append, String.length_toList]
    omega
  have hstart := Cursor.stands_start (before ++ String.ofList chars ++ after) first
  rw [htext] at hstart
  obtain ⟨c, hmove, hstands, hposition⟩ := hstart.exists_moveTo (by omega) hinside
  rw [Int.toNat_natCast] at hposition
  -- what is ahead of a cursor in a text is told by its position
  have hahead : c.ahead = chars ++ after.toList := by
    rw [← hstands.drop_eq, hposition, ← String.length_toList, List.drop_left]
  have hprefix : chars <+: c.ahead := ⟨_, hahead.symm⟩
  refine ⟨c, _, hmove, hread hahead, ?_, Cursor.text_forward _ c,
    Cursor.line_forward_of_not_mem hprefix hfeed⟩
  rw [Cursor.position_forward hprefix.length_le, hposition, String.length_append,
    String.length_ofList]

/-- A token of a string holds the string. -/
theorem value_of_string {c c' : Cursor} {t : Token} (h : l.nextToken c = .ok (t, c'))
    (ht : t.kind = .string) : ∃ content, t.value = .str content := by
  unfold nextToken at h
  split at h
  · rcases cuts_of_tokenHere h with ⟨-, rfl, -⟩ | ⟨_, _, -, -, -, hlex, -⟩
    · cases ht
    · rw [Lexeme, ht] at hlex
      obtain ⟨_, content, -, -, hvalue⟩ := hlex
      exact ⟨_, hvalue⟩
  · cases h

/-- **Strings are preserved by printing and reading**, whatever operators there are to print with
and to read with: the text of every string is read as that string, wherever it stands. So is the
text of every literal that has been read, however it was written. -/
theorem string_roundtrip (r : Registry) (l : Lexer) :
    (∀ content pos, ∃ literal, r.textOf (.text content pos) = .ok literal ∧
      l.ReadsAs literal content) ∧
    ∀ (m : Lexer) (c c' : Cursor) (t : Token), m.nextToken c = .ok (t, c') → t.kind = .string →
      ∃ content literal, t.value = .str content ∧ r.textOf t.term = .ok literal ∧
        l.ReadsAs literal content := by
  have hprinted (content : String) (pos : Pos) : ∃ literal,
      r.textOf (.text content pos) = .ok literal ∧ l.ReadsAs literal content :=
    ⟨_, textOf_text r content pos, l.readsAs_quote content⟩
  refine ⟨hprinted, fun m c c' t h ht => ?_⟩
  obtain ⟨content, hvalue⟩ := value_of_string h ht
  obtain ⟨literal, htext, hreads⟩ := hprinted content t.pos
  have hterm : t.term = .text content t.pos := by rw [Token.term, ht, hvalue]
  exact ⟨content, literal, hvalue, by rw [hterm, htext], hreads⟩

/-- A literal with escapes that are not printed. -/
theorem string_roundtrip_escapes :
    let l := Lexer.mk "" []
    let c := Cursor.start "\"\\q\\n\\\"\"" 1
    let t : Token := ⟨.string, .str "q\n\"", c.pos⟩
    (l.nextToken c = .ok (t, c.forward 8) ∧ t.kind = .string) ∧
      ∃ content literal, t.value = .str content ∧ coreRegistry.textOf t.term = .ok literal ∧
        l.ReadsAs literal content := by
  intro l c t
  have hahead : c.ahead = '"' :: c.ahead.tail := rfl
  have hread : l.nextToken c = .ok (t, c.forward 8) := by
    rw [nextToken_eq_tokenHere hahead (by decide) (startsComment_of_ne (by decide))]
    rfl
  exact ⟨⟨hread, rfl⟩, (string_roundtrip coreRegistry l).2 l c _ t hread rfl⟩

end Lexer

end TermCalc
