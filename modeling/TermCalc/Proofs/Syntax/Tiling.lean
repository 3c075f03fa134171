import TermCalc.Proofs.Syntax.Readers

/-!
# The tokens of a text

The tokens that a lexer makes of a text lie in it one behind the other, each where its place says,
and nothing lies between them but blanks and comments.

* `Cursor.Stands`: a cursor keeps count of the lines of its text while it moves.
* `LastFeed`, `Place`: the line and column of an offset, said by the line feeds before it.
* `Tiles`: tokens that fill a text from some offset on, and the gaps between them.
* `Lexer.tiles_of_scan`: **a scan without a failure tiles what is ahead.**
* `Lexer.tokens_tile`: so does a lexer from any offset of a buffer, which it reads to the end in no
  more steps than there are characters.
* `Lexer.writable_of_tokens`: the places of tokens can be written out, unless the text is too long.
-/

namespace TermCalc

/-! ### Cursors in a text -/

namespace Cursor

theorem passed_forward (n : Nat) (c : Cursor) :
    (c.forward n).passed = (c.ahead.take n).reverse ++ c.passed := by
  induction n generalizing c with
  | zero => rfl
  | succ n ih =>
    obtain ⟨passed, ahead, line, column, h⟩ := c
    cases ahead with
    | nil => rfl
    | cons ch rest => simp [forward, ih]

theorem line_forward (n : Nat) (c : Cursor) :
    (c.forward n).line = c.line + (c.ahead.take n).count '\n' := by
  induction n generalizing c with
  | zero => simp [forward]
  | succ n ih =>
    obtain ⟨passed, ahead, line, column, h⟩ := c
    cases ahead with
    | nil => simp [forward]
    | cons ch rest =>
      rw [forward, ih, List.take_succ_cons, List.count_cons, lineStep]
      dsimp only
      split <;> omega

/-- **A cursor in a text** whose first line has a number. -/
structure Stands (text : List Char) (first : Int) (c : Cursor) : Prop where
  text_eq : c.text = text
  line_eq : c.line = first + c.passed.count '\n'

variable {text : List Char} {first : Int} {c : Cursor}

theorem stands_start (source : String) (first : Int) :
    (start source first).Stands source.toList first :=
  ⟨rfl, by simp [start]⟩

theorem Stands.forward (h : c.Stands text first) (n : Nat) : (c.forward n).Stands text first where
  text_eq := by rw [text_forward, h.text_eq]
  line_eq := by
    rw [line_forward, passed_forward, h.line_eq, List.count_append, List.count_reverse]
    omega

theorem position_forward {n : Nat} (h : n ≤ c.ahead.length) :
    (c.forward n).position = c.position + n := by
  rw [position, passed_forward, List.length_append, List.length_reverse,
    List.length_take_of_le h, position, Nat.add_comm]

theorem Stands.length_eq (h : c.Stands text first) : text.length = c.position + c.ahead.length := by
  rw [← h.text_eq, Cursor.text, List.length_append, List.length_reverse, position]

theorem Stands.take_eq (h : c.Stands text first) : text.take c.position = c.passed.reverse := by
  rw [← h.text_eq, Cursor.text, position, ← List.length_reverse, List.take_left]

theorem Stands.drop_eq (h : c.Stands text first) : text.drop c.position = c.ahead := by
  rw [← h.text_eq, Cursor.text, position, ← List.length_reverse, List.drop_left]

end Cursor

/-- **The last line feed** of some characters, by its offset; minus one if there is none. -/
inductive LastFeed : List Char → Int → Prop
  | none {cs : List Char} : '\n' ∉ cs → LastFeed cs (-1)
  | some {before line : List Char} : '\n' ∉ line → LastFeed (before ++ '\n' :: line) before.length

/-- **The place of an offset** in a text whose first line has a number. -/
structure Place (text : List Char) (first : Int) (offset : Nat) (pos : Pos) : Prop where
  line : pos.line = first + (text.take offset).count '\n'
  column : ∃ feed, LastFeed (text.take offset) feed ∧ pos.column = offset - feed

theorem lastFeed_reverse (passed : List Char) :
    LastFeed passed.reverse (passed.length - sinceLineFeed passed - 1) := by
  have hsplit := (List.takeWhile_append_dropWhile (p := (· != '\n')) (l := passed)).symm
  have hfree : '\n' ∉ passed.takeWhile (· != '\n') := fun hmem => by
    simpa using List.all_eq_true.1 List.all_takeWhile _ hmem
  rcases head?_dropWhile_ne passed with hnil | hfeed
  · rw [hnil, List.append_nil] at hsplit
    have hlen : sinceLineFeed passed = passed.length := by rw [sinceLineFeed, ← hsplit]
    rw [← hsplit] at hfree
    rw [hlen, Int.sub_self]
    exact .none (by simpa using hfree)
  · obtain ⟨before, hbefore⟩ := List.head?_eq_some_iff.1 hfeed
    rw [hbefore] at hsplit
    have hlen : passed.length = sinceLineFeed passed + 1 + before.length := by
      rw [sinceLineFeed]
      conv_lhs => rw [hsplit]
      simp; omega
    have hrev : passed.reverse =
        before.reverse ++ '\n' :: (passed.takeWhile (· != '\n')).reverse := by
      conv_lhs => rw [hsplit]
      simp
    rw [hrev, show (passed.length : Int) - sinceLineFeed passed - 1 = before.reverse.length by
      rw [List.length_reverse]; omega]
    exact .some (by simpa using hfree)

theorem Cursor.Stands.place {text : List Char} {first : Int} {c : Cursor}
    (h : c.Stands text first) : Place text first c.position c.pos where
  line := by rw [h.take_eq, List.count_reverse]; exact h.line_eq
  column := by
    rw [h.take_eq]
    refine ⟨_, lastFeed_reverse c.passed, ?_⟩
    show (c.column : Int) = _
    rw [c.column_eq, position]
    omega

theorem LastFeed.bounds {cs : List Char} {feed : Int} (h : LastFeed cs feed) :
    -1 ≤ feed ∧ feed < cs.length := by
  cases h with
  | none _ => omega
  | some _ =>
    rw [List.length_append, List.length_cons]
    omega

/-- **A place in a text can be written out**, unless the text is too long for that. -/
theorem Place.writable {text : List Char} {first : Int} {offset : Nat} {pos : Pos}
    (h : Place text first offset pos) (hoffset : offset ≤ text.length)
    (hlength : first.natAbs + text.length + 1 < Num.digitBound) : pos.writable = true := by
  obtain ⟨feed, hfeed, hcolumn⟩ := h.column
  have hbounds := hfeed.bounds
  have hcount := List.count_le_length (a := '\n') (l := text.take offset)
  rw [List.length_take_of_le hoffset] at hbounds hcount
  have hline := h.line
  simp only [Pos.writable, Num.intWritable, Bool.and_eq_true, decide_eq_true_eq]
  constructor <;> omega

/-! ### Tilings -/

/-- The characters of a text from one offset to another. -/
def slice (text : List Char) (i j : Nat) : List Char := (text.take j).drop i

/-- **Tokens that fill a text** from an offset on, and the gaps between them. -/
inductive Tiles (known : List String) (text : List Char) (first : Int) : Nat → List Token → Prop
  | finish {start : Nat} {pos : Pos} :
      Gap (text.drop start) [] → Place text first text.length pos →
      Tiles known text first start [.ofEnd pos]
  | token {start i j : Nat} {t : Token} {ts : List Token} :
      start ≤ i → i < j → j ≤ text.length → Gap (slice text start i) (text.drop i) →
      Lexeme known (text.drop i) (slice text i j) t → Place text first i t.pos →
      Tiles known text first j ts → Tiles known text first start (t :: ts)

theorem Cursor.Stands.slice_eq {text : List Char} {first : Int} {c : Cursor}
    (h : c.Stands text first) {xs after : List Char} (ha : c.ahead = xs ++ after) :
    slice text c.position (c.position + xs.length) = xs := by
  rw [slice, List.drop_take, h.drop_eq, ha, Nat.add_sub_cancel_left, List.take_left]

namespace Lexer

variable {l : Lexer} {text : List Char} {first : Int}

/-- **One token**: the end behind a gap, or a token behind a gap that leaves less ahead. -/
theorem place_of_nextToken {c c' : Cursor} {t : Token} (hc : c.Stands text first)
    (h : l.nextToken c = .ok (t, c')) :
    (Gap (text.drop c.position) [] ∧ Place text first text.length t.pos ∧ t = .ofEnd t.pos) ∨
      ∃ i, c.position ≤ i ∧ i < c'.position ∧ c'.position ≤ text.length ∧
        Gap (slice text c.position i) (text.drop i) ∧
        Lexeme l.known (text.drop i) (slice text i c'.position) t ∧ Place text first i t.pos ∧
        c'.Stands text first := by
  unfold nextToken at h
  split at h
  · rename_i c₁ hskip
    obtain ⟨gap, after, ha, rfl, hgap⟩ := gap_of_skipBlank hskip
    have hc₁ := hc.forward gap.length
    have hat : (c.forward gap.length).position = c.position + gap.length :=
      Cursor.position_forward (by simp [ha])
    have hafter : (c.forward gap.length).ahead = after := by
      rw [Cursor.ahead_forward, ha, List.drop_left]
    rcases cuts_of_tokenHere h with ⟨hend, rfl, rfl⟩ | ⟨chars, rest, hchars, hne, rfl, hlex, hpos⟩
    · -- the end of the text
      left
      obtain rfl : after = [] := hafter.symm.trans hend
      have hlength := hc₁.length_eq
      rw [hend, List.length_nil, Nat.add_zero] at hlength
      refine ⟨?_, ?_, rfl⟩
      · rw [hc.drop_eq, ha, List.append_nil]; exact hgap
      · rw [hlength]; exact hc₁.place
    · right
      have hlen : 0 < chars.length := List.length_pos_iff.2 hne
      have hat' := Cursor.position_forward (c := c.forward gap.length) (n := chars.length)
        (by rw [hchars, List.length_append]; omega)
      have hlength := hc₁.length_eq
      have hahead := congrArg List.length hchars
      rw [List.length_append] at hahead
      refine ⟨(c.forward gap.length).position, by omega, by omega, by omega, ?_, ?_,
        hpos ▸ hc₁.place, hc₁.forward _⟩
      · rw [hc₁.drop_eq, hafter, hat, hc.slice_eq ha]; exact hgap
      · rw [hc₁.drop_eq, hat', hc₁.slice_eq hchars]; exact hlex
  · cases h

/-- **A scan without a failure tiles what is ahead.** -/
theorem tiles_of_scan {c : Cursor} (hc : c.Stands text first) (h : (l.scan c).failure = none) :
    Tiles l.known text first c.position (l.scan c).tokens := by
  -- every token but the end leaves less of the text ahead
  induction hn : c.ahead.length using Nat.strongRecOn generalizing c with
  | ind n ih =>
    rw [scan_eq] at h ⊢
    split at h
    · cases h
    · rename_i t c' hnext
      rcases place_of_nextToken hc hnext with
        ⟨hgap, hplace, ht⟩ | ⟨i, hi, hij, hj, hgap, hlex, hplace, hc'⟩
      · rw [ht]
        exact .finish hgap hplace
      · have ht : t.kind ≠ .finish := fun hk => by simp only [Lexeme, hk] at hlex
        rw [if_neg ht] at h
        simp only [if_neg ht]
        have hshorter := nextToken_shorter l hnext ht
        exact .token hi hij hj hgap hlex hplace (ih _ (by omega) hc' h rfl)

/-- The places of all tokens of a text can be written out, unless it is too long for that. -/
theorem writable_of_tiles {known : List String} {start : Nat} {ts : List Token}
    (h : Tiles known text first start ts)
    (hlength : first.natAbs + text.length + 1 < Num.digitBound) :
    ∀ t ∈ ts, t.pos.writable = true := by
  induction h with
  | finish _ hplace => exact List.forall_mem_singleton.2 (hplace.writable (Nat.le_refl _) hlength)
  | token _ hij hj _ _ hplace _ ih =>
    exact List.forall_mem_cons.2 ⟨hplace.writable (by omega) hlength, ih⟩

theorem writable_of_tokens {source : String} {ts : List Token} (h : l.tokens source = .ok ts)
    (hlength : source.length + 2 < Num.digitBound) : ∀ t ∈ ts, t.pos.writable = true := by
  unfold tokens tokensFrom at h
  dsimp only at h
  split at h
  · rename_i hfail
    cases h
    refine writable_of_tiles (tiles_of_scan (Cursor.stands_start source 1) hfail) ?_
    rw [String.length_toList]
    omega
  · cases h

/-- A scan makes no more tokens than there are characters ahead, and the end. -/
theorem length_scan (c : Cursor) : (l.scan c).tokens.length ≤ c.ahead.length + 1 := by
  induction hn : c.ahead.length using Nat.strongRecOn generalizing c with
  | ind n ih =>
    rw [scan_eq]
    split
    · simp
    · rename_i t c' hnext
      split
      · simp
      · rename_i ht
        have hshorter := nextToken_shorter l hnext ht
        have := ih c'.ahead.length (by omega) c' rfl
        simp only [List.length_cons]
        omega

/-- **The tokens of a buffer tile it**, from any offset on and whatever its first line is called. -/
theorem tokens_tile (l : Lexer) (buffer : String) (first : Int) {start : Nat}
    (h : start ≤ buffer.length) : ∃ c, (Cursor.start buffer first).moveTo start = .ok c ∧
      (l.scan c).tokens.length ≤ buffer.length - start + 1 ∧
      ∀ ts, l.tokensFrom c = .ok ts → Tiles l.known buffer.toList first start ts := by
  have hahead : (Cursor.start buffer first).ahead.length = buffer.length := String.length_toList
  have hlength : (Cursor.start buffer first).length = buffer.length := by
    rw [Cursor.length, hahead]; exact Nat.zero_add _
  have hmove : (Cursor.start buffer first).moveTo start =
      .ok ((Cursor.start buffer first).forward start) := by
    rw [Cursor.moveTo, if_neg (by rw [hlength]; omega)]
    cases start with
    | zero => rfl
    | succ n => rfl
  have hstands := (Cursor.stands_start buffer first).forward start
  have hat : ((Cursor.start buffer first).forward start).position = start :=
    (Cursor.position_forward (by omega)).trans (Nat.zero_add _)
  refine ⟨_, hmove, ?_, fun ts hts => ?_⟩
  · have := length_scan (l := l) ((Cursor.start buffer first).forward start)
    rwa [Cursor.ahead_forward, List.length_drop, hahead] at this
  · unfold tokensFrom at hts
    dsimp only at hts
    split at hts
    · rename_i hfail
      cases hts
      have htiles := tiles_of_scan hstands hfail
      rwa [hat] at htiles
    · cases hts

theorem tokens_tile_comments : 2 ≤ "a\n// b\n *-1.5e /* y */".length ∧
    ∃ c, (Cursor.start "a\n// b\n *-1.5e /* y */" 7).moveTo (2 : Nat) = .ok c ∧
      ((Lexer.mk "" ["*", "-"]).scan c).tokens.length ≤
        "a\n// b\n *-1.5e /* y */".length - 2 + 1 ∧
      ∀ ts, (Lexer.mk "" ["*", "-"]).tokensFrom c = .ok ts →
        Tiles ["*", "-"] "a\n// b\n *-1.5e /* y */".toList 7 2 ts :=
  ⟨by decide, tokens_tile (Lexer.mk "" ["*", "-"]) _ 7 (by decide)⟩

end Lexer

end TermCalc
