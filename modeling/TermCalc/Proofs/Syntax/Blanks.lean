import TermCalc.Proofs.Syntax.Appending

/-!
# Blank text between tokens

Blanks and comments may be put in wherever a token starts or ends, without any token becoming
another one: what a reader looks at behind its token would not go on with it, and a blank goes on
with nothing.

* `Lexer.Edge`: the offsets at which tokens start and end. `Filling`: blanks and whole comments.
* `Opens`, `Firm`: a text that starts with a blank, and one at whose start nothing is skipped.
* `Opens.takeWhile_swap`, `NumberLiteral.scan_swap`, `Symbol.cut`: what is taken of a text is also
  taken of it where a text that starts with a blank is put behind it.
* `Lexer.skipBlank_gap`, `Lexer.tokenHere_swap`, `Lexer.nextToken_swap`: so is a gap, and a token.
* `Lexer.tokens_filled`: **tokens are blind to blank text between them.**
-/

namespace TermCalc

/-- **A text that starts with a blank.** -/
def Opens (zs : List Char) : Prop := ∃ b rest, zs = b :: rest ∧ isBlank b = true

/-- **Blanks and whole comments**: block comments up to the first `*/`, and line comments with the
line feed behind them. -/
inductive Filling : List Char → Prop
  | nil : Filling []
  | blank {c : Char} {f : List Char} :
      c ∈ [' ', '\t', '\n', '\r', '\x0c'] → Filling f → Filling (c :: f)
  | line {body f : List Char} :
      '\n' ∉ body → Filling f → Filling ('/' :: '/' :: (body ++ '\n' :: f))
  | block {body f : List Char} :
      ¬ ['*', '/'] <:+: body ++ ['*'] → Filling f →
      Filling ('/' :: '*' :: (body ++ '*' :: '/' :: f))

/-- Blanks and whole comments are a gap before every text. -/
theorem Filling.gap {f : List Char} (h : Filling f) (after : List Char) : Gap f after := by
  induction h with
  | nil => exact .nil after
  | blank hc _ ih => exact .blank hc ih
  | line hbody _ ih => exact .line hbody (.inr rfl) (.blank (by simp) ih)
  | block hbody _ ih => exact .block hbody ih

/-- **A text at whose start nothing is skipped.** -/
def Firm (ys : List Char) : Prop :=
  ∃ ch rest, ys = ch :: rest ∧ isBlank ch = false ∧ startsComment ys = false

/-- A gap before such a text is one before every text. -/
theorem Gap.swap {gap ys : List Char} (h : Gap gap ys) (hys : Firm ys) (zs : List Char) :
    Gap gap zs := by
  induction h with
  | nil => exact .nil zs
  | blank hc _ ih => exact .blank hc (ih hys)
  | block hbody _ ih => exact .block hbody (ih hys)
  | @line body gap after hbody hend _ ih =>
    refine .line hbody (.inr ?_) (ih hys)
    cases gap with
    | nil =>
      obtain ⟨ch, rest, rfl, hb, -⟩ := hys
      rcases hend with hend | hend
      · cases hend
      · cases hend
        exact absurd hb (by decide)
    | cons b gap =>
      rcases hend with hend | hend
      · cases hend
      · exact hend

/-! ### What is taken of a text -/

/-- What none of the blanks is, no blank is. -/
theorem eq_false_of_isBlank {p : Char → Bool}
    (h : [' ', '\t', '\n', '\r', '\x0c'].all (!p ·) = true) {b : Char} (hb : isBlank b = true) :
    p b = false := by
  simpa using List.all_eq_true.1 h b (mem_blanks hb)

namespace Opens

variable {zs : List Char} (hz : Opens zs)
include hz

theorem startsComment_cons (c : Char) : startsComment (c :: zs) = false := by
  obtain ⟨b, rest, rfl, hb⟩ := hz
  unfold startsComment
  split
  · rename_i heq; cases heq; exact absurd hb (by decide)
  · rename_i heq; cases heq; exact absurd hb (by decide)
  · rfl

/-- What does not start with a comment does not either where a blank is put in. -/
theorem startsComment_swap {c : Char} {cs ys : List Char}
    (h : startsComment (c :: cs ++ ys) = false) : startsComment (c :: cs ++ zs) = false := by
  cases cs with
  | nil => exact hz.startsComment_cons c
  | cons d cs =>
    rw [← h]
    unfold startsComment
    split <;> simp_all

theorem firm_swap {xs ys : List Char} (hxs : xs ≠ []) (h : Firm (xs ++ ys)) : Firm (xs ++ zs) := by
  obtain ⟨ch, cs, rfl⟩ := List.exists_cons_of_ne_nil hxs
  obtain ⟨ch', rest, heq, hb, hc⟩ := h
  obtain ⟨rfl, -⟩ := List.cons.inj heq
  exact ⟨ch, cs ++ zs, rfl, hb, hz.startsComment_swap hc⟩

/-- **What is taken by character** ends before a blank, and is else the same as before any other
text. -/
theorem takeWhile_eq {p : Char → Bool} (hp : ∀ b, isBlank b = true → p b = false)
    (xs ys : List Char) : (xs ++ zs).takeWhile p = ((xs ++ ys).takeWhile p).take xs.length := by
  obtain ⟨b, rest, rfl, hb⟩ := hz
  rw [List.take_takeWhile, List.take_left]
  induction xs with
  | nil => simp [hp b hb]
  | cons x xs ih => rw [List.cons_append, List.takeWhile_cons, List.takeWhile_cons, ih]

theorem takeWhile_swap {p : Char → Bool} (hp : ∀ b, isBlank b = true → p b = false)
    {xs ys : List Char} (h : ((xs ++ ys).takeWhile p).length ≤ xs.length) :
    (xs ++ zs).takeWhile p = (xs ++ ys).takeWhile p := by
  rw [hz.takeWhile_eq hp xs ys, List.take_of_length_le h]

end Opens

namespace NumberLiteral

/-- An exponent has a letter and a digit. -/
theorem exponentAt_eq_nil {cs : List Char} (h : (exponentAt cs).length ≤ 1) :
    exponentAt cs = [] := by
  unfold exponentAt at h ⊢
  split
  · rename_i c rest
    dsimp only at h ⊢
    split
    · rename_i he
      rw [if_pos he] at h
      split
      · rfl
      · rename_i hdigits
        rw [if_neg hdigits, List.length_cons, List.length_append] at h
        exact absurd (List.isEmpty_iff.2 (List.eq_nil_of_length_eq_zero (by omega))) hdigits
    · rfl
  · rfl

variable {b : Char} (hb : isBlank b = true) (rest : List Char)
include hb

/-- No part of a number literal starts with a blank. -/
theorem fractionAt_blank : fractionAt (b :: rest) = [] := by
  unfold fractionAt
  split
  · rename_i heq
    cases heq
    exact absurd hb (by decide)
  · rfl

theorem signAt_blank : signAt (b :: rest) = [] := by
  have hsign := eq_false_of_isBlank (p := fun b => b == '+' || b == '-') (by decide) hb
  rw [signAt, if_neg (Bool.eq_false_iff.1 hsign)]

theorem exponentAt_blank : exponentAt (b :: rest) = [] := by
  have he := eq_false_of_isBlank (p := fun b => b == 'e' || b == 'E') (by decide) hb
  rw [exponentAt, if_neg (Bool.eq_false_iff.1 he)]

end NumberLiteral

namespace NumberLiteral

variable {zs : List Char} (hz : Opens zs)
include hz

theorem digitRun_swap {xs ys : List Char} (h : (digitRun (xs ++ ys)).length ≤ xs.length) :
    digitRun (xs ++ zs) = digitRun (xs ++ ys) :=
  hz.takeWhile_swap (fun _ => eq_false_of_isBlank (by decide)) h

theorem fractionAt_swap {xs ys : List Char}
    (h : fractionLength (fractionAt (xs ++ ys)) ≤ xs.length) :
    fractionAt (xs ++ zs) = fractionAt (xs ++ ys) := by
  -- a fraction has its period before it
  have hlen : ∀ ds : List Char, fractionLength ds ≤ xs.length → ds.length ≤ xs.length - 1 := by
    intro ds hds
    unfold fractionLength at hds
    split at hds
    · rename_i hempty
      simp [List.isEmpty_iff.1 hempty]
    · omega
  cases xs with
  | nil =>
    obtain ⟨b, rest, rfl, hb⟩ := hz
    exact (fractionAt_blank hb rest).trans
      (List.eq_nil_of_length_eq_zero (Nat.le_zero.1 (hlen _ h))).symm
  | cons c xs =>
    by_cases hc : c = '.'
    · subst hc
      exact digitRun_swap hz (hlen _ h)
    · rw [List.cons_append, List.cons_append]
      unfold fractionAt
      simp [hc]

theorem exponentAt_swap {xs ys : List Char} (h : (exponentAt (xs ++ ys)).length ≤ xs.length) :
    exponentAt (xs ++ zs) = exponentAt (xs ++ ys) := by
  match xs with
  | [] =>
    obtain ⟨b, rest, rfl, hb⟩ := hz
    exact (exponentAt_blank hb rest).trans (List.eq_nil_of_length_eq_zero (Nat.le_zero.1 h)).symm
  | [c] =>
    obtain ⟨b, rest, rfl, hb⟩ := hz
    rw [exponentAt_eq_nil h]
    have hdigit := eq_false_of_isBlank (p := isDigit) (by decide) hb
    simp [exponentAt, signAt_blank hb rest, digitRun, hdigit]
  | c :: d :: xs =>
    have hsign : (signAt (d :: xs)).length ≤ (d :: xs).length := (signAt_starts _).length_le
    have hsame : ∀ rest, signAt (d :: (xs ++ rest)) = signAt (d :: xs) := fun rest => rfl
    have hdrop : ∀ rest, (d :: (xs ++ rest)).drop (signAt (d :: xs)).length =
        (d :: xs).drop (signAt (d :: xs)).length ++ rest :=
      fun rest => List.drop_append_of_le_length hsign
    simp only [List.cons_append, exponentAt, hsame, hdrop] at h ⊢
    split
    · rename_i he
      rw [if_pos he] at h
      rw [digitRun_swap hz]
      split at h
      · rename_i hempty
        rw [List.isEmpty_iff.1 hempty]
        exact Nat.zero_le _
      · simp only [List.length_cons, List.length_append, List.length_drop] at h ⊢
        omega
    · rfl

/-- **A number literal** is the same before a blank as before a text that it does not run into. -/
theorem scan_swap {xs ys : List Char} (h : (scan (xs ++ ys)).length ≤ xs.length) :
    scan (xs ++ zs) = scan (xs ++ ys) := by
  simp only [scan, length] at h ⊢
  have hwhole : digitRun (xs ++ zs) = digitRun (xs ++ ys) := digitRun_swap hz (by omega)
  rw [hwhole]
  generalize digitRun (xs ++ ys) = whole at h ⊢
  have hfraction : fractionAt ((xs ++ zs).drop whole.length) =
      fractionAt ((xs ++ ys).drop whole.length) := by
    rw [List.drop_append_of_le_length (by omega)] at h ⊢
    rw [List.drop_append_of_le_length (by omega)]
    exact fractionAt_swap hz (by rw [List.length_drop]; omega)
  rw [hfraction]
  generalize fractionAt ((xs ++ ys).drop whole.length) = fraction at h ⊢
  have hexponent : exponentAt ((xs ++ zs).drop (whole.length + fractionLength fraction)) =
      exponentAt ((xs ++ ys).drop (whole.length + fractionLength fraction)) := by
    rw [List.drop_append_of_le_length (by omega)] at h ⊢
    rw [List.drop_append_of_le_length (by omega)]
    exact exponentAt_swap hz (by rw [List.length_drop]; omega)
  rw [hexponent]

end NumberLiteral

theorem stringBody_of_decodes {body content : List Char} (h : Decodes body content)
    (after : List Char) : stringBody (body ++ '"' :: after) = some (content, body.length + 1) := by
  induction h with
  | nil => rfl
  | escape c _ ih => rw [List.cons_append, List.cons_append, stringBody, ih]; rfl
  | plain hquote hslash _ ih =>
    rw [List.cons_append, stringBody, ih]
    · rfl
    · exact hquote
    · exact fun _ _ hc _ => hslash hc

/-- **The content of a string** is the same before any text, if its closing quote comes first. -/
theorem stringBody_swap {xs ys content : List Char} {n : Nat}
    (h : stringBody (xs ++ ys) = some (content, n)) (hn : n ≤ xs.length) (zs : List Char) :
    stringBody (xs ++ zs) = some (content, n) := by
  obtain ⟨body, after, hxs, rfl, hbody⟩ := decodes_of_stringBody h
  have hpre : body ++ ['"'] <+: xs :=
    List.prefix_of_prefix_length_le ⟨after, by rw [hxs]; simp⟩
      (List.prefix_append xs ys) (by simpa using hn)
  obtain ⟨rest, rfl⟩ := hpre
  rw [List.append_assoc, List.append_assoc]
  exact stringBody_of_decodes hbody _

theorem blockEnd_of_first {body : List Char} (h : ¬ ['*', '/'] <:+: body ++ ['*'])
    (after : List Char) : blockEnd (body ++ '*' :: '/' :: after) = some (body.length + 2) := by
  induction body with
  | nil => rfl
  | cons b body ih =>
    have hbody := ih fun hin => h (List.infix_cons hin)
    rw [List.cons_append, blockEnd, hbody]
    · rfl
    · -- nothing ends here
      rintro rest rfl hrest
      refine h (List.IsPrefix.isInfix ?_)
      cases body with
      | nil => cases hrest
      | cons d body =>
        obtain ⟨rfl, -⟩ := List.cons.inj hrest
        exact ⟨body ++ ['*'], rfl⟩

namespace Symbol

variable {known : List String} {run part : List Char}

theorem unique {other : List Char} (h : Symbol known run part) (h' : Symbol known run other) :
    part = other := by
  have hclash : ¬ (known = [] ∨ String.ofList run ∈ known) ↔
      known ≠ [] ∧ String.ofList run ∉ known := not_or
  cases h with
  | known hk =>
    cases h' with
    | known => rfl
    | part hne hnot => exact absurd hk (hclash.2 ⟨hne, hnot⟩)
    | unknown => rfl
  | part hne hnot hpart hmax =>
    cases h' with
    | known hk => exact absurd hk (hclash.2 ⟨hne, hnot⟩)
    | part _ _ hother hmax' =>
      have hle := List.prefix_of_prefix_length_le hpart.1 hother.1 (hmax' _ hpart)
      exact hle.eq_of_length (Nat.le_antisymm (hmax' _ hpart) (hmax _ hother))
    | unknown _ _ hnone => exact absurd hpart (hnone _)
  | unknown hne hnot hnone =>
    cases h' with
    | known => rfl
    | part _ _ hother => exact absurd hother (hnone _)
    | unknown => rfl

/-- **The symbol of a run** is that of what is left of it, if the symbol is in there. -/
theorem cut (h : Symbol known run part) {m : Nat} (hm : part.length ≤ m) :
    Symbol known (run.take m) part := by
  by_cases hall : run.length ≤ m
  · rwa [List.take_of_length_le hall]
  · have hlen : (run.take m).length = m := List.length_take_of_le (by omega)
    cases h with
    | known => exact absurd hm hall
    | unknown => exact absurd hm hall
    | part hne hnot hpart hmax =>
      -- what is known of the rest of a run is known of the run
      have hknown : ∀ other, other ≠ [] → other <+: run.take m → String.ofList other ∈ known →
          KnownPart known run other := fun other hother hpre hmem =>
        ⟨hpre.trans (List.take_prefix m run), hother,
          fun h => hall (by have := hpre.length_le; rw [h] at this; omega), hmem⟩
      have hpre : part <+: run.take m :=
        List.prefix_of_prefix_length_le hpart.1 (List.take_prefix m run) (by omega)
      by_cases hmem : String.ofList (run.take m) ∈ known
      · have hempty : run.take m ≠ [] := fun h =>
          hpart.2.1 (List.prefix_nil.1 (h ▸ hpre))
        have hle := hmax _ (hknown _ hempty List.prefix_rfl hmem)
        rw [hpre.eq_of_length (by omega)]
        exact .known (.inr hmem)
      · refine .part hne hmem ⟨hpre, hpart.2.1, fun h => hmem (h ▸ hpart.2.2.2), hpart.2.2.2⟩ ?_
        exact fun other hother => hmax _ (hknown _ hother.2.1 hother.1 hother.2.2.2)

end Symbol

theorem symbolLength_cut {known : List String} {run : List Char} {m : Nat}
    (hm : symbolLength known run ≤ m) :
    symbolLength known (run.take m) = symbolLength known run := by
  have hlen := List.length_take_of_le (symbolLength_le known run)
  have hcut := (symbol_take known run).cut (m := m) (by omega)
  have := congrArg List.length ((symbol_take known (run.take m)).unique hcut)
  rwa [List.length_take_of_le (symbolLength_le _ _), hlen] at this

/-! ### The readers -/

theorem isBlank_of_mem {c : Char} (h : c ∈ [' ', '\t', '\n', '\r', '\x0c']) : isBlank c = true := by
  simpa [isBlank, or_assoc] using h

namespace Lexer

variable {l : Lexer} {c c' d : Cursor} {t : Token} {xs ys zs : List Char}

/-- **A gap is skipped.** -/
theorem skipBlank_gap {gap after : List Char} (h : Gap gap after) (ha : c.ahead = gap ++ after) :
    l.skipBlank c = l.skipBlank (c.forward gap.length) := by
  induction h generalizing c with
  | nil => rfl
  | blank hc _ ih =>
    rw [skipBlank_of_blank ha (isBlank_of_mem hc), ih (by rw [Cursor.ahead_forward, ha]; rfl),
      Cursor.forward_forward, List.length_cons, Nat.add_comm]
  | @line body gap after hbody hend _ ih =>
    have hrun : (body ++ gap ++ after).takeWhile (· != '\n') = body := by
      rw [List.append_assoc]
      refine takeWhile_append_of_head (fun x hx => ?_) ?_
      · simpa using fun hfeed : x = '\n' => hbody (hfeed ▸ hx)
      · rcases hend with hend | hend <;> simp [hend]
    have hskip : l.skipComment c = .ok ((), c.forward (1 + (1 + body.length))) := by
      simp only [skipComment, ha, List.cons_append, commentLength, beq_self_eq_true, if_true, hrun]
    rw [skipBlank_of_comment ha (by decide) rfl hskip, ih, Cursor.forward_forward]
    · congr 2
      simp only [List.length_cons, List.length_append]
      omega
    · rw [Cursor.ahead_forward, ha, ← Nat.add_assoc, Nat.add_comm]
      simp
  | @block body gap after hbody _ ih =>
    have hskip : l.skipComment c = .ok ((), c.forward (1 + (body.length + 2 + 1))) := by
      simp only [skipComment, ha, List.cons_append, commentLength, List.append_assoc,
        blockEnd_of_first hbody]
      rfl
    rw [skipBlank_of_comment ha (by decide) rfl hskip, ih, Cursor.forward_forward]
    · congr 2
      simp only [List.length_cons, List.length_append]
      omega
    · rw [Cursor.ahead_forward, ha, show 1 + (body.length + 2 + 1) = body.length + 2 + 2 by omega]
      simp

theorem skipBlank_of_firm (h : Firm c.ahead) : l.skipBlank c = .ok ((), c) := by
  obtain ⟨ch, rest, ha, hb, hc⟩ := h
  exact skipBlank_of_neither ha hb (ha ▸ hc)

theorem firm_of_skipBlank (h : l.skipBlank c = .ok ((), c')) : c'.ahead = [] ∨ Firm c'.ahead := by
  fun_induction skipBlank l c with
  | case1 c ha => cases h; exact .inl ha
  | case2 c ch rest ha hb ih => exact ih h
  | case3 c ch rest ha hb hc c₁ hs ih => exact ih h
  | case4 => cases h
  | case5 c ch rest ha hb hc =>
    cases h
    exact .inr ⟨ch, rest, ha, by simpa using hb, by rw [ha]; simpa using hc⟩

/-- **A token with the gap before it.** -/
theorem gap_before {c₁ : Cursor} (hskip : l.skipBlank c = .ok ((), c₁))
    (h : l.tokenHere c₁ = .ok (t, c')) (ht : t.kind ≠ .finish) :
    ∃ gap after n, c.ahead = gap ++ after ∧ c₁ = c.forward gap.length ∧ c₁.ahead = after ∧
      Gap gap after ∧ Firm after ∧ c' = c₁.forward n ∧ 0 < n ∧ n ≤ after.length := by
  obtain ⟨gap, after, hgap, rfl, hgapped⟩ := gap_of_skipBlank hskip
  have hafter : (c.forward gap.length).ahead = after := by
    rw [Cursor.ahead_forward, hgap, List.drop_left]
  rcases cuts_of_tokenHere h with ⟨-, rfl, -⟩ | ⟨chars, rest, hchars, hne, hc', -, -⟩
  · exact absurd rfl ht
  · rw [hafter] at hchars
    refine ⟨gap, after, chars.length, hgap, rfl, hafter, hgapped, ?_, hc',
      List.length_pos_iff.2 hne, by rw [hchars]; simp⟩
    rcases firm_of_skipBlank hskip with hnil | hfirm
    · rw [hafter.symm.trans hnil] at hchars
      exact absurd (List.append_eq_nil_iff.1 hchars.symm).1 hne
    · rwa [hafter] at hfirm

theorem le_of_position_forward {n m : Nat} (hn : n ≤ c.ahead.length)
    (h : (c.forward n).position ≤ c.position + m) : n ≤ m := by
  rw [Cursor.position_forward hn] at h
  omega

section Swap

variable (ha : c.ahead = xs ++ ys) (hd : d.ahead = xs ++ zs)
include ha hd

theorem readString_swap (hxs : xs ≠ []) {s : String} (hr : l.readString c = .ok (s, c'))
    (hp : c'.position ≤ c.position + xs.length) :
    ∃ k, k ≤ xs.length ∧ c' = c.forward k ∧ l.readString d = .ok (s, d.forward k) := by
  obtain ⟨q, xs, rfl⟩ := List.exists_cons_of_ne_nil hxs
  rw [List.cons_append] at ha hd
  unfold readString at hr
  simp only [ha] at hr
  split at hr
  · rename_i content n hbody
    cases hr
    obtain ⟨body, after, hsplit, rfl, -⟩ := decodes_of_stringBody hbody
    have hle := le_of_position_forward (by rw [ha, hsplit]; simp; omega) hp
    refine ⟨_, hle, rfl, ?_⟩
    simp only [readString, hd, stringBody_swap hbody (by simp at hle; omega) zs]
  · cases hr

variable (hz : Opens zs)
include hz

theorem readNumber_swap {n : Num} (hr : readNumber c = .ok (n, c'))
    (hp : c'.position ≤ c.position + xs.length) :
    ∃ k, k ≤ xs.length ∧ c' = c.forward k ∧ readNumber d = .ok (n, d.forward k) := by
  unfold readNumber at hr
  dsimp only at hr
  split at hr
  · rename_i hn
    cases hr
    have hlen := (NumberLiteral.chars_starts c.ahead).length_le
    rw [NumberLiteral.length_chars] at hlen
    have hle := le_of_position_forward hlen hp
    refine ⟨_, hle, rfl, ?_⟩
    rw [ha] at hle hn ⊢
    simp only [readNumber, hd, NumberLiteral.scan_swap hz hle, hn]
  · cases hr

theorem readName_swap (hp : (readName c).2.position ≤ c.position + xs.length) :
    ∃ k, k ≤ xs.length ∧ (readName c).2 = c.forward k ∧
      readName d = ((readName c).1, d.forward k) := by
  have hle := le_of_position_forward (List.takeWhile_prefix isNameChar).length_le hp
  refine ⟨_, hle, rfl, ?_⟩
  rw [ha] at hle
  rw [readName, readName, hd, ha, hz.takeWhile_swap (fun _ => eq_false_of_isBlank (by decide)) hle]

theorem readOperator_swap (hp : (l.readOperator c).2.position ≤ c.position + xs.length) :
    ∃ k, k ≤ xs.length ∧ (l.readOperator c).2 = c.forward k ∧
      l.readOperator d = ((l.readOperator c).1, d.forward k) := by
  have hle := le_of_position_forward
    (Nat.le_trans (symbolLength_le l.known _) (List.takeWhile_prefix isOperatorChar).length_le) hp
  refine ⟨_, hle, rfl, ?_⟩
  -- the run may go on behind the symbol, and then it ends at the blank
  have hrun : d.ahead.takeWhile isOperatorChar =
      (c.ahead.takeWhile isOperatorChar).take xs.length := by
    rw [ha, hd, hz.takeWhile_eq (fun _ => eq_false_of_isBlank (by decide)) xs ys]
  simp only [readOperator, hrun, symbolLength_cut hle, List.take_take, Nat.min_eq_left hle]

/-- **A token** is read before a blank as before a text that it does not run into. -/
theorem tokenHere_swap (hxs : xs ≠ []) (hr : l.tokenHere c = .ok (t, c'))
    (hp : c'.position ≤ c.position + xs.length) : ∃ k u, k ≤ xs.length ∧ c' = c.forward k ∧
      l.tokenHere d = .ok (u, d.forward k) ∧ u.shape = t.shape := by
  obtain ⟨ch, rest, rfl⟩ := List.exists_cons_of_ne_nil hxs
  unfold tokenHere at hr ⊢
  simp only [ha, List.cons_append] at hr
  simp only [hd, List.cons_append]
  split at hr
  · cases hr
    exact ⟨1, _, by simp, rfl, rfl, rfl⟩
  · split at hr
    · rename_i hquote
      split at hr
      · rename_i hread
        cases hr
        obtain ⟨k, hk, rfl, hread'⟩ := readString_swap ha hd hxs hread hp
        simp only [hquote, if_true, hread']
        exact ⟨k, _, hk, rfl, rfl, rfl⟩
      · cases hr
    · rename_i hquote
      simp only [hquote]
      split at hr
      · rename_i hdigit
        split at hr
        · rename_i hread
          cases hr
          obtain ⟨k, hk, rfl, hread'⟩ := readNumber_swap ha hd hz hread hp
          simp only [hdigit, if_true, hread']
          exact ⟨k, _, hk, rfl, rfl, rfl⟩
        · cases hr
      · rename_i hdigit
        simp only [hdigit]
        split at hr
        · rename_i hstart
          cases hr
          obtain ⟨k, hk, hname, hread'⟩ := readName_swap ha hd hz hp
          simp only [hstart, hread', hname]
          exact ⟨k, _, hk, rfl, rfl, rfl⟩
        · rename_i hstart
          simp only [hstart]
          split at hr
          · rename_i hop
            cases hr
            obtain ⟨k, hk, hsymbol, hread'⟩ := readOperator_swap (l := l) ha hd hz hp
            simp only [hop, hread', hsymbol]
            exact ⟨k, _, hk, rfl, rfl, rfl⟩
          · cases hr

/-- **The next token** is read before a blank as before a text that it does not run into. -/
theorem nextToken_swap (hn : l.nextToken c = .ok (t, c')) (ht : t.kind ≠ .finish)
    (hp : c'.position ≤ c.position + xs.length) : ∃ k u, k ≤ xs.length ∧ c' = c.forward k ∧
      l.nextToken d = .ok (u, d.forward k) ∧ u.shape = t.shape := by
  unfold nextToken at hn
  split at hn
  · rename_i c₁ hskip
    obtain ⟨gap, after, n, hgap, rfl, hafter, hgapped, hfirm, rfl, hpos, hle⟩ :=
      gap_before hskip hn ht
    -- the gap and the token lie before the place
    rw [Cursor.forward_forward] at hp
    have hlen : gap.length + n ≤ xs.length :=
      le_of_position_forward (by rw [hgap, List.length_append]; omega) hp
    obtain ⟨xs₁, rfl⟩ : gap <+: xs :=
      List.prefix_of_prefix_length_le ⟨after, hgap.symm.trans ha⟩ (List.prefix_append xs ys)
        (by omega)
    rw [List.append_assoc] at ha hd
    obtain rfl : after = xs₁ ++ ys := List.append_cancel_left (hgap.symm.trans ha)
    rw [List.length_append] at hlen
    have hxs₁ : xs₁ ≠ [] := List.length_pos_iff.1 (by omega)
    have hd₁ : (d.forward gap.length).ahead = xs₁ ++ zs := by
      rw [Cursor.ahead_forward, hd, List.drop_left]
    obtain ⟨k, u, hk, hc', hu, hshape⟩ := tokenHere_swap hafter hd₁ hz hxs₁ hn (by
      rw [Cursor.position_forward (by rw [hafter]; exact hle)]
      omega)
    rw [Cursor.forward_forward] at hu
    refine ⟨gap.length + k, u, by rw [List.length_append]; omega,
      by rw [hc', Cursor.forward_forward], ?_, hshape⟩
    rw [nextToken, skipBlank_gap (hgapped.swap hfirm _) hd,
      skipBlank_of_firm (hd₁ ▸ hz.firm_swap hxs₁ hfirm)]
    exact hu
  · cases hn

end Swap

/-! ### The tokens -/

/-- **Where a token starts or ends**, the end of the text apart, from a cursor on. -/
inductive Edge (l : Lexer) : Cursor → Nat → Prop
  | start {c c₁ c' : Cursor} {t : Token} :
      l.skipBlank c = .ok ((), c₁) → l.tokenHere c₁ = .ok (t, c') → t.kind ≠ .finish →
      Edge l c c₁.position
  | stop {c c' : Cursor} {t : Token} :
      l.nextToken c = .ok (t, c') → t.kind ≠ .finish → Edge l c c'.position
  | later {c c' : Cursor} {t : Token} {p : Nat} :
      l.nextToken c = .ok (t, c') → t.kind ≠ .finish → Edge l c' p → Edge l c p

/-- A token ends in the text that is ahead. -/
theorem position_of_nextToken (h : l.nextToken c = .ok (t, c')) (ht : t.kind ≠ .finish) :
    c.position ≤ c'.position ∧
      c'.position + c'.ahead.length = c.position + c.ahead.length := by
  unfold nextToken at h
  split at h
  · rename_i c₁ hskip
    obtain ⟨gap, after, n, hgap, rfl, hafter, -, -, rfl, -, hle⟩ := gap_before hskip h ht
    rw [Cursor.position_forward (by rw [hafter]; exact hle), Cursor.ahead_forward, hafter,
      Cursor.position_forward (by rw [hgap]; simp), hgap, List.length_append, List.length_drop]
    omega
  · cases h

theorem Edge.within {p : Nat} (h : l.Edge c p) :
    c.position ≤ p ∧ p ≤ c.position + c.ahead.length := by
  induction h with
  | start hskip h ht =>
    obtain ⟨gap, after, n, hgap, rfl, -⟩ := gap_before hskip h ht
    rw [Cursor.position_forward (by rw [hgap]; simp), hgap, List.length_append]
    omega
  | stop h ht =>
    have := position_of_nextToken h ht
    omega
  | later h ht _ ih =>
    have := position_of_nextToken h ht
    omega

/-- **Cursors before the same tokens**, if there are no failures. -/
def Alike (l : Lexer) (c d : Cursor) : Prop :=
  (l.scan c).failure = none → (l.scan d).failure = none ∧
    (l.scan d).tokens.map Token.shape = (l.scan c).tokens.map Token.shape

theorem alike_of_ahead (h : d.ahead = c.ahead) : l.Alike c d := by
  intro hf
  obtain ⟨body, pos, us, d', hbody, -, hus, hd', hscan, hfail⟩ :=
    scan_before (.inl rfl) (h.trans (List.append_nil _).symm) hf
  rw [scan_of_end hd'] at hscan hfail
  refine ⟨hfail, ?_⟩
  rw [hscan, hbody, List.map_append, List.map_append, hus]
  rfl

/-- Blanks and whole comments may be put in before a text. -/
theorem alike_of_gap {gap : List Char} (hgap : Gap gap c.ahead) (hd : d.ahead = gap ++ c.ahead) :
    l.Alike c d := by
  have hskip : l.nextToken d = l.nextToken (d.forward gap.length) := by
    rw [nextToken, nextToken, skipBlank_gap hgap hd]
  unfold Alike
  rw [scan_congr hskip]
  exact alike_of_ahead (by rw [Cursor.ahead_forward, hd, List.drop_left])

/-- After a token of the same shape the texts may be alike. -/
theorem Alike.token {d' : Cursor} {u : Token} (h : l.Alike c' d')
    (hc : l.nextToken c = .ok (t, c')) (hd : l.nextToken d = .ok (u, d'))
    (hshape : u.shape = t.shape) (ht : t.kind ≠ .finish) : l.Alike c d := by
  have hu : u.kind ≠ .finish := by rwa [show u.kind = t.kind from congrArg Prod.fst hshape]
  unfold Alike
  rw [scan_of_token hc ht, scan_of_token hd hu]
  intro hf
  obtain ⟨hfail, hshapes⟩ := h hf
  exact ⟨hfail, by rw [List.map_cons, List.map_cons, hshape, hshapes]⟩

/-- **A scan is blind to blank text** at an edge of a token. -/
theorem alike_of_edge {f xs ys : List Char} {p : Nat} (hfill : Filling f) (hopens : Opens f)
    (he : l.Edge c p) (hc : c.ahead = xs ++ ys) (hp : p = c.position + xs.length)
    (hd : d.ahead = xs ++ (f ++ ys)) : l.Alike c d := by
  have hz : Opens (f ++ ys) := by
    obtain ⟨b, rest, rfl, hb⟩ := hopens
    exact ⟨b, rest ++ ys, rfl, hb⟩
  induction he generalizing d xs with
  | @start c c₁ c' t hskip ht hkind =>
    obtain ⟨gap, after, n, hgap, rfl, hafter, hgapped, hfirm, -⟩ := gap_before hskip ht hkind
    rw [Cursor.position_forward (by rw [hgap]; simp)] at hp
    obtain ⟨rfl, rfl⟩ := List.append_inj (hgap.symm.trans hc) (by omega)
    -- the gap before the token is made longer
    have hsame : l.nextToken c = l.nextToken (c.forward gap.length) := by
      rw [nextToken, nextToken, skipBlank_gap hgapped hgap]
    have hlonger : l.nextToken d = l.nextToken (d.forward gap.length) := by
      rw [nextToken, nextToken, skipBlank_gap (hgapped.swap hfirm _) hd]
    unfold Alike
    rw [scan_congr hsame, scan_congr hlonger]
    exact alike_of_gap (hfill.gap _) (by simp [hd, hgap])
  | @stop c c' t hn ht =>
    obtain ⟨k, u, hk, rfl, hu, hshape⟩ := nextToken_swap hc hd hz hn ht (by omega)
    rw [Cursor.position_forward (by rw [hc, List.length_append]; omega)] at hp
    obtain rfl : k = xs.length := by omega
    exact (alike_of_gap (hfill.gap _) (by simp [hd, hc])).token hn hu hshape ht
  | @later c c' t p hn ht he ih =>
    have hle := he.within.1
    obtain ⟨k, u, hk, rfl, hu, hshape⟩ := nextToken_swap hc hd hz hn ht (by omega)
    rw [Cursor.position_forward (by rw [hc, List.length_append]; omega)] at ih
    have hc' : (c.forward k).ahead = xs.drop k ++ ys := by
      rw [Cursor.ahead_forward, hc, List.drop_append_of_le_length hk]
    have hd' : (d.forward k).ahead = xs.drop k ++ (f ++ ys) := by
      rw [Cursor.ahead_forward, hd, List.drop_append_of_le_length hk]
    exact (ih hc' (by rw [List.length_drop]; omega) hd').token hn hu hshape ht

/-- **Tokens are blind to blank text between them**: where blanks and whole comments are put in at
the start or the end of a token, the tokens have the same kinds and values as before. -/
theorem tokens_filled {source : String} {ts : List Token} {p : Nat} {f : List Char}
    (h : l.tokens source = .ok ts) (he : l.Edge (.start source 1) p) (hfill : Filling f)
    (hopens : Opens f) :
    ∃ us, l.tokens (String.ofList (source.toList.take p ++ f ++ source.toList.drop p)) = .ok us ∧
      us.map Token.shape = ts.map Token.shape := by
  obtain ⟨hfail, rfl⟩ := tokens_eq_ok_iff.1 h
  have hlen : (source.toList.take p).length = p := List.length_take_of_le (by
    simpa [Cursor.start, Cursor.position] using he.within.2)
  have halike := alike_of_edge hfill hopens he (List.take_append_drop p source.toList).symm
    (by rw [hlen]; exact (Nat.zero_add p).symm)
    (d := .start (String.ofList (source.toList.take p ++ f ++ source.toList.drop p)) 1)
    (by simp [Cursor.start])
  obtain ⟨hfail', hshapes⟩ := halike hfail
  exact ⟨_, tokens_eq_ok_iff.2 ⟨hfail', rfl⟩, hshapes⟩

/-- A blank and a comment behind a number that was taken for one with an exponent at first. -/
theorem tokens_filled_exponent : ∃ ts us, (Lexer.mk "" []).tokens "2e" = .ok ts ∧
    (Lexer.mk "" []).Edge (.start "2e" 1) 1 ∧ Filling [' ', '/', '*', '*', '/'] ∧
    Opens [' ', '/', '*', '*', '/'] ∧
    (Lexer.mk "" []).tokens (String.ofList ("2e".toList.take 1 ++ [' ', '/', '*', '*', '/'] ++
      "2e".toList.drop 1)) = .ok us ∧ us.map Token.shape = ts.map Token.shape := by
  have hnumber : (Lexer.mk "" []).nextToken (.start "2e" 1) =
      .ok (⟨.number, .num (.int 2), ⟨1, 1⟩⟩, (Cursor.start "2e" 1).forward 1) :=
    nextToken_eq_tokenHere rfl rfl rfl
  have hname : (Lexer.mk "" []).nextToken ((Cursor.start "2e" 1).forward 1) =
      .ok (⟨.atom, .str "e", ⟨1, 2⟩⟩, (Cursor.start "2e" 1).forward 2) :=
    nextToken_eq_tokenHere rfl rfl rfl
  have hts : (Lexer.mk "" []).tokens "2e" = .ok [⟨.number, .num (.int 2), ⟨1, 1⟩⟩,
      ⟨.atom, .str "e", ⟨1, 2⟩⟩, .ofEnd ⟨1, 3⟩] := by
    refine tokens_eq_ok_iff.2 ?_
    rw [scan_of_token hnumber (by decide), scan_of_token hname (by decide), scan_of_end rfl]
    exact ⟨rfl, rfl⟩
  have hedge : (Lexer.mk "" []).Edge (.start "2e" 1) 1 := .stop hnumber (by decide)
  have hfill : Filling [' ', '/', '*', '*', '/'] :=
    .blank (by decide) (@Filling.block [] [] (by decide) .nil)
  have hopens : Opens [' ', '/', '*', '*', '/'] := ⟨' ', _, rfl, rfl⟩
  obtain ⟨us, hus, hshapes⟩ := tokens_filled hts hedge hfill hopens
  exact ⟨_, us, hts, hedge, hfill, hopens, hus, hshapes⟩

end Lexer

end TermCalc
