import TermCalc.Proofs.Number.Literals
import TermCalc.Proofs.Syntax.Positions

/-!
# The longest number literal

A number is read off the longest part of what is ahead that has the form of a number literal. A
period or an `e` without digits behind it is not of that form, and is left where it stands.

* `LiteralForm`: digits, perhaps a fraction, perhaps an exponent. `LongestPrefix`: the longest
  prefix of a form.
* `NumberLiteral.literalForm_scan`: what is scanned has the form.
* `NumberLiteral.length_le_scan`: nothing longer has.
* `denoted`: the integer that digits denote.
* `Lexer.readNumber_longest`: **the longest literal is read**, as the integer that it denotes or as
  a double.
-/

namespace TermCalc

/-! ### Forms -/

/-- One digit or more. -/
structure Digits (ds : List Char) : Prop where
  ne_nil : ds ≠ []
  isDigit : ∀ d ∈ ds, isDigit d = true

/-- **A fraction**, or nothing. -/
inductive FractionForm : List Char → Prop
  | none : FractionForm []
  | some {ds : List Char} : Digits ds → FractionForm ('.' :: ds)

/-- **An exponent**, or nothing. -/
inductive ExponentForm : List Char → Prop
  | none : ExponentForm []
  | some {e : Char} {sign ds : List Char} :
      e ∈ ['e', 'E'] → sign ∈ [[], ['+'], ['-']] → Digits ds → ExponentForm (e :: (sign ++ ds))

/-- **The form of a number literal.** -/
inductive LiteralForm : List Char → Prop
  | mk {whole fraction exponent : List Char} :
      Digits whole → FractionForm fraction → ExponentForm exponent →
      LiteralForm (whole ++ (fraction ++ exponent))

/-- **The longest prefix** of a text that has a form. -/
structure LongestPrefix (form : List Char → Prop) (text part : List Char) : Prop where
  starts : part <+: text
  has_form : form part
  longest : ∀ other, other <+: text → form other → other.length ≤ part.length

theorem ExponentForm.head {e : Char} (h : e ∈ ['e', 'E']) :
    e ≠ '.' ∧ e ≠ '\n' ∧ isDigit e = false ∧ (e == 'e' || e == 'E') = true := by
  have hcases : e = 'e' ∨ e = 'E' := by simpa using h
  rcases hcases with rfl | rfl <;> decide

theorem ExponentForm.sign_cases {sign : List Char} (h : sign ∈ [[], ['+'], ['-']]) :
    sign = [] ∨ sign = ['+'] ∨ sign = ['-'] := by simpa using h

theorem Digits.append {ds : List Char} (h : Digits ds) (rest : List Char) :
    digitRun (ds ++ rest) = ds ++ digitRun rest :=
  List.takeWhile_append_of_pos h.isDigit

/-- A literal goes on behind its digits with what is no digit. -/
theorem digitRun_behind {fraction exponent : List Char} (hf : FractionForm fraction)
    (he : ExponentForm exponent) (hne : fraction ++ exponent ≠ []) (rest : List Char) :
    digitRun (fraction ++ exponent ++ rest) = [] := by
  cases hf with
  | some => rfl
  | none =>
    cases he with
    | none => exact absurd rfl hne
    | some hletter =>
      obtain ⟨-, -, hdigit, -⟩ := ExponentForm.head hletter
      simp [digitRun, hdigit]

theorem Digits.no_feed {ds : List Char} (h : Digits ds) : '\n' ∉ ds := fun hmem => by
  have hfeed := h.isDigit _ hmem
  revert hfeed
  decide

/-- A literal stays on its line. -/
theorem LiteralForm.no_feed {part : List Char} (h : LiteralForm part) : '\n' ∉ part := by
  obtain @⟨whole, fraction, exponent, hw, hf, he⟩ := h
  have hfraction : '\n' ∉ fraction := by
    cases hf with
    | none => simp
    | some hds => simpa using hds.no_feed
  have hexponent : '\n' ∉ exponent := by
    cases he with
    | none => simp
    | @some e sign ds hletter hsign hds =>
      obtain ⟨-, hfeed, -⟩ := ExponentForm.head hletter
      have hsign' : '\n' ∉ sign := by
        rcases ExponentForm.sign_cases hsign with rfl | rfl | rfl <;> decide
      simp [hfeed.symm, hsign', hds.no_feed]
  simp [hw.no_feed, hfraction, hexponent]

namespace NumberLiteral

/-! ### What is scanned has the form -/

theorem digits_digitRun {cs : List Char} (h : digitRun cs ≠ []) : Digits (digitRun cs) :=
  ⟨h, fun _ hd => List.mem_takeWhile_imp hd⟩

theorem fractionForm_pointed (cs : List Char) : FractionForm (pointed (fractionAt cs)) := by
  unfold pointed
  split
  · exact .none
  · rename_i hne
    unfold fractionAt at *
    split at hne
    · exact .some (digits_digitRun (by simpa using hne))
    · simp at hne

theorem signAt_mem (cs : List Char) : signAt cs ∈ [[], ['+'], ['-']] := by
  unfold signAt
  split
  · split
    · rename_i c _ h
      simpa using h
    · simp
  · simp

theorem exponentForm_exponentAt (cs : List Char) : ExponentForm (exponentAt cs) := by
  unfold exponentAt
  split
  · split
    · rename_i h
      dsimp only
      split
      · exact .none
      · rename_i hne
        exact .some (by simpa using h) (signAt_mem _) (digits_digitRun (by simpa using hne))
    · exact .none
  · exact .none

theorem digitRun_ne_nil {cs : List Char} (h : cs.head?.any isDigit = true) : digitRun cs ≠ [] := by
  cases cs with
  | nil => simp at h
  | cons c cs =>
    have hc : isDigit c = true := by simpa using h
    simp [digitRun, hc]

/-- **What is scanned has the form of a literal.** -/
theorem literalForm_scan {cs : List Char} (h : cs.head?.any isDigit = true) :
    LiteralForm (scan cs).chars := by
  rw [chars, List.append_assoc]
  exact .mk (digits_digitRun (digitRun_ne_nil h)) (fractionForm_pointed _)
    (exponentForm_exponentAt _)

/-! ### Nothing longer has the form -/

theorem signAt_sign {sign ds : List Char} (hs : sign ∈ [[], ['+'], ['-']]) (hds : Digits ds)
    (rest : List Char) : signAt (sign ++ ds ++ rest) = sign := by
  rcases ExponentForm.sign_cases hs with rfl | rfl | rfl
  · -- a digit is no sign
    obtain ⟨d, ds', rfl⟩ := List.exists_cons_of_ne_nil hds.ne_nil
    have hd := hds.isDigit d (by simp)
    have hplus : d ≠ '+' := by rintro rfl; revert hd; decide
    have hminus : d ≠ '-' := by rintro rfl; revert hd; decide
    simp [signAt, hplus, hminus]
  · rfl
  · rfl

theorem length_le_exponentAt {exponent : List Char} (h : ExponentForm exponent)
    (rest : List Char) : exponent.length ≤ (exponentAt (exponent ++ rest)).length := by
  cases h with
  | none => simp
  | @some e sign ds hletter hsign hds =>
    obtain ⟨-, -, -, he⟩ := ExponentForm.head hletter
    have hrun : digitRun ((sign ++ ds ++ rest).drop sign.length) = ds ++ digitRun rest := by
      rw [List.append_assoc, List.drop_left, hds.append]
    have hne : (ds ++ digitRun rest).isEmpty = false := by simp [hds.ne_nil]
    rw [List.cons_append, exponentAt, if_pos he]
    simp only [signAt_sign hsign hds, hrun, hne]
    simp

/-- The parts behind the digits are at most as long as those that are scanned. -/
theorem length_le_behind {fraction exponent : List Char} (hf : FractionForm fraction)
    (he : ExponentForm exponent) {rest cs : List Char} (hcs : cs = fraction ++ exponent ++ rest) :
    (fraction ++ exponent).length ≤ fractionLength (fractionAt cs) +
      (exponentAt (cs.drop (fractionLength (fractionAt cs)))).length := by
  have hexponent := length_le_exponentAt he rest
  cases hf with
  | none =>
    cases he with
    | none => simp
    | @some e sign ds hletter hsign hds =>
      -- no fraction is scanned before a letter
      obtain ⟨hperiod, -⟩ := ExponentForm.head hletter
      have hnone : fractionAt cs = [] := by
        rw [hcs, List.nil_append, List.cons_append, fractionAt]
        simpa using hperiod
      have hzero : fractionLength [] = 0 := rfl
      rw [hnone, hzero, List.drop_zero, hcs]
      simpa using hexponent
  | @some ds hds =>
    have hrun : fractionAt cs = ds ++ digitRun (exponent ++ rest) := by
      rw [hcs, List.cons_append, List.cons_append, fractionAt, List.append_assoc, hds.append]
    have hlength : fractionLength (fractionAt cs) =
        ds.length + (digitRun (exponent ++ rest)).length + 1 := by
      rw [hrun, fractionLength, if_neg (by simp [hds.ne_nil]), List.length_append]
    by_cases hnil : exponent = []
    · rw [hlength, hnil, List.append_nil, List.length_cons]
      omega
    · -- the letter ends the digits, so that the same fraction is scanned
      have hstop := digitRun_behind .none he hnil rest
      rw [List.nil_append] at hstop
      rw [hstop, List.length_nil, Nat.add_zero] at hlength
      have hdrop : cs.drop (ds.length + 1) = exponent ++ rest := by
        rw [hcs, List.append_assoc, List.cons_append, List.drop_succ_cons, List.drop_left]
      rw [hlength, hdrop, List.length_append, List.length_cons]
      omega

/-- **No literal at the start of a text is longer** than what is scanned there. -/
theorem length_le_scan {part : List Char} (h : LiteralForm part) (rest : List Char) :
    part.length ≤ (scan (part ++ rest)).length := by
  obtain @⟨whole, fraction, exponent, hw, hf, he⟩ := h
  have hrun : digitRun (whole ++ (fraction ++ exponent) ++ rest) =
      whole ++ digitRun (fraction ++ exponent ++ rest) := by
    rw [List.append_assoc, hw.append]
  by_cases hne : fraction ++ exponent = []
  · -- digits alone, and there may be more of them
    have hwhole := congrArg List.length hrun
    have hnil := congrArg List.length hne
    rw [List.length_append] at hwhole
    rw [List.length_append, hnil, List.length_nil, length]
    simp only [scan]
    omega
  · rw [digitRun_behind hf he hne, List.append_nil] at hrun
    have hbehind := @length_le_behind _ _ hf he rest _ rfl
    simp only [length, scan, hrun]
    rw [List.append_assoc whole, List.drop_left, ← List.drop_drop, List.drop_left,
      List.length_append]
    omega

/-- **What is scanned is the longest literal.** -/
theorem longestPrefix_scan {cs : List Char} (h : cs.head?.any isDigit = true) :
    LongestPrefix LiteralForm cs (scan cs).chars where
  starts := chars_starts cs
  has_form := literalForm_scan h
  longest := by
    rintro other ⟨rest, rfl⟩ hother
    rw [length_chars]
    exact length_le_scan hother rest

example : ["1.e5", "2e+", "1.5e-x"].map (fun s => (scan s.toList).chars) =
    [['1'], ['2'], ['1', '.', '5']] := by decide

/-- Only in an integer are all characters digits. -/
theorem all_isDigit_chars (cs : List Char) :
    (scan cs).chars.all isDigit = (scan cs).isInteger := by
  have hwhole : (scan cs).whole.all isDigit = true := List.all_takeWhile
  have hfraction : (pointed (scan cs).fraction).all isDigit = (scan cs).fraction.isEmpty := by
    have hperiod : isDigit '.' = false := by decide
    unfold pointed
    split <;> simp_all
  have hexponent : (scan cs).exponent.all isDigit = (scan cs).exponent.isEmpty := by
    have hform : ExponentForm (scan cs).exponent := exponentForm_exponentAt _
    generalize (scan cs).exponent = exponent at hform ⊢
    cases hform with
    | none => rfl
    | some hletter =>
      obtain ⟨-, -, hdigit, -⟩ := ExponentForm.head hletter
      simp [hdigit]
  rw [chars, List.all_append, List.all_append, hwhole, hfraction, hexponent, isInteger,
    Bool.true_and]

end NumberLiteral

/-! ### What is read -/

/-- The value of a digit. -/
def digitValue (d : Char) : Nat := d.toNat - '0'.toNat

/-- **The integer that digits denote**, of which the last counts ones. -/
def denoted (ds : List Char) : Nat := Nat.ofDigits 10 (ds.map digitValue).reverse

theorem ofDigitChars_eq_denoted (ds : List Char) : Nat.ofDigitChars 10 ds 0 = denoted ds := by
  induction ds using List.reverseRecOn with
  | nil => rfl
  | append_singleton ds d ih =>
    rw [Nat.ofDigitChars_append, ih, Nat.ofDigitChars_cons, Nat.ofDigitChars_nil, denoted, denoted,
      List.map_append, List.reverse_append, List.map_singleton, List.reverse_singleton,
      List.singleton_append, Nat.ofDigits_cons, digitValue]
    exact Nat.add_comm _ _

namespace Lexer

/-- The number of the literal that is scanned. -/
theorem numberOf_scan {cs : List Char} (h : cs.head?.any isDigit = true) :
    numberOf (NumberLiteral.scan cs) =
      if (NumberLiteral.scan cs).chars.all isDigit then
        if (NumberLiteral.scan cs).chars.length ≤ Num.maxDigits then
          .ok (.int (denoted (NumberLiteral.scan cs).chars))
        else .error .tooManyDigits
      else .ok (.float (NumberLiteral.scan cs).double) := by
  have hwhole : (NumberLiteral.scan cs).whole.isEmpty = false := by
    simpa [NumberLiteral.scan] using NumberLiteral.digitRun_ne_nil h
  rw [NumberLiteral.all_isDigit_chars, numberOf, hwhole]
  cases hint : (NumberLiteral.scan cs).isInteger with
  | false => rfl
  | true =>
    have hparts : (NumberLiteral.scan cs).fraction = [] ∧ (NumberLiteral.scan cs).exponent = [] := by
      simpa [NumberLiteral.isInteger] using hint
    have hchars : (NumberLiteral.scan cs).chars = (NumberLiteral.scan cs).whole := by
      simp [NumberLiteral.chars, NumberLiteral.pointed, hparts]
    rw [hchars, ← ofDigitChars_eq_denoted]
    rcases Nat.lt_or_ge Num.maxDigits (NumberLiteral.scan cs).whole.length with hlt | hle
    · simp [hlt]
    · simp [hle, Nat.not_lt.2 hle]

/-- **A number is read by longest match**: what is taken at a digit is the longest prefix of what is
ahead that is a number literal. Without a fraction and an exponent it gives the integer that its
digits denote, if they are not too many; else a double. -/
theorem readNumber_longest {c : Cursor} (h : c.ahead.head?.any isDigit = true) :
    ∃ part c' x, LongestPrefix LiteralForm c.ahead part ∧
      c'.text = c.text ∧ c'.position = c.position + part.length ∧ c'.line = c.line ∧
      doubleParts x ≠ .nan ∧
      readNumber c =
        if part.all isDigit then
          if part.length ≤ Num.maxDigits then .ok (.int (denoted part), c')
          else .error ⟨.tooManyDigits, c'⟩
        else .ok (.float x, c') := by
  have hlongest := NumberLiteral.longestPrefix_scan h
  have hlength := NumberLiteral.length_chars (NumberLiteral.scan c.ahead)
  have hvalue := numberOf_scan h
  generalize (NumberLiteral.scan c.ahead).chars = part at hlongest hlength hvalue
  refine ⟨part, c.forward part.length, (NumberLiteral.scan c.ahead).double, hlongest,
    Cursor.text_forward _ c, Cursor.position_forward hlongest.starts.length_le,
    Cursor.line_forward_of_not_mem hlongest.starts hlongest.has_form.no_feed,
    doubleParts_doubleOfDecimal _ _ _ _, ?_⟩
  rw [readNumber, hvalue, hlength]
  by_cases hall : part.all isDigit = true
  · by_cases hmax : (NumberLiteral.scan c.ahead).length ≤ Num.maxDigits
    · simp only [if_pos hall, if_pos hmax]
    · simp only [if_pos hall, if_neg hmax]
  · simp only [if_neg hall]

/-- An exponent without digits is left where it stands. -/
theorem readNumber_longest_rewound :
    let c := Cursor.start "1.5e-x" 1
    c.ahead.head?.any isDigit = true ∧
      ∃ part c' x, LongestPrefix LiteralForm c.ahead part ∧
        c'.text = c.text ∧ c'.position = c.position + part.length ∧ c'.line = c.line ∧
        doubleParts x ≠ .nan ∧
        readNumber c =
          if part.all isDigit then
            if part.length ≤ Num.maxDigits then .ok (.int (denoted part), c')
            else .error ⟨.tooManyDigits, c'⟩
          else .ok (.float x, c') :=
  ⟨by decide, readNumber_longest (by decide)⟩

end Lexer

end TermCalc
