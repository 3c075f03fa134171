import TermCalc.Proofs.Syntax.Layout
import TermCalc.Term.Tree

/-!
# Pieces as tokens

The lexer cuts printed text back into the pieces that it was put together from, because no piece
runs on into what stands behind it.

* `Piece.Stands`, `Standing`: the pieces that are cut off by what follows.
* `Registry.Separates`: tables whose prefix and postfix operators are cut off from their operands.
* `Written.standing`: whatever is printed with such a table consists of such pieces.
* `Lexer.scan_of_standing`: **they are the tokens of their text.**
-/

namespace TermCalc

/-- Kind and value of a token. -/
def Token.shape (t : Token) : TokenKind × Term := (t.kind, t.value)

/-- The token of a name or symbol. -/
structure Token.Names (t : Token) (s : String) : Prop where
  kind : t.kind = if isName s then .atom else .operator
  value : t.value = .str s

namespace Token.Names

variable {t : Token} {s : String} (h : t.Names s)

include h

theorem kind_of_isName (hs : isName s = true) : t.kind = .atom := by rw [h.kind, if_pos hs]

theorem kind_of_not_isName (hs : isName s = false) : t.kind = .operator := by
  rw [h.kind, hs]
  rfl

theorem kind_cases : t.kind = .atom ∨ t.kind = .operator := by
  rw [h.kind]
  split
  · exact .inl rfl
  · exact .inr rfl

theorem spelling?_eq : t.spelling? = some s := by
  rcases h.kind_cases with hk | hk <;> simp [spelling?, hk, h.value]

theorem spelledByList_eq : t.spelledByList = false := by
  rcases h.kind_cases with hk | hk <;> simp [spelledByList, hk, h.value]

theorem operatorName_eq : t.operatorName = s := by
  rcases h.kind_cases with hk | hk <;> simp [operatorName, head, hk, h.value]

end Token.Names

/-! ### Characters -/

theorem isOperatorChar_spec {c : Char} (h : isOperatorChar c = true) :
    isBlank c = false ∧ Mark.ofChar? c = none ∧ (c == '"') = false ∧ isDigit c = false ∧
      isNameStart c = false := by
  have hall : (operatorChars.all fun c => !isBlank c && (Mark.ofChar? c).isNone && !(c == '"') &&
      !isDigit c && !isNameStart c) = true := by decide
  have hc := List.all_eq_true.1 hall c (by simpa [isOperatorChar] using h)
  simpa [and_assoc] using hc

/-- The characters that are asked for before digits and names are, and the start of comments. -/
def earlierChars : List Char :=
  [' ', '\t', '\n', '\r', '\x0c', '(', ')', '\x7b', '\x7d', '[', ']', ',', ';', '"', '/']

theorem spec_of_not_mem {c : Char} (h : c ∉ earlierChars) :
    isBlank c = false ∧ Mark.ofChar? c = none ∧ (c == '"') = false ∧ c ≠ '/' := by
  simp only [earlierChars, List.mem_cons, List.not_mem_nil, or_false, not_or] at h
  simp [isBlank, Mark.ofChar?, h]

theorem not_mem_of_isNameStart {c : Char} (h : isNameStart c = true) : c ∉ earlierChars := by
  have hall : (earlierChars.all fun c => !isNameStart c) = true := by decide
  exact fun hc => by simpa [h] using List.all_eq_true.1 hall c hc

theorem not_mem_of_isDigit {c : Char} (h : isDigit c = true) : c ∉ earlierChars := by
  have hall : (earlierChars.all fun c => !isDigit c) = true := by decide
  exact fun hc => by simpa [h] using List.all_eq_true.1 hall c hc

theorem isDigit_eq (c : Char) : isDigit c = c.isDigit := by
  simp [isDigit, Char.isDigit, Char.le_def]

theorem toNat_of_isDigit {c : Char} (h : isDigit c = true) : 48 ≤ c.toNat ∧ c.toNat ≤ 57 := by
  simp only [isDigit, Bool.and_eq_true, decide_eq_true_eq, Char.le_def,
    UInt32.le_iff_toNat_le] at h
  exact h

theorem isNameStart_of_isDigit {c : Char} (h : isDigit c = true) : isNameStart c = false := by
  obtain ⟨hlow, hhigh⟩ := toNat_of_isDigit h
  have hascii : c.toNat < 0x80 := by omega
  have hscore : c ≠ '_' := by rintro rfl; revert hhigh; decide
  have hupper : ¬(65 ≤ c.toNat ∧ c.toNat ≤ 90) := by omega
  have hlower : ¬(97 ≤ c.toNat ∧ c.toNat ≤ 122) := by omega
  have halpha : c.isAlpha = false := by
    rw [← Bool.not_eq_true]
    intro hc
    rcases Bool.or_eq_true_iff.1 hc with hc | hc
    · have hc : 'A'.val ≤ c.val ∧ c.val ≤ 'Z'.val := of_decide_eq_true hc
      exact hupper hc
    · have hc : 'a'.val ≤ c.val ∧ c.val ≤ 'z'.val := by simpa using Bool.and_eq_true_iff.1 hc
      exact hlower hc
  simp [isNameStart, isLetter, hascii, halpha, hscore]

theorem isNameChar_of_isDigit {c : Char} (h : isDigit c = true) : isNameChar c = true := by
  have hdigit : c.isDigit = true := by rwa [← isDigit_eq]
  obtain ⟨-, hhigh⟩ := toNat_of_isDigit h
  have hascii : c.toNat < 0x80 := by omega
  simp [isNameChar, isAlphanumeric, isNumeral, hascii, hdigit]

/-- The decimal of a number is one digit or more. -/
theorem exists_toDigits (n : Nat) :
    ∃ c cs, Nat.toDigits 10 n = c :: cs ∧ ∀ d ∈ c :: cs, isDigit d = true := by
  obtain ⟨c, cs, hcs⟩ := List.exists_cons_of_ne_nil (Nat.toDigits_ne_nil (n := n) (b := 10))
  refine ⟨c, cs, hcs, fun d hd => ?_⟩
  rw [isDigit_eq]
  exact Nat.isDigit_of_mem_toDigits (by decide) (by decide) (hcs ▸ hd)

theorem takeWhile_append_of_head {α : Type} {p : α → Bool} {xs ys : List α}
    (h : ∀ x ∈ xs, p x = true) (hy : ys.head?.all (!p ·) = true) :
    (xs ++ ys).takeWhile p = xs := by
  rw [List.takeWhile_append_of_pos h]
  cases ys with
  | nil => simp
  | cons y ys =>
    have hy : p y = false := by simpa using hy
    simp [hy]

/-! ### Pieces that are cut off -/

/-- That a run of operator characters is cut behind a symbol where it goes on with a character. -/
def Severs (known : List String) (s : String) (next : Char) : Prop :=
  ∀ more, symbolLength known (s.toList ++ next :: more) = s.toList.length ∧
    startsComment (s.toList ++ next :: more) = false

/-- **Whether a piece is cut off by what follows**, where some spellings are known. A symbol may be
run into, but then the lexer takes the run apart. -/
def Piece.Stands (known : List String) (p : Piece) (next : Option Char) : Prop :=
  match p with
  | space | mark _ | quote _ => True
  | word s =>
    isName s = true ∧ next.all (!isNameChar ·) = true ∨
      isSymbol known s = true ∧
        (next.all (!isOperatorChar ·) = true ∨ ∃ c, next = some c ∧ Severs known s c)
  | digits n => n < Num.digitBound ∧ next.all (fun c => !isNameChar c && c != '.') = true

/-- Every piece is cut off by the one behind it. -/
def Standing (known : List String) : List Piece → Prop
  | [] => True
  | p :: ps => p.Stands known (layout ps).head? ∧ Standing known ps

/-- The characters that may stand behind an expression: no name, number or symbol runs on into
them. -/
def Closes (next : Option Char) : Prop := next.all ([' ', ')', '\x7d', ',', '!'].contains ·) = true

theorem Closes.spec {next : Option Char} (h : Closes next) :
    next.all (!isNameChar ·) = true ∧ next.all (fun c => !isNameChar c && c != '.') = true ∧
      (next.all (!isOperatorChar ·) = true ∨ next = some '!') := by
  cases next with
  | none => simp
  | some c =>
    have hall : ([' ', ')', '\x7d', ',', '!'].all fun c => !isNameChar c && c != '.' &&
        (!isOperatorChar c || c == '!')) = true := by decide
    have hc := List.all_eq_true.1 hall c (by simpa [Closes] using h)
    obtain ⟨⟨hname, hpoint⟩, hop⟩ := by simpa using hc
    simpa [hname, hpoint] using hop

theorem isName_spec {s : String} (h : isName s = true) :
    ∃ c cs, s.toList = c :: cs ∧ isNameStart c = true ∧ ∀ x ∈ c :: cs, isNameChar x = true := by
  unfold isName at h
  split at h
  · cases h
  · rename_i c cs hs
    simp only [Bool.and_eq_true, List.all_eq_true] at h
    refine ⟨c, cs, hs, h.1, ?_⟩
    simpa using ⟨isNameChar_of_isNameStart h.1, h.2⟩

theorem isSymbol_spec {known : List String} {s : String} (h : isSymbol known s = true) :
    ∃ c cs, s.toList = c :: cs ∧ (∀ x ∈ c :: cs, isOperatorChar x = true) ∧
      symbolLength known (c :: cs) = (c :: cs).length ∧ startsComment (c :: cs) = false := by
  simp only [isSymbol, Bool.and_eq_true, Bool.not_eq_true', List.all_eq_true, beq_iff_eq] at h
  obtain ⟨⟨⟨hne, hall⟩, hlen⟩, hcomment⟩ := h
  obtain ⟨c, cs, hs⟩ : ∃ c cs, s.toList = c :: cs :=
    List.exists_cons_of_ne_nil fun hnil => by simp [hnil] at hne
  rw [hs] at hall hlen hcomment
  exact ⟨c, cs, hs, hall, hlen, hcomment⟩

theorem isName_of_isSymbol {known : List String} {s : String} (h : isSymbol known s = true) :
    isName s = false := by
  obtain ⟨c, cs, hs, hall, -⟩ := isSymbol_spec h
  simp [isName, hs, (isOperatorChar_spec (hall c (by simp))).2.2.2.2]

/-- A name or symbol is cut off by what is part of neither. -/
theorem Piece.stands_word {known : List String} {s : String} {next : Option Char}
    (h : (isName s || isSymbol known s) = true)
    (hn : next.all (fun c => !isNameChar c && !isOperatorChar c) = true) :
    (Piece.word s).Stands known next := by
  rw [Bool.or_eq_true] at h
  rcases h with h | h
  · refine .inl ⟨h, ?_⟩
    cases next <;> simp_all
  · refine .inr ⟨h, .inl ?_⟩
    cases next <;> simp_all

/-- **A table whose prefix and postfix operators are cut off** from their operands: names that are
prefix operators end in a letter or digit, and postfix operators run into nothing that may stand
behind an expression, nor an expression into them. -/
structure Registry.Separates (r : Registry) : Prop where
  prefixed : ∀ op ∈ r.operators, op.fixity = .prefixed → isName op.name = true →
    op.name.toList.getLast?.any isAlphanumeric = true
  postfixed : ∀ op ∈ r.operators, op.fixity = .postfixed → Closes op.name.toList.head? ∧
    ∀ next, Closes next → (Piece.word op.name).Stands r.operatorNames next

section Standing

variable {r : Registry}

/-- A prefix operator is cut off by its operand, or by the space before it. -/
theorem standing_gap (hr : r.Regular) (hs : r.Separates) {op : Operator} (hm : op ∈ r.operators)
    (hf : op.fixity = .prefixed) {ps rest : List Piece}
    (h : Standing r.operatorNames (ps ++ rest)) :
    Standing r.operatorNames (.word op.name :: (gap op.name ps ++ ps ++ rest)) := by
  have hname := hr.spelled op hm
  obtain ⟨last, hlast⟩ := exists_getLast? hname
  cases hspace : Registry.needsSpace last (layout ps) with
  | true =>
    have hgap : gap op.name ps = [.space] := by simp [gap, hlast, hspace]
    rw [hgap]
    refine ⟨Piece.stands_word hname ?_, trivial, h⟩
    simp [Piece.chars]; decide
  | false =>
    -- only a symbol can stand without a space, and then its operand starts with no symbol
    have hnil : gap op.name ps = [] := by simp [gap, hlast, hspace]
    simp only [Registry.needsSpace, Bool.or_eq_false_iff] at hspace
    have hnot : isName op.name = false := by
      by_contra hs'
      have hany := hs.prefixed op hm hf (by simpa using hs')
      rw [hlast] at hany
      exact absurd hany (by simp [hspace.1])
    have hsymbol : isSymbol r.operatorNames op.name = true := by simpa [hnot] using hname
    rw [hnil]
    refine ⟨.inr ⟨hsymbol, .inl ?_⟩, h⟩
    cases hl : layout ps with
    | nil => simp [hl] at hspace
    | cons c cs => simpa [hl] using hspace.2

theorem standing_commas {known : List String} {args : List (Term × List Piece)}
    (h : ∀ a ∈ args, ∀ rest, Standing known rest → Closes (layout rest).head? →
      Standing known (a.2 ++ rest))
    {rest : List Piece} (hrest : Standing known rest) (hclose : Closes (layout rest).head?) :
    Standing known (commas (args.map Prod.snd) ++ rest) := by
  induction args with
  | nil => simpa [commas] using hrest
  | cons a args ih =>
    have ha := h a (by simp)
    cases args with
    | nil => simpa [commas] using ha rest hrest hclose
    | cons b args =>
      have hmore := ih fun c hc => h c (by simp [hc])
      simp only [List.map_cons, commas_cons_cons, List.append_assoc, List.cons_append] at hmore ⊢
      refine ha _ ⟨trivial, trivial, hmore⟩ ?_
      simp [Closes, Piece.chars, Mark.char]

/-- **Whatever is printed consists of pieces that are cut off**, before what closes it. -/
theorem Written.standing (hr : r.Regular) (hs : r.Separates) {d : Int} {t : Term}
    {ps : List Piece} (h : Written r d t ps) : ∀ rest, Standing r.operatorNames rest →
      Closes (layout rest).head? → Standing r.operatorNames (ps ++ rest) := by
  induction h with
  | parens _ _ ih =>
    intro rest hrest hclose
    simp only [List.cons_append, List.append_assoc, List.nil_append]
    exact ⟨trivial, ih _ ⟨trivial, hrest⟩ (by simp [Closes, Piece.chars, Mark.char])⟩
  | atom _ hname _ => exact fun rest hrest hclose => ⟨.inl ⟨hname, hclose.spec.1⟩, hrest⟩
  | numeral _ hn => exact fun rest hrest hclose => ⟨⟨hn, hclose.spec.2.1⟩, hrest⟩
  | text => exact fun rest hrest hclose => ⟨trivial, hrest⟩
  | list _ _ ih =>
    intro rest hrest hclose
    simp only [List.cons_append, List.append_assoc, List.nil_append]
    exact ⟨trivial, standing_commas ih ⟨trivial, hrest⟩ (by simp [Closes, Piece.chars, Mark.char])⟩
  | call _ _ hname _ _ _ ih =>
    intro rest hrest hclose
    simp only [List.cons_append, List.append_assoc, List.nil_append]
    refine ⟨Piece.stands_word hname ?_, trivial, standing_commas ih ⟨trivial, hrest⟩ ?_⟩
    · simp [Piece.chars, Mark.char]; decide
    · simp [Closes, Piece.chars, Mark.char]
  | @infixed d op a b ps qs pos hop _ _ _ _ iha ihb =>
    intro rest hrest hclose
    have hname := hr.spelled op (Registry.operatorOf?_eq_some hop).1
    simp only [List.append_assoc, List.cons_append]
    refine iha _ ⟨trivial, Piece.stands_word hname ?_, trivial, ihb rest hrest hclose⟩ ?_
    · simp [Piece.chars]; decide
    · simp [Closes, Piece.chars]
  | @prefixed d op a ps pos hop hf _ hw ih =>
    intro rest hrest hclose
    have hm := (Registry.operatorOf?_eq_some hop).1
    exact standing_gap hr hs hm hf (ih rest hrest hclose)
  | @postfixed d op a ps pos hop hf _ _ ih =>
    intro rest hrest hclose
    obtain ⟨hhead, hstands⟩ := hs.postfixed op (Registry.operatorOf?_eq_some hop).1 hf
    rw [List.append_assoc]
    refine ih _ ⟨hstands _ hclose, hrest⟩ ?_
    obtain ⟨c, cs, hcs⟩ : ∃ c cs, op.name.toList = c :: cs := by
      obtain ⟨last, hlast⟩ := exists_getLast? (hr.spelled op (Registry.operatorOf?_eq_some hop).1)
      exact List.exists_cons_of_ne_nil fun hnil => by simp [hnil] at hlast
    simpa [Piece.chars, hcs] using hhead
  | @bodied d op args body ps pos hop _ _ _ _ ih ihBody =>
    intro rest hrest hclose
    have hname := hr.spelled op (Registry.operatorOf?_eq_some hop).1
    simp only [List.append_assoc, List.cons_append]
    refine ⟨Piece.stands_word hname ?_, trivial,
      standing_commas ih ⟨trivial, trivial, ihBody rest hrest hclose⟩ ?_⟩
    · simp [Piece.chars, Mark.char]; decide
    · simp [Closes, Piece.chars, Mark.char]

end Standing

/-! ### The lexer on pieces -/

theorem startsComment_of_ne {c : Char} {cs : List Char} (h : c ≠ '/') :
    startsComment (c :: cs) = false := by
  unfold startsComment
  split <;> simp_all

/-- A symbol starts no comment together with what it is cut off from. -/
theorem startsComment_append {c : Char} {cs rest : List Char}
    (h : startsComment (c :: cs) = false)
    (hr : cs = [] → rest.head?.all (!isOperatorChar ·) = true) :
    startsComment (c :: (cs ++ rest)) = false := by
  cases cs with
  | cons d cs =>
    unfold startsComment at h ⊢
    split at h <;> simp_all
  | nil =>
    cases rest with
    | nil => exact h
    | cons d rest =>
      have hd : isOperatorChar d = false := by simpa using hr rfl
      have hslash : d ≠ '/' := by rintro rfl; revert hd; decide
      have hstar : d ≠ '*' := by rintro rfl; revert hd; decide
      unfold startsComment
      split <;> simp_all

/-- A character is written behind a backslash, as one that decodes to it, or as it is; never as a
line feed. -/
theorem stringEscape_cases (c : Char) :
    (∃ d, (stringEscape c).toList = ['\\', d] ∧ unescaped d = c ∧ d ≠ '\n') ∨
      (stringEscape c).toList = [c] ∧ c ≠ '"' ∧ c ≠ '\\' ∧ c ≠ '\n' := by
  by_cases hquote : c = '"'
  · exact .inl ⟨'"', by subst hquote; rfl, by subst hquote; rfl, by decide⟩
  by_cases hback : c = '\\'
  · exact .inl ⟨'\\', by subst hback; rfl, by subst hback; rfl, by decide⟩
  by_cases hline : c = '\n'
  · exact .inl ⟨'n', by subst hline; rfl, by subst hline; rfl, by decide⟩
  by_cases htab : c = '\t'
  · exact .inl ⟨'t', by subst htab; rfl, by subst htab; rfl, by decide⟩
  · exact .inr ⟨by simp [stringEscape, hquote, hback, hline, htab], hquote, hback, hline⟩

/-- What a quoted text holds is read back, whatever follows its closing quote. -/
theorem stringBody_escaped (content rest : List Char) :
    stringBody (content.flatMap (fun c => (stringEscape c).toList) ++ '"' :: rest) =
      some (content, (content.flatMap fun c => (stringEscape c).toList).length + 1) := by
  induction content with
  | nil => simp [stringBody]
  | cons c content ih =>
    rw [List.flatMap_cons, List.append_assoc]
    rcases stringEscape_cases c with ⟨d, hd, hc, -⟩ | ⟨hd, hquote, hback, -⟩
    · -- the character behind the backslash says which one is meant
      rw [hd, List.cons_append, List.cons_append, List.nil_append, stringBody, ih]
      simp [hc]
    · rw [hd, List.cons_append, List.nil_append, stringBody, ih]
      · simp
      · exact hquote
      · exact fun _ _ h _ => hback h

/-- The longest number literal is the digits alone if no digit, letter or period follows. -/
theorem scan_digits {ds rest : List Char} (hd : ∀ c ∈ ds, isDigit c = true)
    (hr : rest.head?.all (fun c => !isNameChar c && c != '.') = true) :
    NumberLiteral.scan (ds ++ rest) = ⟨ds, [], []⟩ := by
  have hrun : digitRun (ds ++ rest) = ds := by
    refine takeWhile_append_of_head hd ?_
    cases rest with
    | nil => rfl
    | cons c rest =>
      simp only [List.head?_cons, Option.all_some, Bool.and_eq_true, Bool.not_eq_true',
        bne_iff_ne] at hr ⊢
      by_contra hdigit
      rw [isNameChar_of_isDigit (by simpa using hdigit)] at hr
      exact absurd hr.1 (by simp)
  have hfraction : NumberLiteral.fractionAt rest = [] := by
    unfold NumberLiteral.fractionAt
    split
    · simp at hr
    · rfl
  have hexponent : NumberLiteral.exponentAt rest = [] := by
    cases rest with
    | nil => rfl
    | cons c rest =>
      have he : (c == 'e' || c == 'E') = false := by
        by_contra hc
        simp only [Bool.not_eq_false, Bool.or_eq_true, beq_iff_eq] at hc
        have hletters : isNameChar 'e' = true ∧ isNameChar 'E' = true := by decide
        rcases hc with rfl | rfl <;> simp [hletters] at hr
      rw [NumberLiteral.exponentAt, he]
      rfl
  rw [NumberLiteral.scan, hrun, List.drop_left, hfraction]
  simp [NumberLiteral.fractionLength, hexponent]

namespace Lexer

variable {l : Lexer} {c : Cursor}

theorem skipBlank_eq (c : Cursor) : l.skipBlank c =
    match c.ahead with
    | [] => .ok ((), c)
    | ch :: rest =>
      if isBlank ch then l.skipBlank (c.forward 1)
      else if startsComment (ch :: rest) then
        match l.skipComment c with
        | .ok ((), c') => l.skipBlank c'
        | .error stop => .error stop
      else .ok ((), c) := by
  rw [skipBlank]
  split
  · rename_i ha
    rw [ha]
  · rename_i ha
    rw [ha]
    simp only
    split
    · rfl
    · split
      · split
        · rename_i hs
          rw [hs]
        · rename_i hs
          rw [hs]
      · rfl

theorem skipBlank_of_end (ha : c.ahead = []) : l.skipBlank c = .ok ((), c) := by
  rw [skipBlank_eq, ha]

theorem skipBlank_of_blank {ch : Char} {rest : List Char} (ha : c.ahead = ch :: rest)
    (hb : isBlank ch = true) : l.skipBlank c = l.skipBlank (c.forward 1) := by
  rw [skipBlank_eq, ha]
  simp only [hb, if_true]

theorem skipBlank_of_comment {ch : Char} {rest : List Char} (ha : c.ahead = ch :: rest)
    (hb : isBlank ch = false) (hc : startsComment (ch :: rest) = true) {c' : Cursor}
    (hs : l.skipComment c = .ok ((), c')) : l.skipBlank c = l.skipBlank c' := by
  rw [skipBlank_eq, ha]
  simp only [hb, hc, hs, Bool.false_eq_true, if_false, if_true]

theorem skipBlank_of_stop {ch : Char} {rest : List Char} (ha : c.ahead = ch :: rest)
    (hb : isBlank ch = false) (hc : startsComment (ch :: rest) = true) {stop : Stop}
    (hs : l.skipComment c = .error stop) : l.skipBlank c = .error stop := by
  rw [skipBlank_eq, ha]
  simp only [hb, hc, hs, Bool.false_eq_true, if_false, if_true]

theorem skipBlank_of_neither {ch : Char} {rest : List Char} (ha : c.ahead = ch :: rest)
    (hb : isBlank ch = false) (hc : startsComment (ch :: rest) = false) :
    l.skipBlank c = .ok ((), c) := by
  rw [skipBlank_eq, ha]
  simp only [hb, hc, Bool.false_eq_true, if_false]

theorem nextToken_eq_tokenHere {ch : Char} {rest : List Char} (ha : c.ahead = ch :: rest)
    (hb : isBlank ch = false) (hc : startsComment (ch :: rest) = false) :
    l.nextToken c = l.tokenHere c := by
  rw [nextToken, skipBlank_of_neither ha hb hc]

theorem nextToken_of_blank {ch : Char} {rest : List Char} (ha : c.ahead = ch :: rest)
    (hb : isBlank ch = true) : l.nextToken c = l.nextToken (c.forward 1) := by
  rw [nextToken, nextToken, skipBlank_of_blank ha hb]

theorem nextToken_mark {m : Mark} {rest : List Char} (ha : c.ahead = m.char :: rest) :
    ∃ t c', l.nextToken c = .ok (t, c') ∧ t.shape = (.mark m, .str (String.singleton m.char)) ∧
      c'.ahead = rest := by
  have hb : isBlank m.char = false := by cases m <;> decide
  have hslash : m.char ≠ '/' := by cases m <;> decide
  refine ⟨.ofMark m c.pos, c.forward 1, ?_, rfl, by simp [ha]⟩
  rw [nextToken_eq_tokenHere ha hb (startsComment_of_ne hslash), tokenHere, ha]
  simp [Mark.ofChar?_char]

/-- **A quoted text is read** as the token of what it holds, whatever follows it. -/
theorem nextToken_quoted {s : String} {rest : List Char}
    (ha : c.ahead = (Piece.quote s).chars ++ rest) :
    l.nextToken c =
      .ok (⟨.string, .str s, c.pos⟩, c.forward (Piece.quote s).chars.length) := by
  simp only [Piece.chars, List.cons_append, List.append_assoc, List.nil_append] at ha ⊢
  have hread := stringBody_escaped s.toList rest
  generalize s.toList.flatMap (fun c => (stringEscape c).toList) = body at ha hread ⊢
  rw [nextToken_eq_tokenHere ha (by decide) (startsComment_of_ne (by decide)), tokenHere, ha]
  simp [readString, ha, hread, Mark.ofChar?, Nat.add_comm 1]

theorem nextToken_quote {s : String} {rest : List Char}
    (ha : c.ahead = (Piece.quote s).chars ++ rest) :
    ∃ t c', l.nextToken c = .ok (t, c') ∧ t.shape = (.string, .str s) ∧ c'.ahead = rest :=
  ⟨_, _, nextToken_quoted ha, rfl, by rw [Cursor.ahead_forward, ha, List.drop_left]⟩

theorem length_toDigits_le {n : Nat} (hn : n < Num.digitBound) :
    (Nat.toDigits 10 n).length ≤ Num.maxDigits := by
  have hpos : 0 < Num.maxDigits := by decide
  unfold Num.digitBound at hn
  generalize Num.maxDigits = k at hn hpos ⊢
  exact (Nat.length_toDigits_le_iff (by decide) hpos).2 hn

theorem nextToken_digits {n : Nat} {rest : List Char} (hn : n < Num.digitBound)
    (hr : rest.head?.all (fun c => !isNameChar c && c != '.') = true)
    (ha : c.ahead = Nat.toDigits 10 n ++ rest) :
    ∃ t c', l.nextToken c = .ok (t, c') ∧ t.shape = (.number, .num (.int n)) ∧
      c'.ahead = rest := by
  obtain ⟨ch, ds, hds, hdigits⟩ := exists_toDigits n
  have hscan : NumberLiteral.scan (Nat.toDigits 10 n ++ rest) = ⟨Nat.toDigits 10 n, [], []⟩ :=
    scan_digits (by rwa [hds]) hr
  have hvalue : numberOf ⟨Nat.toDigits 10 n, [], []⟩ = .ok (.int n) := by
    have hlen := length_toDigits_le hn
    have hne : (Nat.toDigits 10 n).isEmpty = false := by simp [Nat.toDigits_ne_nil]
    simp [numberOf, NumberLiteral.isInteger, hne, Nat.not_lt.2 hlen, Nat.ofDigitChars_ten_toDigits]
  have hdigit : isDigit ch = true := hdigits ch (by simp)
  obtain ⟨hb, hm, hq, hslash⟩ := spec_of_not_mem (not_mem_of_isDigit hdigit)
  have hahead : c.ahead = ch :: (ds ++ rest) := by rw [ha, hds]; rfl
  refine ⟨⟨.number, .num (.int n), c.pos⟩, c.forward (Nat.toDigits 10 n).length, ?_, rfl, ?_⟩
  · rw [nextToken_eq_tokenHere hahead hb (startsComment_of_ne hslash), tokenHere, hahead]
    simp only [hm, hq, hdigit, readNumber, ha, hscan, hvalue]
    simp [NumberLiteral.length, NumberLiteral.fractionLength]
  · simp [ha]

theorem nextToken_name {s : String} {rest : List Char} (hs : isName s = true)
    (hr : rest.head?.all (!isNameChar ·) = true) (ha : c.ahead = s.toList ++ rest) :
    ∃ t c', l.nextToken c = .ok (t, c') ∧ t.shape = (.atom, .str s) ∧ c'.ahead = rest := by
  obtain ⟨ch, cs, hcs, hstart, hall⟩ := isName_spec hs
  obtain ⟨hb, hm, hq, hslash⟩ := spec_of_not_mem (not_mem_of_isNameStart hstart)
  have hdigit : isDigit ch = false := by
    by_contra hd
    rw [Bool.not_eq_false] at hd
    rw [isNameStart_of_isDigit hd] at hstart
    cases hstart
  have hrun : c.ahead.takeWhile isNameChar = s.toList := by
    rw [ha, takeWhile_append_of_head (by rwa [hcs]) hr]
  have hahead : c.ahead = ch :: (cs ++ rest) := by rw [ha, hcs]; rfl
  refine ⟨⟨.atom, .str s, c.pos⟩, c.forward s.toList.length, ?_, rfl, by simp [ha]⟩
  rw [nextToken_eq_tokenHere hahead hb (startsComment_of_ne hslash), tokenHere, hahead]
  simp [hm, hq, hdigit, hstart, readName, hrun]

theorem nextToken_symbol {s : String} {rest : List Char} (hs : isSymbol l.known s = true)
    (hr : rest.head?.all (!isOperatorChar ·) = true ∨
      ∃ c, rest.head? = some c ∧ Severs l.known s c)
    (ha : c.ahead = s.toList ++ rest) :
    ∃ t c', l.nextToken c = .ok (t, c') ∧ t.shape = (.operator, .str s) ∧ c'.ahead = rest := by
  obtain ⟨ch, cs, hcs, hall, hlen, hcomment⟩ := isSymbol_spec hs
  obtain ⟨hb, hm, hq, hdigit, hstart⟩ := isOperatorChar_spec (hall ch (by simp))
  have hahead : c.ahead = ch :: (cs ++ rest) := by rw [ha, hcs]; rfl
  -- the run of operator characters is the symbol, or goes on and is taken apart
  have hrun : symbolLength l.known (c.ahead.takeWhile isOperatorChar) = s.toList.length ∧
      s.toList <+: c.ahead.takeWhile isOperatorChar ∧
        startsComment (ch :: (cs ++ rest)) = false := by
    by_cases hplain : rest.head?.all (!isOperatorChar ·) = true
    · rw [ha, takeWhile_append_of_head (by rwa [hcs]) hplain, hcs]
      exact ⟨hlen, List.prefix_rfl, startsComment_append hcomment fun _ => hplain⟩
    · obtain ⟨d, hd, hsevers⟩ := hr.resolve_left hplain
      obtain ⟨rest', rfl⟩ := List.head?_eq_some_iff.1 hd
      have hop : isOperatorChar d = true := by simpa using hplain
      have hsplit : c.ahead.takeWhile isOperatorChar =
          s.toList ++ d :: rest'.takeWhile isOperatorChar := by
        rw [ha, List.takeWhile_append_of_pos (by rwa [hcs]), List.takeWhile_cons_of_pos hop]
      have hno := (hsevers rest').2
      rw [hcs] at hno
      rw [hsplit]
      exact ⟨(hsevers _).1, List.prefix_append _ _, hno⟩
  obtain ⟨hlength, hpre, hno⟩ := hrun
  have hread : l.readOperator c = (s, c.forward s.toList.length) := by
    rw [readOperator, hlength, ← List.prefix_iff_eq_take.1 hpre, String.ofList_toList]
  refine ⟨⟨.operator, .str s, c.pos⟩, c.forward s.toList.length, ?_, rfl, by simp [ha]⟩
  rw [nextToken_eq_tokenHere hahead hb hno, tokenHere, hahead]
  simp [hm, hq, hdigit, hstart, hall ch (by simp), hread]

/-- A piece that is cut off is read as the token that it is. -/
theorem nextToken_piece {p : Piece} {rest : List Char}
    {shape : TokenKind × Term} (hs : p.shape? = some shape) (hp : p.Stands l.known rest.head?)
    (ha : c.ahead = p.chars ++ rest) :
    ∃ t c', l.nextToken c = .ok (t, c') ∧ t.shape = shape ∧ c'.ahead = rest := by
  cases p with
  | space => cases hs
  | mark m =>
    cases hs
    exact nextToken_mark ha
  | word s =>
    cases hs
    rcases hp with ⟨hname, hr⟩ | ⟨hsymbol, hr⟩
    · rw [hname]
      exact nextToken_name hname hr ha
    · rw [isName_of_isSymbol hsymbol]
      exact nextToken_symbol hsymbol hr ha
  | digits n =>
    cases hs
    exact nextToken_digits hp.1 hp.2 ha
  | quote s =>
    cases hs
    exact nextToken_quote ha

theorem Piece.shape_ne_finish {p : Piece} {shape : TokenKind × Term} (hs : p.shape? = some shape) :
    shape.1 ≠ .finish := by
  cases p <;> cases hs <;> simp
  split <;> simp

theorem scan_eq (c : Cursor) : l.scan c =
    match l.nextToken c with
    | .error stop => ⟨[], stop.cursor, some stop.failure⟩
    | .ok (t, c') =>
      if t.kind = .finish then ⟨[t], c', none⟩
      else { l.scan c' with tokens := t :: (l.scan c').tokens } := by
  rw [scan]
  split
  · rename_i hn
    rw [hn]
  · rename_i hn
    rw [hn]
    simp only
    split <;> rfl

theorem scan_of_token {t : Token} {c' : Cursor} (h : l.nextToken c = .ok (t, c'))
    (ht : t.kind ≠ .finish) :
    l.scan c = { l.scan c' with tokens := t :: (l.scan c').tokens } := by
  rw [scan_eq, h]
  simp only [if_neg ht]

theorem scan_congr {c' : Cursor} (h : l.nextToken c = l.nextToken c') : l.scan c = l.scan c' := by
  rw [scan_eq, scan_eq c', h]

theorem scan_of_end (ha : c.ahead = []) : l.scan c = ⟨[.ofEnd c.pos], c, none⟩ := by
  rw [scan_eq, nextToken, skipBlank_of_end ha]
  simp [tokenHere, ha, Token.ofEnd]

/-- **The pieces are the tokens of their text**, and the end comes behind them. -/
theorem scan_of_standing {ps : List Piece} (h : Standing l.known ps) (ha : c.ahead = layout ps) :
    (l.scan c).failure = none ∧
      (l.scan c).tokens.map Token.shape = ps.filterMap Piece.shape? ++ [(.finish, .nothing)] := by
  induction ps generalizing c with
  | nil =>
    rw [scan_of_end ha]
    exact ⟨rfl, rfl⟩
  | cons p ps ih =>
    obtain ⟨hp, hps⟩ := h
    cases hs : p.shape? with
    | none =>
      -- only a space is no token
      obtain rfl : p = .space := by cases p <;> first | rfl | cases hs
      rw [scan_congr (nextToken_of_blank ha rfl), List.filterMap_cons_none hs]
      exact ih hps (by simp [ha, Piece.chars])
    | some shape =>
      obtain ⟨t, c', hn, ht, hrest⟩ := nextToken_piece hs hp ha
      obtain ⟨hfail, htokens⟩ := ih hps hrest
      have hkind : t.kind ≠ .finish := by
        rw [← show t.shape.1 = t.kind from rfl, ht]
        exact Piece.shape_ne_finish hs
      rw [scan_of_token hn hkind]
      refine ⟨hfail, ?_⟩
      rw [List.map_cons, htokens, ht, List.filterMap_cons_some hs]
      rfl

theorem tokens_of_standing {ps : List Piece} (h : Standing l.known ps) :
    ∃ ts, l.tokens (String.ofList (layout ps)) = .ok ts ∧
      ts.map Token.shape = ps.filterMap Piece.shape? ++ [(.finish, .nothing)] := by
  obtain ⟨hfail, htokens⟩ := scan_of_standing (c := .start (String.ofList (layout ps)) 1) h
    (by simp [Cursor.start])
  refine ⟨_, ?_, htokens⟩
  rw [tokens, tokensFrom, hfail]

/-- **Printed text has the tokens that it was put together from.** -/
theorem tokens_of_written {r : Registry} (hr : r.Regular) (hs : r.Separates) (file : String)
    {t : Term} {ps : List Piece} (h : Written r loosest t ps) :
    ∃ ts, (Lexer.mk file r.operatorNames).tokens (String.ofList (layout ps)) = .ok ts ∧
      ts.map Token.shape = ps.filterMap Piece.shape? ++ [(.finish, .nothing)] :=
  tokens_of_standing (by simpa using h.standing hr hs [] trivial rfl)

end Lexer

/-! ### The core table -/

namespace CoreTable

/-- Of two exclamation marks only the first is taken. -/
theorem symbolLength_bangs (more : List Char) :
    symbolLength coreRegistry.operatorNames ('!' :: '!' :: more) = 1 := by
  have hone : "!".length = 1 := rfl
  have hlong : longestKnown coreRegistry.operatorNames ('!' :: '!' :: more) = some 1 := by
    rw [CoreTable.operatorNames_eq]
    simp [longestKnown, startsRun, List.isPrefixOf_cons_cons, hone]
  have hunknown : String.ofList ('!' :: '!' :: more) ∉ coreRegistry.operatorNames := by
    have hall : ∀ s ∈ coreRegistry.operatorNames, s.toList.take 2 ≠ ['!', '!'] := by
      rw [CoreTable.operatorNames_eq]
      decide
    exact fun hmem => hall _ hmem (by rw [String.toList_ofList]; rfl)
  have hsome : coreRegistry.operatorNames.isEmpty = false := by
    rw [CoreTable.operatorNames_eq]
    rfl
  have hneither : ¬(coreRegistry.operatorNames.isEmpty ||
      coreRegistry.operatorNames.contains (String.ofList ('!' :: '!' :: more))) = true := by
    rwa [hsome, Bool.false_or, List.contains_iff_mem]
  rw [symbolLength, hlong, if_neg hneither]
  rfl

theorem separates : coreRegistry.Separates where
  prefixed op hm hf hname := by
    rcases name_of_prefixed hm hf with hminus | ⟨hnot, -⟩
    · rw [hminus] at hname
      exact absurd hname (by decide)
    · rw [hnot]
      decide
  postfixed op hm hf := by
    have hname := name_of_postfixed hm hf
    have hsymbol := isSymbol_of_mem hm (by rw [hname]; decide)
    rw [hname] at hsymbol ⊢
    refine ⟨rfl, fun next hclose => .inr ⟨hsymbol, ?_⟩⟩
    exact hclose.spec.2.2.imp_right fun hnext =>
      ⟨'!', hnext, fun more => ⟨symbolLength_bangs more, startsComment_of_ne (by decide)⟩⟩

end CoreTable

end TermCalc
