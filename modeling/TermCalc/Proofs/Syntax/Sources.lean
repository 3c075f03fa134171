import TermCalc.Proofs.Syntax.Grammar
import TermCalc.Proofs.Syntax.Lexing

/-!
# What is read from a source

Every token of a text is spelled as its kind asks, so every expression that the parser builds from
such tokens can be written again.

* `Token.Sound`: the tokens that a text can have.
* `Lexer.sound_of_tokens`: **every token of a text is one of them**, and the text has an end.
* `Parser.writable_of_reads`: **what is read from such tokens can be written**, if all its numbers
  are integers.
-/

namespace TermCalc

/-- **The tokens that a text can have**, where some spellings are known. -/
def Token.Sound (known : List String) (t : Token) : Prop :=
  match t.kind with
  | .number => ∃ x, t.value = .num x ∧ ∀ z, x = .int z → ∃ n : Nat, z = n ∧ n < Num.digitBound
  | .string => ∃ s, t.value = .str s
  | .atom => ∃ s, t.value = .str s ∧ isName s = true
  | .operator => ∃ s, t.value = .str s ∧ isSymbol known s = true
  | .mark _ | .finish => True

/-! ### Symbols -/

theorem symbolLength_of_known {known : List String} {run : List Char}
    (h : String.ofList run ∈ known) : symbolLength known run = run.length := by
  have hknown : (known.isEmpty || known.contains (String.ofList run)) = true := by simp [h]
  rw [symbolLength, if_pos hknown]

/-- **Whether a text can be the spelling of an operator**: a name, or operator characters that start
no comment. -/
def isSpelling (s : String) : Bool :=
  isName s || (!s.toList.isEmpty && s.toList.all isOperatorChar && !startsComment s.toList)

theorem spelled_of_known {known : List String} {s : String} (hs : isSpelling s = true)
    (hknown : s ∈ known) : (isName s || isSymbol known s) = true := by
  have hlength : symbolLength known s.toList = s.toList.length :=
    symbolLength_of_known (by rwa [String.ofList_toList])
  rw [isSymbol, hlength]
  simpa [isSpelling] using hs

/-- All of a run is taken, or a known part of it. -/
theorem symbolLength_cases (known : List String) (run : List Char) :
    symbolLength known run = run.length ∨ symbolLength known run ≤ run.length ∧
      String.ofList (run.take (symbolLength known run)) ∈ known := by
  by_cases hknown : (known.isEmpty || known.contains (String.ofList run)) = true
  · exact .inl (by rw [symbolLength, if_pos hknown])
  · have hlength : symbolLength known run = (longestKnown known run).getD run.length := by
      rw [symbolLength, if_neg hknown]
    cases hlong : longestKnown known run with
    | none => exact .inl (by rw [hlength, hlong]; rfl)
    | some k =>
      have hmem := List.max?_mem hlong
      simp only [List.mem_map, List.mem_filter, startsRun, Bool.and_eq_true, decide_eq_true_eq]
        at hmem
      obtain ⟨s, ⟨hs, ⟨hpre, -⟩, hlt⟩, rfl⟩ := hmem
      have htake : run.take s.length = s.toList := by
        rw [← String.length_toList]
        exact (List.prefix_iff_eq_take.1 (List.isPrefixOf_iff_prefix.1 hpre)).symm
      rw [hlength, hlong, Option.getD_some, htake, String.ofList_toList]
      exact .inr ⟨Nat.le_of_lt hlt, hs⟩

/-- What is taken of a run is taken again where it stands alone. -/
theorem symbolLength_take (known : List String) (run : List Char) :
    symbolLength known (run.take (symbolLength known run)) =
      (run.take (symbolLength known run)).length := by
  -- a known spelling is taken as a whole, and so is a run that was
  rcases symbolLength_cases known run with h | ⟨-, h⟩
  · rw [h, List.take_length, h]
  · exact symbolLength_of_known h

theorem startsComment_take {cs : List Char} (h : startsComment cs = false) (n : Nat) :
    startsComment (cs.take n) = false := by
  match cs, n with
  | [], _ => simpa using h
  | _ :: _, 0 => rfl
  | [_], _ + 1 => simpa using h
  | _ :: _ :: _, 1 => simp [startsComment]
  | a :: b :: cs, n + 2 =>
    simp only [List.take_succ_cons]
    unfold startsComment at h ⊢
    split at h <;> simp_all

theorem startsComment_takeWhile {cs : List Char} {p : Char → Bool}
    (h : startsComment cs = false) : startsComment (cs.takeWhile p) = false := by
  have htake : cs.takeWhile p = cs.take (cs.takeWhile p).length :=
    List.prefix_iff_eq_take.1 (List.takeWhile_prefix p)
  rw [htake]
  exact startsComment_take h _

theorem ofDigitChars_lt_pow {ds : List Char} (hd : ∀ d ∈ ds, isDigit d = true) (n : Nat) :
    Nat.ofDigitChars 10 ds n < Nat.pow 10 ds.length * (n + 1) := by
  induction ds generalizing n with
  | nil => simp
  | cons d ds ih =>
    obtain ⟨-, hhigh⟩ := toNat_of_isDigit (hd d (by simp))
    have hzero : '0'.toNat = 48 := rfl
    rw [Nat.ofDigitChars_cons, List.length_cons, Nat.pow_eq, Nat.pow_succ, Nat.mul_assoc]
    refine Nat.lt_of_lt_of_le (ih (fun x hx => hd x (by simp [hx])) _) ?_
    rw [Nat.pow_eq]
    exact Nat.mul_le_mul_left _ (by omega)

theorem ofDigitChars_lt {ds : List Char} (hd : ∀ d ∈ ds, isDigit d = true)
    (hlen : ds.length ≤ Num.maxDigits) : Nat.ofDigitChars 10 ds 0 < Num.digitBound := by
  have hlt := ofDigitChars_lt_pow hd 0
  unfold Num.digitBound
  generalize Num.maxDigits = k at hlen ⊢
  rw [Nat.pow_eq] at hlt ⊢
  exact Nat.lt_of_lt_of_le (by omega) (Nat.pow_le_pow_right (by decide) hlen)

namespace Lexer

variable {l : Lexer} {c c' : Cursor} {t : Token}

theorem startsComment_of_skipBlank (h : l.skipBlank c = .ok ((), c')) :
    startsComment c'.ahead = false := by
  fun_induction skipBlank l c with
  | case1 c ha =>
    cases h
    rw [ha]
    rfl
  | case2 c ch rest ha hb ih => exact ih h
  | case3 c ch rest ha hb hc c₁ hs ih => exact ih h
  | case4 => cases h
  | case5 c ch rest ha hb hc =>
    cases h
    rw [ha]
    exact Bool.not_eq_true _ ▸ hc

theorem sound_of_readOperator {ch : Char} {rest : List Char} (ha : c.ahead = ch :: rest)
    (hch : isOperatorChar ch = true) (hc : startsComment c.ahead = false) :
    isSymbol l.known (l.readOperator c).1 = true := by
  have hpos : 0 < symbolLength l.known (c.ahead.takeWhile isOperatorChar) :=
    symbolLength_pos _ (by simp [ha, hch])
  have hall : ∀ x ∈ c.ahead.takeWhile isOperatorChar, isOperatorChar x = true :=
    List.all_eq_true.1 List.all_takeWhile
  have hcomment : startsComment (c.ahead.takeWhile isOperatorChar) = false :=
    startsComment_takeWhile hc
  have htake := symbolLength_take l.known (c.ahead.takeWhile isOperatorChar)
  have hrun : 0 < (c.ahead.takeWhile isOperatorChar).length := by simp [ha, hch]
  rw [readOperator]
  dsimp only
  generalize c.ahead.takeWhile isOperatorChar = run at *
  generalize symbolLength l.known run = n at *
  rw [isSymbol, String.toList_ofList, htake, startsComment_take hcomment n]
  have hne : (run.take n).isEmpty = false := by
    cases run with
    | nil => simp at hrun
    | cons => cases n <;> simp_all
  have hop : (run.take n).all isOperatorChar = true :=
    List.all_eq_true.2 fun x hx => hall x (List.mem_of_mem_take hx)
  simp [hne, hop]

/-- An integer that is read has no sign and few enough digits. -/
theorem sound_of_numberOf {cs : List Char} {z : Int}
    (h : numberOf (NumberLiteral.scan cs) = .ok (.int z)) :
    ∃ k : Nat, z = k ∧ k < Num.digitBound := by
  unfold numberOf at h
  split at h
  · split at h
    · cases h
    · split at h
      · cases h
      · rename_i hlen
        cases h
        have hdigits : ∀ d ∈ (NumberLiteral.scan cs).whole, isDigit d = true :=
          List.all_eq_true.1 List.all_takeWhile
        exact ⟨_, rfl, ofDigitChars_lt hdigits (by omega)⟩
  · split at h <;> cases h

theorem sound_of_readNumber {n : Num} (h : readNumber c = .ok (n, c')) {z : Int} (hn : n = .int z) :
    ∃ k : Nat, z = k ∧ k < Num.digitBound := by
  subst hn
  unfold readNumber at h
  dsimp only at h
  split at h
  · rename_i n hnum
    cases h
    exact sound_of_numberOf hnum
  · cases h

theorem sound_of_tokenHere (h : l.tokenHere c = .ok (t, c'))
    (hc : startsComment c.ahead = false) : t.Sound l.known := by
  unfold tokenHere at h
  split at h
  · -- the end of the text
    cases h
    trivial
  · rename_i ch rest ha
    split at h
    · -- a mark
      cases h
      trivial
    · split at h
      · -- a string, if it ends
        split at h
        · cases h
          exact ⟨_, rfl⟩
        · cases h
      · split at h
        · -- a number, if it can be converted
          split at h
          · rename_i hread
            cases h
            exact ⟨_, rfl, fun z hz => sound_of_readNumber hread hz⟩
          · cases h
        · split at h
          · -- a name
            rename_i hstart
            cases h
            refine ⟨_, rfl, ?_⟩
            have hrun : c.ahead.takeWhile isNameChar = ch :: rest.takeWhile isNameChar := by
              rw [ha, List.takeWhile_cons_of_pos (isNameChar_of_isNameStart hstart)]
            simp [isName, hrun, hstart, List.all_takeWhile]
          · split at h
            · -- a symbol
              rename_i hop
              cases h
              exact ⟨_, rfl, sound_of_readOperator ha hop hc⟩
            · cases h

theorem sound_of_nextToken (h : l.nextToken c = .ok (t, c')) : t.Sound l.known := by
  unfold nextToken at h
  split at h
  · rename_i c₁ hskip
    exact sound_of_tokenHere h (startsComment_of_skipBlank hskip)
  · cases h

/-- All tokens are sound, and without a failure there is an end among them. -/
theorem sound_of_scan (c : Cursor) : (∀ t ∈ (l.scan c).tokens, t.Sound l.known) ∧
    ((l.scan c).failure = none → ∃ t ∈ (l.scan c).tokens, t.kind = .finish) := by
  -- every token but the end leaves less of the text ahead
  induction hn : c.ahead.length using Nat.strongRecOn generalizing c with
  | ind n ih =>
    rw [scan_eq]
    split
    · simp
    · rename_i t c' hnext
      have ht := sound_of_nextToken hnext
      split
      · rename_i hfinish
        simpa using ⟨ht, hfinish⟩
      · rename_i hfinish
        have hshorter := nextToken_shorter l hnext hfinish
        obtain ⟨hall, hend⟩ := ih c'.ahead.length (by omega) c' rfl
        refine ⟨?_, fun hfail => ?_⟩
        · simpa using ⟨ht, hall⟩
        · obtain ⟨u, hu, hk⟩ := hend hfail
          exact ⟨u, List.mem_cons_of_mem _ hu, hk⟩

/-- **Every token of a text is sound**, and one of them is the end. -/
theorem sound_of_tokens {source : String} {ts : List Token} (h : l.tokens source = .ok ts) :
    (∀ t ∈ ts, t.Sound l.known) ∧ ∃ t ∈ ts, t.kind = .finish := by
  unfold tokens tokensFrom at h
  dsimp only at h
  split at h
  · rename_i hfail
    cases h
    obtain ⟨hall, hend⟩ := sound_of_scan (l := l) (.start source 1)
    exact ⟨hall, hend hfail⟩
  · cases h

end Lexer

/-! ### Trees -/

/-- Whether the number of a token, if it has one, is an integer. -/
def Token.Integral (t : Token) : Prop := ∀ x, t.value = .num x → ∃ z, x = .int z

/-- The tokens of a text whose numbers are integers. -/
def Readable (known : List String) (ts : List Token) : Prop :=
  ∀ t ∈ ts, t.Sound known ∧ t.Integral

theorem readable_cons {known : List String} {t : Token} {ts : List Token}
    (h : Readable known (t :: ts)) : (t.Sound known ∧ t.Integral) ∧ Readable known ts :=
  ⟨h t (by simp), fun u hu => h u (by simp [hu])⟩

/-- What is known of an operand before its operators are read. -/
def Phrase.Given (r : Registry) : Phrase → Prop
  | .operators lhs _ => Writable r lhs.term
  | _ => True

variable {r : Registry} {file : String}

theorem mem_terms {e : Term} {us : List Tree} (h : e ∈ Tree.terms us) : ∃ u ∈ us, u.term = e := by
  induction us with
  | nil => cases h
  | cons u us ih =>
    rw [Tree.terms, List.mem_cons] at h
    rcases h with rfl | h
    · exact ⟨u, by simp, rfl⟩
    · obtain ⟨v, hv, rfl⟩ := ih h
      exact ⟨v, by simp [hv], rfl⟩

theorem Token.Sound.names {known : List String} {t : Token} (ht : t.Sound known)
    (hk : t.kind = .atom ∨ t.kind = .operator) :
    ∃ s, t.Names s ∧ (isName s || isSymbol known s) = true := by
  unfold Token.Sound at ht
  rcases hk with hk | hk <;> rw [hk] at ht <;> obtain ⟨s, hv, hs⟩ := ht
  · exact ⟨s, ⟨by rw [hk, if_pos hs], hv⟩, by rw [hs, Bool.true_or]⟩
  · exact ⟨s, ⟨by rw [hk, isName_of_isSymbol hs]; rfl, hv⟩, by rw [hs, Bool.or_true]⟩

/-- The form of a name or symbol can be written, if that of a bodied operator has a body. -/
theorem writable_form {t : Token} {args : List Tree} (ht : t.Sound r.operatorNames)
    (hk : t.kind = .atom ∨ t.kind = .operator)
    (hbodied : ∀ s, t.Names s → r.operator? .bodied s ≠ none → args ≠ [])
    (hargs : ∀ a ∈ args, Writable r a.term) : Writable r (Tree.form t args).term := by
  obtain ⟨s, hname, hs⟩ := ht.names hk
  rw [Tree.term, hname.operatorName_eq]
  refine .form hs ?_ ?_
  · intro hop hnil
    cases args with
    | nil => exact hbodied s hname hop rfl
    | cons a args => simp [Tree.terms] at hnil
  · intro e he
    obtain ⟨u, hu, rfl⟩ := mem_terms he
    exact hargs u hu

/-- The form of a name in the source, by a token that stands for brackets. -/
theorem writable_bracketed (hb : r.NamesBodied) {t : Token} {args : List Tree}
    (hk : t.kind = .mark .openBrace ∨ t.kind = .mark .openBracket)
    (hargs : ∀ a ∈ args, Writable r a.term) : Writable r (Tree.form t args).term := by
  have hname : t.operatorName = "List" ∨ t.operatorName = "Prog" := by
    rcases hk with hk | hk <;> simp [Token.operatorName, Token.head, hk]
  refine .form (Bool.or_eq_true_iff.2 (.inl ?_))
    (fun hop => absurd (hb.operator? (.inr hname)) hop) fun e he => ?_
  · rcases hname with hname | hname <;> rw [hname] <;> decide
  · obtain ⟨u, hu, rfl⟩ := mem_terms he
    exact hargs u hu

theorem writable_literal {t : Token} (ht : t.Sound r.operatorNames) (hi : t.Integral)
    (hk : t.kind = .number ∨ t.kind = .string) : Writable r (Tree.leaf t).term := by
  unfold Token.Sound at ht
  rcases hk with hk | hk
  · simp only [hk] at ht
    obtain ⟨x, hv, hx⟩ := ht
    obtain ⟨z, rfl⟩ := hi x hv
    obtain ⟨n, rfl, hn⟩ := hx z rfl
    rw [Tree.term, Token.term, hk, hv]
    exact .numeral hn
  · simp only [hk] at ht
    obtain ⟨s, hv⟩ := ht
    rw [Tree.term, Token.term, hk, hv]
    exact .text

theorem writable_name {t : Token} (ht : t.Sound r.operatorNames) (hk : t.kind = .atom)
    (hop : (Parser.mk r file).operatorAt? .prefixed t = none) : Writable r (Tree.leaf t).term := by
  obtain ⟨s, hname, -⟩ := ht.names (.inl hk)
  rw [Parser.operatorAt?_of_spelling hname.spelling?_eq] at hop
  have hs : isName s = true := by
    by_contra hs
    rw [hname.kind_of_not_isName (Bool.eq_false_iff.2 hs)] at hk
    cases hk
  rw [Tree.term, Token.term, hk, hname.value]
  exact .atom hs hop

/-- A symbol is no name. -/
theorem Token.Names.isName_of_kind {t : Token} {s : String} (h : t.Names s)
    (hk : t.kind = .operator) : isName s = false := by
  by_contra hs
  rw [h.kind_of_isName (by simpa using hs)] at hk
  cases hk

/-- **What is read from the tokens of a text can be written again**, if all its numbers are
integers. -/
theorem Parser.writable_of_reads (hb : r.NamesBodied) {f : Phrase} {ts rest : List Token}
    {xs : List Tree} (h : Reads ⟨r, file⟩ f ts xs rest) : Readable r.operatorNames ts → f.Given r →
      (∀ x ∈ xs, Writable r x.term) ∧ Readable r.operatorNames rest := by
  induction h with
  | expression _ _ ih₁ ih₂ =>
    intro hts _
    obtain ⟨hl, hmid⟩ := ih₁ hts trivial
    exact ih₂ hmid (hl _ (by simp))
  | stop => exact fun hts hl => ⟨by simpa [Phrase.Given] using hl, hts⟩
  | infixed _ hop _ _ _ _ ih₁ ih₂ =>
    intro hts hl
    obtain ⟨⟨ht, -⟩, hts⟩ := readable_cons hts
    obtain ⟨hr, hmid⟩ := ih₁ hts trivial
    obtain ⟨_, hop⟩ := operatorAt?_of_following? hop
    refine ih₂ hmid (writable_form ht (kind_of_operatorAt? hop) (fun _ _ _ => by simp) ?_)
    simpa using ⟨hl, hr _ (by simp)⟩
  | postfixed _ hop _ _ _ ih =>
    intro hts hl
    obtain ⟨⟨ht, -⟩, hts⟩ := readable_cons hts
    obtain ⟨_, hop⟩ := operatorAt?_of_following? hop
    refine ih hts (writable_form ht (kind_of_operatorAt? hop) (fun _ _ _ => by simp) ?_)
    simpa [Phrase.Given] using hl
  | symbolPrefix _ hk _ _ _ _ _ ih₁ ih₂ =>
    intro hts _
    obtain ⟨⟨ht, -⟩, hts⟩ := readable_cons hts
    obtain ⟨hl, hmid⟩ := ih₁ (readable_cons hts).2 trivial
    obtain ⟨hx, hrest⟩ := ih₂ hmid (hl _ (by simp))
    have hform := writable_form ht (.inr hk) (fun _ _ _ => by simp) hx
    exact ⟨by simpa using hform, hrest⟩
  | symbolCall _ hk _ _ _ ih =>
    intro hts _
    obtain ⟨⟨ht, -⟩, hts⟩ := readable_cons hts
    obtain ⟨hl, hrest⟩ := ih (readable_cons hts).2 trivial
    have hform := writable_form ht (.inr hk)
      (fun s hs hbodied => absurd (hb.operator? (.inl (hs.isName_of_kind hk))) hbodied) hl
    exact ⟨by simpa using hform, hrest⟩
  | prefixed _ hop _ _ _ ih =>
    intro hts _
    obtain ⟨⟨ht, -⟩, hts⟩ := readable_cons hts
    obtain ⟨hx, hrest⟩ := ih hts trivial
    have hform := writable_form ht (kind_of_operatorAt? hop) (fun _ _ _ => by simp) hx
    exact ⟨by simpa using hform, hrest⟩
  | literal hk =>
    intro hts _
    obtain ⟨⟨ht, hi⟩, hts⟩ := readable_cons hts
    exact ⟨by simpa using writable_literal ht hi hk, hts⟩
  | name _ hk hop _ =>
    intro hts _
    obtain ⟨⟨ht, -⟩, hts⟩ := readable_cons hts
    exact ⟨by simpa using writable_name ht hk hop, hts⟩
  | call _ hk _ hop _ ih =>
    intro hts _
    obtain ⟨⟨ht, -⟩, hts⟩ := readable_cons hts
    obtain ⟨hl, hrest⟩ := ih (readable_cons hts).2 trivial
    have hform := writable_form ht (.inl hk) (fun s hs hbodied => by
      rw [operatorAt?_of_spelling hs.spelling?_eq] at hop
      exact absurd hop hbodied) hl
    exact ⟨by simpa using hform, hrest⟩
  | bodied _ hk _ _ _ _ _ ih₁ ih₂ =>
    intro hts _
    obtain ⟨⟨ht, -⟩, hts⟩ := readable_cons hts
    obtain ⟨hl, hmid⟩ := ih₁ (readable_cons hts).2 trivial
    obtain ⟨hb, hrest⟩ := ih₂ hmid trivial
    have hform := writable_form ht (.inl hk) (fun _ _ _ => by simp)
      (List.forall_mem_append.2 ⟨hl, hb⟩)
    exact ⟨by simpa using hform, hrest⟩
  | parens _ _ _ ih =>
    intro hts _
    obtain ⟨hx, hrest⟩ := ih (readable_cons hts).2 trivial
    exact ⟨hx, (readable_cons hrest).2⟩
  | braces hk _ ih =>
    intro hts _
    obtain ⟨hl, hrest⟩ := ih (readable_cons hts).2 trivial
    exact ⟨by simpa using writable_bracketed hb (.inl hk) hl, hrest⟩
  | brackets hk _ ih =>
    intro hts _
    obtain ⟨hl, hrest⟩ := ih (readable_cons hts).2 trivial
    exact ⟨by simpa using writable_bracketed hb (.inr hk) hl, hrest⟩
  | noArguments => exact fun hts _ => ⟨by simp, (readable_cons hts).2⟩
  | someArguments _ _ ih => exact ih
  | lastItem _ _ _ ih =>
    intro hts _
    obtain ⟨hx, hrest⟩ := ih hts trivial
    exact ⟨hx, (readable_cons hrest).2⟩
  | item _ _ _ ih₁ ih₂ =>
    intro hts _
    obtain ⟨hx, hmid⟩ := ih₁ hts trivial
    obtain ⟨hmore, hrest⟩ := ih₂ (readable_cons hmid).2 trivial
    exact ⟨by simpa using ⟨hx _ (by simp), hmore⟩, hrest⟩
  | endBlock => exact fun hts _ => ⟨by simp, (readable_cons hts).2⟩
  | skipInBlock _ _ ih => exact fun hts _ => ih (readable_cons hts).2 trivial
  | blockStatement _ _ _ _ _ _ ih₁ ih₂ =>
    intro hts _
    obtain ⟨hx, hmid⟩ := ih₁ hts trivial
    obtain ⟨hmore, hrest⟩ := ih₂ hmid trivial
    exact ⟨by simpa using ⟨hx _ (by simp), hmore⟩, hrest⟩
  | finish => exact fun hts _ => ⟨by simp, hts⟩
  | skip _ _ ih => exact fun hts _ => ih (readable_cons hts).2 trivial
  | statement _ _ _ _ _ ih₁ ih₂ =>
    intro hts _
    obtain ⟨hx, hmid⟩ := ih₁ hts trivial
    obtain ⟨hmore, hrest⟩ := ih₂ hmid trivial
    exact ⟨by simpa using ⟨hx _ (by simp), hmore⟩, hrest⟩

/-- Printed numbers are integers. -/
theorem integral_of_shapes {ps : List Piece} {ts : List Token}
    (h : ts.map Token.shape = ps.filterMap Piece.shape? ++ [(.finish, .nothing)]) :
    ∀ t ∈ ts, t.Integral := by
  intro t ht x hx
  have hv : t.shape.2 = .num x := hx
  have hmem := List.mem_map_of_mem (f := Token.shape) ht
  rw [h] at hmem
  generalize t.shape = shape at hv hmem
  rcases List.mem_append.1 hmem with hmem | hmem
  · obtain ⟨p, -, hp⟩ := List.mem_filterMap.1 hmem
    cases p <;> cases hp <;> cases hv
    exact ⟨_, rfl⟩
  · rw [List.mem_singleton.1 hmem] at hv
    cases hv

/-- **Every statement of a source whose numbers are integers can be written again.** -/
theorem writable_of_parse (hb : r.NamesBodied) {source : String} {ts : List Token}
    {terms : List Term} (htokens : (Lexer.mk file r.operatorNames).tokens source = .ok ts)
    (hintegral : ∀ t ∈ ts, t.Integral) (hparse : (Parser.mk r file).parse source = .ok terms) :
    ∀ t ∈ terms, Writable r t := by
  intro t ht
  obtain ⟨ts', htokens', hparse⟩ := bind_eq_ok_iff.1 hparse
  obtain rfl : ts = ts' := Except.ok.inj (htokens.symm.trans htokens')
  obtain ⟨trees, htrees, hterms⟩ := bind_eq_ok_iff.1 hparse
  cases hterms
  obtain ⟨hsound, finish, hfinish, hk⟩ := Lexer.sound_of_tokens htokens
  have hsupply : Parser.supply ts = ts :=
    if_pos (List.any_eq_true.2 ⟨finish, hfinish, by simp [hk]⟩)
  rw [Parser.parseTokens, hsupply] at htrees
  obtain ⟨rest, hread⟩ := Parser.statements_eq_ok_iff.1 htrees
  have hreadable : Readable r.operatorNames ts := fun t ht => ⟨hsound t ht, hintegral t ht⟩
  obtain ⟨u, hu, rfl⟩ := mem_terms ht
  exact (Parser.writable_of_reads hb hread hreadable trivial).1 u hu

theorem legible_of_parse {source : String} {ts : List Token} {terms : List Term}
    (htokens : (Lexer.mk file coreRegistry.operatorNames).tokens source = .ok ts)
    (hintegral : ∀ t ∈ ts, t.Integral)
    (hparse : (Parser.mk coreRegistry file).parse source = .ok terms) : ∀ t ∈ terms, Legible t :=
  fun t ht => legible_iff_writable.2
    (writable_of_parse CoreTable.namesBodied htokens hintegral hparse t ht)

/-- What the text of an expression is parsed as is legible. -/
theorem Written.legible_of_parse {t u : Term} {ps : List Piece}
    (h : Written coreRegistry loosest t ps)
    (hparse : (Parser.mk coreRegistry file).parse (String.ofList (layout ps)) = .ok [u]) :
    Legible u := by
  obtain ⟨ts, htokens, hshape⟩ :=
    Lexer.tokens_of_written CoreTable.regular CoreTable.separates file h
  exact TermCalc.legible_of_parse htokens (integral_of_shapes hshape) hparse u (by simp)

end TermCalc
