import TermCalc.Proofs.Syntax.Regrouping

/-!
# Printing and parsing again with tables of symbols

* `parse_textOf_regroup`: **every statement of a source without fractions has a text, which is
  parsed as one statement, the former regrouped**. That is the same statement just if no left operand
  of an infix operator is the form of a prefix operator of the same precedence.
* `exists_parse_textOf_grafted`: there is a table and a statement in which one is.
-/

namespace TermCalc

open TermCalc.Parser (Reads current)

/-! ### A sum with a negative summand -/

namespace Negation

/-- A sign and a sum of the same precedence. -/
def declarations : List Declaration :=
  [.function "builtin_minus" "-" 1 .atLeast (some 2), .function "builtin_add" "+" 2 .fixed none,
   .operator .prefixed 50 "-", .operator .infixed 50 "+"]

/-- The sign. -/
abbrev minus : Operator := ⟨.prefixed, 50, "-", 0⟩

/-- The operator of sums. -/
abbrev plus : Operator := ⟨.infixed, 50, "+", 1⟩

/-- The table that is built from them. -/
def table : Registry where
  entries :=
    [⟨"-", .primitive .minus, 1, .atLeast, some 2⟩, ⟨"+", .primitive .add, 2, .fixed, none⟩]
  operators := [minus, plus]
  frozen := true

theorem build_declarations : Registry.build declarations = .ok table := by rfl

theorem eq_of_mem {op : Operator} (h : op ∈ table.operators) : op = minus ∨ op = plus := by
  simpa [table] using h

theorem symbolic : table.Symbolic where
  fixities op h := by rcases eq_of_mem h with rfl | rfl <;> decide
  nonempty op h := by rcases eq_of_mem h with rfl | rfl <;> decide
  symbols op h := by rcases eq_of_mem h with rfl | rfl <;> exact List.all_eq_true.1 (by decide)
  noComment op h := by rcases eq_of_mem h with rfl | rfl <;> rfl
  named op h := by rcases eq_of_mem h with rfl | rfl <;> rfl
  bounds op h := by rcases eq_of_mem h with rfl | rfl <;> decide

/-- The pieces of the sum, the negation in parentheses. -/
def pieces : List Piece :=
  [.mark .openParen, .word "-", .word "a", .mark .closeParen, .space, .word "+", .space, .word "b"]

theorem layout_pieces : String.ofList (layout pieces) = "(-a) + b" := by rfl

theorem standing_pieces : Standing table.operatorNames pieces := by
  have hminus : isSymbol table.operatorNames "-" = true := by decide
  have hplus : isSymbol table.operatorNames "+" = true := by decide
  exact ⟨trivial, .inr ⟨hminus, .inl (by decide)⟩, .inl ⟨by decide, by decide⟩, trivial, trivial,
    .inr ⟨hplus, .inl (by decide)⟩, trivial, .inl ⟨by decide, by decide⟩, trivial⟩

/-- The sum, wherever its tokens stand. -/
def term (pa pb pm pp : Pos) : Term := .form "+" [.form "-" [.atom "a" pa] pm, .atom "b" pb] pp

variable {pa pb pm pp : Pos}

theorem operator?_minus : table.operator? .prefixed minus.name = some minus := by rfl

theorem operator?_plus : table.operator? .infixed plus.name = some plus := by rfl

/-- The sum is read as its source has it. -/
theorem exists_parse (file : String) : ∃ ts pa pb pm pp,
    (Lexer.mk file table.operatorNames).tokens "(-a) + b" = .ok ts ∧ (∀ t ∈ ts, t.Integral) ∧
      (Parser.mk table file).parse "(-a) + b" = .ok [term pa pb pm pp] := by
  obtain ⟨ts, htokens, hshape⟩ :=
    @Lexer.tokens_of_standing ⟨file, table.operatorNames⟩ _ standing_pieces
  rw [layout_pieces] at htokens
  have hintegral := integral_of_shapes hshape
  -- the tokens one by one
  have hshapes : pieces.filterMap Piece.shape? = [(.mark .openParen, .str "("),
      (.operator, .str "-"), (.atom, .str "a"), (.mark .closeParen, .str ")"),
      (.operator, .str "+"), (.atom, .str "b")] := by rfl
  rw [hshapes] at hshape
  simp only [List.cons_append, List.nil_append, List.map_eq_cons_iff, List.map_eq_nil_iff] at hshape
  obtain ⟨t₁, _, rfl, h₁, tm, _, rfl, hm, ta, _, rfl, ha, t₂, _, rfl, h₂, tp, _, rfl, hp,
    tb, _, rfl, hb, te, _, rfl, he, rfl⟩ := hshape
  have hm := names_of_shape hm rfl
  have ha := names_of_shape ha rfl
  have hp := names_of_shape hp rfl
  have hb := names_of_shape hb rfl
  have hk₁ : t₁.kind = .mark .openParen := congrArg Prod.fst h₁
  have hk₂ : t₂.kind = .mark .closeParen := congrArg Prod.fst h₂
  have hke : te.kind = .finish := congrArg Prod.fst he
  have hka := ha.kind_of_isName (by decide)
  have hkb := hb.kind_of_isName (by decide)
  have hends : t₂.Ends := Token.ends_of_mark hk₂ (by decide)
  have hfinish : te.Ends := .inl hke
  -- from the inside out: the negation, the sum
  have hminus : (Parser.mk table file).operatorAt? .prefixed tm = some minus :=
    (Parser.operatorAt?_of_spelling hm.spelling?_eq).trans operator?_minus
  have hnegation : Reads ⟨table, file⟩ (.expression loosest) (tm :: ta :: t₂ :: tp :: tb :: [te])
      [.form tm [.leaf ta]] (t₂ :: tp :: tb :: [te]) :=
    .expression (.prefixed hm.spelledByList_eq hminus (by simp [current, hka]) rfl
      (.expression (reads_atom ha (by decide) rfl (by simp [current, hk₂]))
        (.stop (hends.stops _ _))))
      (.stop (hends.stops _ _))
  have hsum : Reads ⟨table, file⟩ (.expression loosest)
      (t₁ :: tm :: ta :: t₂ :: tp :: tb :: [te])
      [.form tp [.form tm [.leaf ta], .leaf tb]] [te] :=
    .expression (.parens hk₁ hk₂ hnegation)
      (operators_infixed symbolic operator?_plus hp (by decide)
        (.expression (reads_atom hb (by decide) rfl (by simp [current, hke]))
          (.stop (hfinish.stops _ _)))
        (.stop (hfinish.stops _ _)))
  refine ⟨_, ta.pos, tb.pos, tm.pos, tp.pos, htokens, hintegral, ?_⟩
  have hparse : (Parser.mk table file).parse "(-a) + b" = .ok [_] :=
    @parse_of_reads ⟨table, file⟩ _ [t₁, tm, ta, t₂, tp, tb] _ _ htokens hke hsum
  rw [hparse]
  simp [Tree.term, Tree.terms, Token.term, term, hm.operatorName_eq, hp.operatorName_eq, hka, hkb,
    ha.value, hb.value]

/-- The printer writes no parentheses around the negation. -/
theorem textOf_term : table.textOf (term pa pb pm pp) = .ok "-a + b" := by
  have ha : Written table 50 (.atom "a" pa) [.word "a"] := .atom (by decide) (by decide) rfl
  have hb : Written table 49 (.atom "b" pb) [.word "b"] := .atom (by decide) (by decide) rfl
  have hnegation := @Written.prefixed table 50 minus _ _ pm rfl rfl (by decide) ha
  have hsum := @Written.infixed table loosest plus _ _ _ _ pp rfl rfl (by decide) hnegation hb
  exact (hsum.printAt symbolic.regular).textOf

theorem grafted_term : ¬Ungrafted table (term pa pb pm pp) := by
  intro h
  have hleft : true = false := (ungrafted_form.1 h).2 _ _ _ operator?_plus rfl
  cases hleft

end Negation

/-! ### Round trips -/

/-- What can be written has a text, which is parsed as the expression regrouped. -/
theorem Writable.reprint {r : Registry} (hr : r.Symbolic) {t : Term} (h : Writable r t)
    (file : String) : ∃ text u, r.textOf t = .ok text ∧ (Parser.mk r file).parse text = .ok [u] ∧
      u.sameStructure (r.regroup t) = true ∧ (u.sameStructure t = true ↔ Ungrafted r t) := by
  obtain ⟨ps, hps⟩ := h.written hr.regular loosest
  obtain ⟨u, hu, hsame⟩ := (hps.regroups hr file).readAs.parse_layout hr.regular hr.separates hps
  refine ⟨_, u.term, (hps.printAt hr.regular).textOf, hu, hsame, ?_⟩
  rw [Term.sameStructure_congr hsame, sameStructure_regroup_iff h]

/-- **Printing and parsing again regroups.** Every statement of a source all of whose numbers are
integers has a text, which is parsed as one statement, the former regrouped; that is the same one
just if there is nothing to graft. -/
theorem parse_textOf_regroup {r : Registry} (hr : r.Symbolic) (file : String) {source : String}
    {ts : List Token} {terms : List Term}
    (htokens : (Lexer.mk file r.operatorNames).tokens source = .ok ts)
    (hintegral : ∀ t ∈ ts, t.Integral) (hparse : (Parser.mk r file).parse source = .ok terms) :
    ∀ t ∈ terms, ∃ text u, r.textOf t = .ok text ∧ (Parser.mk r file).parse text = .ok [u] ∧
      u.sameStructure (r.regroup t) = true ∧ (u.sameStructure t = true ↔ Ungrafted r t) :=
  fun t ht => (writable_of_parse hr.namesBodied htokens hintegral hparse t ht).reprint hr file

theorem parse_textOf_regroup_negation : Negation.table.Symbolic ∧ ∃ ts t text u,
    (Lexer.mk "" Negation.table.operatorNames).tokens "(-a) + b" = .ok ts ∧
      (∀ t ∈ ts, t.Integral) ∧ (Parser.mk Negation.table "").parse "(-a) + b" = .ok [t] ∧
      Negation.table.textOf t = .ok text ∧ (Parser.mk Negation.table "").parse text = .ok [u] ∧
      u.sameStructure (Negation.table.regroup t) = true ∧
      (u.sameStructure t = true ↔ Ungrafted Negation.table t) := by
  obtain ⟨ts, pa, pb, pm, pp, htokens, hintegral, hparse⟩ := Negation.exists_parse ""
  obtain ⟨text, u, htext, hu, hsame, hiff⟩ := parse_textOf_regroup Negation.symbolic "" htokens
    hintegral hparse _ (List.mem_singleton_self _)
  exact ⟨Negation.symbolic, ts, _, text, u, htokens, hintegral, hparse, htext, hu, hsame, hiff⟩

/-- A sum with a negation in parentheses: its text is parsed as the negation of a sum. -/
theorem exists_parse_textOf_grafted :
    Registry.build Negation.declarations = .ok Negation.table ∧ Negation.table.Symbolic ∧
      ∃ ts t u, (Lexer.mk "" Negation.table.operatorNames).tokens "(-a) + b" = .ok ts ∧
        (∀ t ∈ ts, t.Integral) ∧ (Parser.mk Negation.table "").parse "(-a) + b" = .ok [t] ∧
        Negation.table.textOf t = .ok "-a + b" ∧
        (Parser.mk Negation.table "").parse "-a + b" = .ok [u] ∧ u.sameStructure t = false := by
  obtain ⟨ts, pa, pb, pm, pp, htokens, hintegral, hparse⟩ := Negation.exists_parse ""
  have hwritable := writable_of_parse Negation.symbolic.namesBodied htokens hintegral hparse
    (Negation.term pa pb pm pp) (List.mem_singleton_self _)
  obtain ⟨text, u, htext, hu, -, hsame⟩ := hwritable.reprint Negation.symbolic ""
  obtain rfl : text = "-a + b" := Except.ok.inj (htext.symm.trans Negation.textOf_term)
  refine ⟨Negation.build_declarations, Negation.symbolic, ts, _, u, htokens, hintegral, hparse,
    htext, hu, ?_⟩
  rw [← Bool.not_eq_true, hsame]
  exact Negation.grafted_term

end TermCalc
