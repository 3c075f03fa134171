import TermCalc.Proofs.Syntax.Rereading
import TermCalc.Proofs.Syntax.Sources

/-!
# Printing and parsing again

* `parse_textOf_of_uncaptured`: **the text of a built expression is parsed as that expression**, if
  its parts can be written and every `Not` keeps its operand.
* `parse_textOf_iff`: the same of every statement of a source without fractions, where the parts can
  be written anyway: **printing and parsing again gives the statement just if every `Not` in it
  keeps its operand**.
* `exists_parse_textOf_captured`: there is a statement in which one does not.
-/

namespace TermCalc

open TermCalc.Parser (Reads current)

variable {file : String}

attribute [local irreducible] coreRegistry

/-! ### A square and its negation -/

namespace Square

/-- The pieces of a call of `Not` for a square. -/
def pieces : List Piece :=
  [.word "Not", .mark .openParen, .mark .openParen, .word "a", .space, .word "-", .space, .word "b",
   .mark .closeParen, .space, .word "^", .space, .digits 2, .mark .closeParen]

theorem standing_pieces : Standing coreRegistry.operatorNames pieces := by
  have hminus : isSymbol coreRegistry.operatorNames "-" = true := by
    rw [CoreTable.operatorNames_eq]; decide
  have hpower : isSymbol coreRegistry.operatorNames "^" = true := by
    rw [CoreTable.operatorNames_eq]; decide
  refine ⟨.inl ⟨by decide, by decide⟩, trivial, trivial, .inl ⟨by decide, by decide⟩, trivial,
    .inr ⟨hminus, .inl (by decide)⟩, trivial, .inl ⟨by decide, by decide⟩, trivial, trivial,
    .inr ⟨hpower, .inl (by decide)⟩, trivial, ⟨Num.lt_digitBound (by decide), by decide⟩, trivial,
    trivial⟩

theorem layout_pieces : String.ofList (layout pieces) = "Not((a - b) ^ 2)" := by rfl

/-- The square, and what is called for it, wherever their tokens stand. -/
def term (pa pb pm p2 ph : Pos) : Term :=
  .form "^" [.form "-" [.atom "a" pa, .atom "b" pb] pm, .numeral (.int 2) p2] ph

theorem mem_minus : ⟨.infixed, 70, "-", 6⟩ ∈ coreRegistry.operators := by
  rw [CoreTable.operators_eq]
  decide

theorem mem_power : ⟨.infixed, 20, "^", 1⟩ ∈ coreRegistry.operators := by
  rw [CoreTable.operators_eq]
  decide

theorem mem_not : ⟨.prefixed, 100, "Not", 13⟩ ∈ coreRegistry.operators := by
  rw [CoreTable.operators_eq]
  decide

/-- The call is read as its source has it. -/
theorem exists_parse (file : String) : ∃ ts pa pb pm p2 ph pn,
    (Lexer.mk file coreRegistry.operatorNames).tokens "Not((a - b) ^ 2)" = .ok ts ∧
      (∀ t ∈ ts, t.Integral) ∧ (coreParser file).parse "Not((a - b) ^ 2)" =
        .ok [.form "Not" [term pa pb pm p2 ph] pn] := by
  obtain ⟨ts, htokens, hshape⟩ :=
    @Lexer.tokens_of_standing ⟨file, coreRegistry.operatorNames⟩ _ standing_pieces
  rw [layout_pieces] at htokens
  have hintegral := integral_of_shapes hshape
  -- the tokens one by one
  have hshapes : pieces.filterMap Piece.shape? = [(.atom, .str "Not"), (.mark .openParen, .str "("),
      (.mark .openParen, .str "("), (.atom, .str "a"), (.operator, .str "-"), (.atom, .str "b"),
      (.mark .closeParen, .str ")"), (.operator, .str "^"), (.number, .num (.int 2)),
      (.mark .closeParen, .str ")")] := by rfl
  rw [hshapes] at hshape
  simp only [List.cons_append, List.nil_append, List.map_eq_cons_iff, List.map_eq_nil_iff] at hshape
  obtain ⟨tn, _, rfl, hn, t₁, _, rfl, h₁, t₂, _, rfl, h₂, ta, _, rfl, ha, tm, _, rfl, hm,
    tb, _, rfl, hb, t₃, _, rfl, h₃, th, _, rfl, hh, t, _, rfl, ht, t₄, _, rfl, h₄,
    te, _, rfl, he, rfl⟩ := hshape
  have hn := names_of_shape hn rfl
  have ha := names_of_shape ha rfl
  have hm := names_of_shape hm rfl
  have hb := names_of_shape hb rfl
  have hh := names_of_shape hh rfl
  have hk₁ : t₁.kind = .mark .openParen := congrArg Prod.fst h₁
  have hk₂ : t₂.kind = .mark .openParen := congrArg Prod.fst h₂
  have hk₃ : t₃.kind = .mark .closeParen := congrArg Prod.fst h₃
  have hk₄ : t₄.kind = .mark .closeParen := congrArg Prod.fst h₄
  have hk : t.kind = .number := congrArg Prod.fst ht
  have hv : t.value = .num (.int 2) := congrArg Prod.snd ht
  have hke : te.kind = .finish := congrArg Prod.fst he
  have hno_a : coreRegistry.operator? .prefixed "a" = none :=
    CoreTable.operator?_prefixed_of_isName (by decide) (by decide)
  have hno_b : coreRegistry.operator? .prefixed "b" = none :=
    CoreTable.operator?_prefixed_of_isName (by decide) (by decide)
  have hends₃ := Token.ends_of_mark hk₃ (by decide)
  have hends₄ := Token.ends_of_mark hk₄ (by decide)
  -- from the inside out: the difference, the square, the call
  have hdifference : Reads (coreParser file) (.expression loosest)
      (ta :: tm :: tb :: t₃ :: th :: t :: t₄ :: [te]) [.form tm [.leaf ta, .leaf tb]]
      (t₃ :: th :: t :: t₄ :: [te]) :=
    .expression (reads_atom ha (by decide) hno_a (by simp [current, hm.kind]; decide))
      (reads_infixed mem_minus rfl hm (by decide)
        (.expression (reads_atom hb (by decide) hno_b (by simp [current, hk₃]))
          (.stop (hends₃.stops _ _)))
        (.stop (hends₃.stops _ _)))
  have hsquare : Reads (coreParser file) (.expression loosest)
      (t₂ :: ta :: tm :: tb :: t₃ :: th :: t :: t₄ :: [te])
      [.form th [.form tm [.leaf ta, .leaf tb], .leaf t]] (t₄ :: [te]) :=
    .expression (.parens hk₂ hk₃ hdifference)
      (reads_infixed mem_power rfl hh (by decide)
        (.expression (.literal (.inl hk)) (.stop (hends₄.stops _ _)))
        (.stop (hends₄.stops _ _)))
  have hcall : Reads (coreParser file) (.expression loosest)
      (tn :: t₁ :: t₂ :: ta :: tm :: tb :: t₃ :: th :: t :: t₄ :: [te])
      [.form tn [.form th [.form tm [.leaf ta, .leaf tb], .leaf t]]] [te] := by
    refine .expression (.call hn.spelledByList_eq (hn.kind_of_isName (by decide)) hk₁ ?_
      (.someArguments (by simp [current, hk₂]) (.lastItem (by decide) hk₄ hsquare)))
      (.stop (Token.Ends.stops (.inl hke) _ _))
    rw [Parser.operatorAt?_of_spelling hn.spelling?_eq]
    exact CoreTable.operator?_bodied_of_prefixed mem_not rfl
  refine ⟨_, ta.pos, tb.pos, tm.pos, t.pos, th.pos, tn.pos, htokens, hintegral, ?_⟩
  have hparse : (coreParser file).parse "Not((a - b) ^ 2)" = .ok [_] :=
    @parse_of_reads (coreParser file) _ [tn, t₁, t₂, ta, tm, tb, t₃, th, t, t₄] _ _ htokens hke
      hcall
  rw [hparse]
  have hka := ha.kind_of_isName (by decide)
  have hkb := hb.kind_of_isName (by decide)
  simp [Tree.term, Tree.terms, Token.term, term, hn.operatorName_eq, hh.operatorName_eq,
    hm.operatorName_eq, hka, hkb, ha.value, hb.value, hk, hv]

variable {pa pb pm p2 ph pn : Pos}

theorem legible_term : Legible (term pa pb pm p2 ph) := by
  have ha : Legible (.atom "a" pa) := .atom (by decide) (by decide)
  have hb : Legible (.atom "b" pb) := .atom (by decide) (by decide)
  have hdifference : Legible (.form "-" [.atom "a" pa, .atom "b" pb] pm) :=
    .form (CoreTable.spelling_of_mem mem_minus) (by simp) (by simp [ha, hb])
  have htwo : Legible (.numeral (.int 2) p2) := .numeral (n := 2) (Num.lt_digitBound (by decide))
  exact .form (CoreTable.spelling_of_mem mem_power) (by simp) (by simp [hdifference, htwo])

theorem legible_not : Legible (.form "Not" [term pa pb pm p2 ph] pn) :=
  .form (CoreTable.spelling_of_mem mem_not) (by simp) (by simp [legible_term])

/-- The pieces of the square. -/
def termPieces : List Piece :=
  [.mark .openParen, .word "a", .space, .word "-", .space, .word "b", .mark .closeParen, .space,
    .word "^", .space, .digits 2]

theorem operatorOf?_power : coreRegistry.operatorOf? "^" 2 = some ⟨.infixed, 20, "^", 1⟩ := by
  simp only [Registry.operatorOf?, Registry.operator?, CoreTable.operators_eq]
  decide

theorem operatorOf?_minus : coreRegistry.operatorOf? "-" 2 = some ⟨.infixed, 70, "-", 6⟩ := by
  simp only [Registry.operatorOf?, Registry.operator?, CoreTable.operators_eq]
  decide

theorem operatorOf?_and : coreRegistry.operatorOf? "And" 2 = some ⟨.infixed, 1000, "And", 14⟩ := by
  simp only [Registry.operatorOf?, Registry.operator?, CoreTable.operators_eq]
  decide

theorem operatorOf?_not : coreRegistry.operatorOf? "Not" 1 = some ⟨.prefixed, 100, "Not", 13⟩ := by
  simp only [Registry.operatorOf?, Registry.operator?, CoreTable.operators_eq]
  decide

theorem written_term : Written coreRegistry 100 (term pa pb pm p2 ph) termPieces := by
  have ha : Written coreRegistry 70 (.atom "a" pa) [.word "a"] :=
    .atom (by decide) (by decide) (CoreTable.operator?_prefixed_of_isName (by decide) (by decide))
  have hb : Written coreRegistry 69 (.atom "b" pb) [.word "b"] :=
    .atom (by decide) (by decide) (CoreTable.operator?_prefixed_of_isName (by decide) (by decide))
  have hdifference := @Written.infixed coreRegistry loosest ⟨.infixed, 70, "-", 6⟩ _ _ _ _ pm
    operatorOf?_minus rfl (by decide) ha hb
  have hlow : (20 : Int) < coreRegistry.precedence (.form "-" [.atom "a" pa, .atom "b" pb] pm) := by
    rw [precedence_form operatorOf?_minus]
    decide
  have htwo : Written coreRegistry 19 (.numeral (.int 2) p2) [.digits 2] :=
    .numeral (by decide) (Num.lt_digitBound (by decide))
  exact @Written.infixed coreRegistry 100 ⟨.infixed, 20, "^", 1⟩ _ _ _ _ ph operatorOf?_power rfl
    (by decide) (.parens hlow hdifference) htwo

theorem textOf_not : coreRegistry.textOf (.form "Not" [term pa pb pm p2 ph] pn) =
    .ok "Not (a - b) ^ 2" := by
  have hcall : Written coreRegistry loosest (.form "Not" [term pa pb pm p2 ph] pn) _ :=
    @Written.prefixed _ _ ⟨.prefixed, 100, "Not", 13⟩ _ _ _ operatorOf?_not rfl (by decide)
      written_term
  rw [(hcall.printAt CoreTable.regular).textOf]
  rfl

/-- An operand looser than `Not`, with the square behind a sign in it. -/
def looser : Term :=
  .form "And" [.atom "a" .none, .form "-" [term .none .none .none .none .none] .none] .none

theorem legible_looser : Legible looser := by
  have ha : Legible (.atom "a" .none) := .atom (by decide) (by decide)
  have hsign : Legible (.form "-" [term .none .none .none .none .none] .none) :=
    .form (CoreTable.spelling_of_mem mem_minus) (by simp) (by simp [legible_term])
  exact .form (by simp [show isName "And" = true by decide]) (by simp) (by simp [ha, hsign])

/-- The square is bound no looser than `Not`, and its text starts with a parenthesis. -/
theorem captured_not : ¬Uncaptured (.form "Not" [term pa pb pm p2 ph] pn) := by
  intro h
  have hlow := (uncaptured_form.1 h).2 rfl _ rfl (written_term.opensParenthesis_iff.2 rfl)
  rw [term, precedence_form operatorOf?_power] at hlow
  exact absurd hlow (by decide)

end Square

/-! ### Round trips -/

/-- **Round trip of built expressions.** The text of a legible expression in which every `Not` keeps
its operand is parsed as one statement, and that is the expression. -/
theorem parse_textOf_of_uncaptured (file : String) {t : Term} (h : Legible t) (hn : Uncaptured t) :
    ∃ text u, coreRegistry.textOf t = .ok text ∧ (coreParser file).parse text = .ok [u] ∧
      u.sameStructure t = true := by
  obtain ⟨text, u, htext, hparse, hsame⟩ := h.reprint file
  exact ⟨text, u, htext, hparse, hsame.2 hn⟩

theorem parse_textOf_of_uncaptured_looser : Legible (.form "Not" [Square.looser] .none) ∧
    Uncaptured (.form "Not" [Square.looser] .none) ∧ ∃ text u,
      coreRegistry.textOf (.form "Not" [Square.looser] .none) = .ok text ∧
      (coreParser "").parse text = .ok [u] ∧
      u.sameStructure (.form "Not" [Square.looser] .none) = true := by
  have hlegible : Legible (.form "Not" [Square.looser] .none) :=
    .form (CoreTable.spelling_of_mem Square.mem_not) (by simp) (by simp [Square.legible_looser])
  have hloose : 100 < coreRegistry.precedence Square.looser := by
    rw [Square.looser, precedence_form Square.operatorOf?_and]
    decide
  have huncaptured : Uncaptured (.form "Not" [Square.looser] .none) := by
    refine .form (by simp [Square.looser, Square.term, uncaptured_form, Uncaptured.atom,
      Uncaptured.numeral]) fun _ a ha _ => ?_
    obtain rfl : Square.looser = a := by simpa using ha
    exact hloose
  exact ⟨hlegible, huncaptured, parse_textOf_of_uncaptured "" hlegible huncaptured⟩

/-- **Round trip of statements.** A statement of a source all of whose numbers are integers has a
text, which is parsed as one statement; that is the same one just if every `Not` keeps its
operand. -/
theorem parse_textOf_iff (file : String) {source : String} {ts : List Token} {terms : List Term}
    (htokens : (Lexer.mk file coreRegistry.operatorNames).tokens source = .ok ts)
    (hintegral : ∀ t ∈ ts, t.Integral) (hparse : (coreParser file).parse source = .ok terms) :
    ∀ t ∈ terms, ∃ text u, coreRegistry.textOf t = .ok text ∧
      (coreParser file).parse text = .ok [u] ∧ (u.sameStructure t = true ↔ Uncaptured t) := by
  intro t ht
  exact (legible_of_parse htokens hintegral hparse t ht).reprint file

theorem parse_textOf_iff_not : ∃ ts t text u,
    (Lexer.mk "" coreRegistry.operatorNames).tokens "Not((a - b) ^ 2)" = .ok ts ∧
      (∀ t ∈ ts, t.Integral) ∧ (coreParser "").parse "Not((a - b) ^ 2)" = .ok [t] ∧
      coreRegistry.textOf t = .ok text ∧ (coreParser "").parse text = .ok [u] ∧
      (u.sameStructure t = true ↔ Uncaptured t) := by
  obtain ⟨ts, pa, pb, pm, p2, ph, pn, htokens, hintegral, hparse⟩ := Square.exists_parse ""
  obtain ⟨text, u, htext, hu, hsame⟩ :=
    parse_textOf_iff "" htokens hintegral hparse _ (List.mem_singleton_self _)
  exact ⟨ts, _, text, u, htokens, hintegral, hparse, htext, hu, hsame⟩

/-- A call of `Not` for a square: its text is parsed as the square of a negation. -/
theorem exists_parse_textOf_captured : ∃ ts t u,
    (Lexer.mk "" coreRegistry.operatorNames).tokens "Not((a - b) ^ 2)" = .ok ts ∧
      (∀ t ∈ ts, t.Integral) ∧ (coreParser "").parse "Not((a - b) ^ 2)" = .ok [t] ∧
      coreRegistry.textOf t = .ok "Not (a - b) ^ 2" ∧
      (coreParser "").parse "Not (a - b) ^ 2" = .ok [u] ∧ u.sameStructure t = false := by
  obtain ⟨ts, pa, pb, pm, p2, ph, pn, htokens, hintegral, hparse⟩ := Square.exists_parse ""
  have hlegible : Legible (.form "Not" [Square.term pa pb pm p2 ph] pn) := Square.legible_not
  obtain ⟨text, u, htext, hu, hsame⟩ := hlegible.reprint ""
  obtain rfl : text = "Not (a - b) ^ 2" := Except.ok.inj (htext.symm.trans Square.textOf_not)
  refine ⟨ts, _, u, htokens, hintegral, hparse, htext, hu, ?_⟩
  rw [← Bool.not_eq_true, hsame]
  exact Square.captured_not

end TermCalc
