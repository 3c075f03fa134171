import TermCalc.Proofs.Registry.History
import TermCalc.Proofs.Syntax.Bodies
import TermCalc.Proofs.Syntax.Joining
import TermCalc.Proofs.Syntax.Sources

/-!
# Calls and operators

An operator can be written in its place among its operands, in parentheses, or called with them like
a function, whatever other positions its spelling has.

* `Parser.consumes_call`, `Parser.consumes_infixed`, `Parser.consumes_postfixed`: what the rules
  make of the tokens of a call and of an operator.
* `Parser.Denotes`: shapes of tokens that are read as an expression wherever they stand.
* `Parser.IsExpression`, `Parser.ParsesTo`: sources that are just one expression, and what they are
  parsed to.
* `Parser.parsesTo_call_and_operator`: **calls and operators are parsed to the same forms.**
-/

namespace TermCalc

open Rest (plain plain_eq_ok)

/-- Kind and value of the token of a name or symbol. -/
abbrev wordShape (s : String) : TokenKind × Term := (if isName s then .atom else .operator, .str s)

/-- The shapes of tokens in parentheses. -/
abbrev enclosed (ss : List (TokenKind × Term)) : List (TokenKind × Term) :=
  Lexer.between .openParen .closeParen ss

/-- **The spelling of an operator**, before what cuts it off. -/
theorem Lexer.passes_word {l : Lexer} {name : String} (hspelling : isSpelling name = true)
    (hname : name ∈ l.known) {behind : List Char}
    (hcut : behind.head?.all (fun c => !isNameChar c && !isOperatorChar c) = true) :
    Passes l name.toList [wordShape name] behind :=
  passes_piece (p := .word name) rfl (Piece.stands_word (spelled_of_known hspelling hname) hcut)

open Lexer (Passes passes_space passes_lineFeed passes_mark passes_piece passes_word passes_source
  passes_between exists_of_between tokens_of_passes exists_body_of_tokens)

namespace Parser

variable {p : Parser} {name : String}

/-! ### Tokens -/

/-- An expression in parentheses is an operand. -/
theorem Consumes.reads_parens {ts : List Token} {x : Tree} (h : p.Consumes loosest ts x)
    {t u : Token} (ht : t.kind = .mark .openParen) (hu : u.kind = .mark .closeParen)
    (more : List Token) : Reads p .operand (t :: (ts ++ u :: more)) [x] more :=
  .parens ht hu (h.reads (Token.ends_of_mark hu (by decide)) more)

/-- **Tokens of the same shapes are just an expression** as well, the same one but for places. -/
theorem Consumes.placed {d : Int} {ts us : List Token} {x : Tree} (h : p.Consumes d ts x)
    (hus : us.map Token.shape = ts.map Token.shape) : ∃ y, x.Alike y ∧ p.Consumes d us y := by
  have hend : (current [Token.ofEnd .none]).Ends := .inl rfl
  have hread := h.reads hend []
  obtain ⟨ts', hsplit, hts⟩ := takes_of_reads hread
  obtain rfl := List.append_cancel_right hsplit
  obtain ⟨_, rest, hread', _ | ⟨hxy, _ | _⟩, hrest⟩ :=
    reads_displaced Tree.congruence_alike hend hread trivial rfl (Moved.of_shapes hus hts rfl)
  obtain ⟨-, rfl⟩ | ⟨hne, -⟩ := hrest.current_cases
  · exact ⟨_, hxy, consumes_of_reads rfl hread'⟩
  · exact absurd rfl hne

section

variable {t u c : Token} {xs : List Tree} {inner : List Token} {Ts : List (List Token)}

/-- **A spelling that is not bodied is called** with expressions in parentheses, before the end. -/
theorem consumes_call (ht : t.Names name) (hbound : p.registry.contains name = true)
    (hbodied : p.registry.operator? .bodied name = none) (hu : u.kind = .mark .openParen)
    (hc : c.kind = .mark .closeParen) (hinner : Commas Ts inner)
    (hxs : List.Forall₂ (p.Consumes loosest) Ts xs) (d : Int) :
    p.Consumes d (t :: u :: inner ++ [c]) (.form t xs) := by
  have hend : (Token.ofEnd .none).Ends := .inl rfl
  have hargs := reads_arguments_of_consumes hinner hxs hc [.ofEnd .none]
  suffices hcall : Reads p .operand (t :: u :: (inner ++ c :: [.ofEnd .none])) [.form t xs]
      [.ofEnd .none] by
    refine consumes_of_reads (e := .ofEnd .none) rfl ?_
    simpa using Reads.expression hcall (.stop (hend.stops d []))
  rcases ht.kind_cases with hk | hk
  · exact .call ht.spelledByList_eq hk hu
      (by rwa [operatorAt?_of_spelling ht.spelling?_eq]) hargs
  · -- a symbol with one operand may be a prefix operator, and then nothing goes on with its operand
    by_cases hprefixed : p.operatorAt? .prefixed t = none ∨ xs.length ≠ 1
    · exact .symbolCall ht.spelledByList_eq hk hu hprefixed hargs
    · rw [not_or, not_not] at hprefixed
      obtain ⟨hsome, hone⟩ := hprefixed
      obtain ⟨op, hop⟩ := Option.ne_none_iff_exists'.1 hsome
      obtain ⟨x, rfl⟩ := List.length_eq_one_iff.1 hone
      have hname : op.name = name := by
        rw [operatorAt?_of_spelling ht.spelling?_eq] at hop
        exact (Registry.operator?_eq_some hop).2.2
      exact .symbolPrefix ht.spelledByList_eq hk hu hop (hname ▸ hbound) hargs
        (.stop (hend.stops _ []))

/-- **A spelling that is infix goes between** expressions in parentheses. -/
theorem consumes_infixed {o c' : Token} {ts us : List Token} {x y : Tree} {op : Operator}
    (ht : t.Names name) (hbound : p.registry.contains name = true)
    (hop : p.registry.operator? .infixed name = some op) (hprec : op.precedence ≤ loosest)
    (hu : u.kind = .mark .openParen) (hc : c.kind = .mark .closeParen)
    (ho : o.kind = .mark .openParen) (hc' : c'.kind = .mark .closeParen)
    (hx : p.Consumes loosest ts x) (hy : p.Consumes loosest us y) :
    p.Consumes loosest (u :: (ts ++ c :: t :: o :: (us ++ [c']))) (.form t [x, y]) := by
  have hend : (Token.ofEnd .none).Ends := .inl rfl
  obtain ⟨-, hfixity, hname⟩ := Registry.operator?_eq_some hop
  have hfollowing : p.following? t loosest = some op := by
    rw [following?, operatorAt?_of_spelling ht.spelling?_eq, hop]
    simp [hprec]
  have hright := hy.reads_parens ho hc' [.ofEnd .none]
  refine consumes_of_reads (e := .ofEnd .none) rfl ?_
  simpa using Reads.expression (hx.reads_parens hu hc _)
    (.infixed ht.spelledByList_eq hfollowing hfixity (hname ▸ hbound)
      (.expression hright (.stop (hend.stops _ []))) (.stop (hend.stops _ [])))

/-- **A spelling that is postfix and not infix goes behind** an expression in parentheses. -/
theorem consumes_postfixed {ts : List Token} {x : Tree} {op : Operator}
    (ht : t.Names name) (hbound : p.registry.contains name = true)
    (hinfixed : p.registry.operator? .infixed name = none)
    (hop : p.registry.operator? .postfixed name = some op) (hprec : op.precedence ≤ loosest)
    (hu : u.kind = .mark .openParen) (hc : c.kind = .mark .closeParen)
    (hx : p.Consumes loosest ts x) :
    p.Consumes loosest (u :: (ts ++ [c, t])) (.form t [x]) := by
  have hend : (Token.ofEnd .none).Ends := .inl rfl
  obtain ⟨-, hfixity, hname⟩ := Registry.operator?_eq_some hop
  have hfollowing : p.following? t loosest = some op := by
    rw [following?, operatorAt?_of_spelling ht.spelling?_eq, hinfixed,
      operatorAt?_of_spelling ht.spelling?_eq, hop]
    simp [hprec]
  refine consumes_of_reads (e := .ofEnd .none) rfl ?_
  simpa using Reads.expression (hx.reads_parens hu hc _)
    (.postfixed ht.spelledByList_eq hfollowing (by simp [hfixity]) (hname ▸ hbound)
      (.stop (hend.stops _ [])))

end

/-! ### Shapes -/

/-- **Shapes of tokens that are just an expression**, wherever the tokens stand. -/
def Denotes (p : Parser) (shapes : List (TokenKind × Term)) (a : Term) : Prop :=
  ∀ ts : List Token, ts.map Token.shape = shapes →
    ∃ x, p.Consumes loosest ts x ∧ x.term.unplaced = a.unplaced

variable {a b : Term} {ss ss' : List (TokenKind × Term)}

theorem Consumes.denotes {ts : List Token} {x : Tree} (h : p.Consumes loosest ts x) :
    p.Denotes (ts.map Token.shape) x.term := by
  intro us hus
  obtain ⟨y, hxy, hy⟩ := h.placed hus
  refine ⟨y, hy, ?_⟩
  rw [← Tree.unplaced_term y, ← show x.unplaced = y.unplaced from hxy, Tree.unplaced_term]

/-- Sequences of tokens with commas between them, by their shapes. -/
theorem exists_commas {sss : List (List (TokenKind × Term))} {ts : List Token}
    (h : ts.map Token.shape = [Mark.comma.shape].intercalate sss) :
    ∃ Ts, Commas Ts ts ∧ Ts.map (List.map Token.shape) = sss := by
  induction sss generalizing ts with
  | nil =>
    obtain rfl := List.map_eq_nil_iff.1 h
    exact ⟨[], .none, rfl⟩
  | cons ss sss ih =>
    cases sss with
    | nil => exact ⟨[ts], .one ts, by simpa [List.intercalate] using h⟩
    | cons ss' sss =>
      rw [List.intercalate_cons_cons, List.append_assoc] at h
      obtain ⟨us, more, rfl, hus, hmore⟩ := List.map_eq_append_iff.1 h
      obtain ⟨comma, inner, rfl, hcomma, hinner⟩ := List.map_eq_cons_iff.1 hmore
      obtain ⟨Ts, hcommas, hTs⟩ := ih hinner
      obtain ⟨vs, Ts, rfl, rfl, rfl⟩ := List.map_eq_cons_iff.1 hTs
      exact ⟨us :: vs :: Ts, .more (congrArg Prod.fst hcomma) hcommas, by rw [← hus]; rfl⟩

/-- Sequences of tokens that are expressions, by their shapes. -/
theorem exists_consumes {Ts : List (List Token)} {as : List Term}
    (h : List.Forall₂ p.Denotes (Ts.map (List.map Token.shape)) as) :
    ∃ xs, List.Forall₂ (p.Consumes loosest) Ts xs ∧
      Term.unplacedAll (Tree.terms xs) = Term.unplacedAll as := by
  induction Ts generalizing as with
  | nil =>
    cases h
    exact ⟨[], .nil, rfl⟩
  | cons ts Ts ih =>
    obtain _ | ⟨hts, hTs⟩ := h
    obtain ⟨x, hx, hterm⟩ := hts ts rfl
    obtain ⟨xs, hxs, hterms⟩ := ih hTs
    refine ⟨x :: xs, .cons hx hxs, ?_⟩
    rw [Tree.terms, Term.unplacedAll, Term.unplacedAll, hterm, hterms]

namespace Denotes

variable (hbound : p.registry.contains name = true)
include hbound

/-- **The call of a spelling that is not bodied.** -/
theorem call {sss : List (List (TokenKind × Term))} {as : List Term}
    (hbodied : p.registry.operator? .bodied name = none) (h : List.Forall₂ p.Denotes sss as) :
    p.Denotes (wordShape name :: enclosed ([Mark.comma.shape].intercalate sss))
      (.form name as .none) := by
  intro ts hts
  obtain ⟨t, ts, rfl, ht, hts⟩ := List.map_eq_cons_iff.1 hts
  obtain ⟨u, inner, c, rfl, hu, hinner, hc⟩ := exists_of_between hts
  have ht := names_of_shape ht rfl
  obtain ⟨Ts, hcommas, rfl⟩ := exists_commas hinner
  obtain ⟨xs, hxs, hterms⟩ := exists_consumes h
  refine ⟨.form t xs, consumes_call ht hbound hbodied hu hc hcommas hxs loosest, ?_⟩
  rw [Tree.term, ht.operatorName_eq, Term.unplaced, Term.unplaced, hterms]

/-- **A spelling that is infix between expressions in parentheses.** -/
theorem infixed {op : Operator} (hop : p.registry.operator? .infixed name = some op)
    (hprec : op.precedence ≤ loosest) (ha : p.Denotes ss a) (hb : p.Denotes ss' b) :
    p.Denotes (enclosed ss ++ wordShape name :: enclosed ss') (.form name [a, b] .none) := by
  intro ts hts
  obtain ⟨left, ts, rfl, hleft, hts⟩ := List.map_eq_append_iff.1 hts
  obtain ⟨t, right, rfl, ht, hright⟩ := List.map_eq_cons_iff.1 hts
  obtain ⟨u, us, c, rfl, hu, rfl, hc⟩ := exists_of_between hleft
  obtain ⟨o, vs, c', rfl, ho, rfl, hc'⟩ := exists_of_between hright
  have ht := names_of_shape ht rfl
  obtain ⟨x, hx, hxa⟩ := ha us rfl
  obtain ⟨y, hy, hyb⟩ := hb vs rfl
  refine ⟨.form t [x, y], ?_, ?_⟩
  · simpa using consumes_infixed ht hbound hop hprec hu hc ho hc' hx hy
  · simp [Tree.term, Tree.terms, ht.operatorName_eq, Term.unplaced, Term.unplacedAll, hxa, hyb]

/-- **A spelling that is postfix, and not infix, behind an expression in parentheses.** -/
theorem postfixed {op : Operator} (hinfixed : p.registry.operator? .infixed name = none)
    (hop : p.registry.operator? .postfixed name = some op) (hprec : op.precedence ≤ loosest)
    (ha : p.Denotes ss a) :
    p.Denotes (enclosed ss ++ [wordShape name]) (.form name [a] .none) := by
  intro ts hts
  obtain ⟨left, ts, rfl, hleft, hts⟩ := List.map_eq_append_iff.1 hts
  obtain ⟨t, rfl, ht⟩ := List.map_eq_singleton_iff.1 hts
  obtain ⟨u, us, c, rfl, hu, rfl, hc⟩ := exists_of_between hleft
  have ht := names_of_shape ht rfl
  obtain ⟨x, hx, hxa⟩ := ha us rfl
  refine ⟨.form t [x], ?_, ?_⟩
  · simpa using consumes_postfixed ht hbound hinfixed hop hprec hu hc hx
  · simp [Tree.term, Tree.terms, ht.operatorName_eq, Term.unplaced, Term.unplacedAll, hxa]

end Denotes

/-! ### Sources -/

/-- **A source that is just one expression**: it leaves nothing but the end behind, and has no
separator. -/
def IsExpression (p : Parser) (source : String) : Prop :=
  ∃ ts x last, (Lexer.mk p.file p.registry.operatorNames).tokens source = .ok ts ∧
    plain (p.expression ts loosest) = .ok (x, [last])

/-- **That a source is parsed to one expression**, up to structural equality. -/
def ParsesTo (p : Parser) (source : String) (t : Term) : Prop :=
  ∃ u, p.parse source = .ok [u] ∧ u.sameStructure t = true

/-- The tokens of a source that is just one expression denote it. -/
theorem IsExpression.denotes {source : String} (h : p.IsExpression source)
    (ha : p.parse source = .ok [a]) : ∃ body last,
      (Lexer.mk p.file p.registry.operatorNames).tokens source = .ok (body ++ [last]) ∧
      p.Denotes (body.map Token.shape) a := by
  obtain ⟨ts, x, last, htokens, hplain⟩ := h
  obtain ⟨y, hy, rfl, hrest⟩ := plain_eq_ok.1 hplain
  have hread := reads_of_expression hy
  rw [hrest] at hread
  obtain ⟨body, rfl, -⟩ := takes_of_reads hread
  obtain ⟨body', pos, heq, -⟩ := exists_body_of_tokens htokens
  obtain ⟨rfl, hlast⟩ := List.append_inj' heq rfl
  obtain rfl := (List.cons.inj hlast).1
  have hparse := parse_of_reads htokens rfl hread
  obtain rfl := (List.cons.inj (Except.ok.inj (hparse.symm.trans ha))).1
  exact ⟨body, .ofEnd pos, htokens, (consumes_of_reads rfl hread).denotes⟩

/-- **A text is parsed to what its tokens denote.** -/
theorem Denotes.parsesTo {source : String} {text : List Char} (h : p.Denotes ss a)
    (hpasses : Passes ⟨p.file, p.registry.operatorNames⟩ text ss [])
    (htext : source.toList = text) : p.ParsesTo source a := by
  obtain ⟨us, pos, htokens, hus⟩ := tokens_of_passes hpasses
  obtain ⟨x, hx, hterm⟩ := h us hus
  have hend : (Token.ofEnd pos).Ends := .inl rfl
  rw [← htext, String.ofList_toList] at htokens
  have hparse := parse_of_reads htokens rfl (hx.reads hend [])
  have hdefinite := definite_of_parse hparse
  have hx : x.term.isDefinite = true := by simpa [Term.allDefinite] using hdefinite
  obtain _ | ⟨hsame, -⟩ :=
    Term.Alike.all_sameStructure (.cons (Term.Alike.of_unplaced hx hterm) .nil) hdefinite
  exact ⟨x.term, hparse, hsame⟩

variable {A B : String}

section

variable (hspelling : isSpelling name = true) (hname : name ∈ p.registry.operatorNames)
  (hbound : p.registry.contains name = true)
include hspelling hname hbound

/-- **A call with one operand.** -/
theorem parsesTo_call (hbodied : p.registry.operator? .bodied name = none)
    (hA : p.IsExpression A) (ha : p.parse A = .ok [a]) :
    p.ParsesTo (name ++ "(" ++ A ++ "\n)") (.form name [a] .none) := by
  obtain ⟨body, last, htokens, hdenotes⟩ := hA.denotes ha
  have hpasses := (passes_word hspelling hname (by simp; decide)).append
    (passes_between htokens .openParen .closeParen [])
  have hcall := Denotes.call hbound hbodied (.cons hdenotes .nil)
  refine Denotes.parsesTo ?_ hpasses (by simp [Mark.char])
  simpa [Lexer.between] using hcall

/-- **A call with two operands.** -/
theorem parsesTo_call_two (hbodied : p.registry.operator? .bodied name = none)
    (hA : p.IsExpression A) (ha : p.parse A = .ok [a])
    (hB : p.IsExpression B) (hb : p.parse B = .ok [b]) :
    p.ParsesTo (name ++ "(" ++ A ++ "\n, " ++ B ++ "\n)") (.form name [a, b] .none) := by
  obtain ⟨body, last, htokens, hdenotes⟩ := hA.denotes ha
  obtain ⟨body', last', htokens', hdenotes'⟩ := hB.denotes hb
  have hpasses := (passes_word hspelling hname (by simp [Mark.char]; decide)).append
    ((passes_mark .openParen _).append ((passes_source htokens (.inr rfl)).append
    ((passes_lineFeed _).append ((passes_mark .comma _).append ((passes_space _).append
    ((passes_source htokens' (.inr rfl)).append ((passes_lineFeed _).append
    (passes_mark .closeParen []))))))))
  have hcall := Denotes.call hbound hbodied (.cons hdenotes (.cons hdenotes' .nil))
  refine Denotes.parsesTo ?_ hpasses (by simp [Mark.char])
  simpa [Lexer.between, List.intercalate] using hcall

/-- **An infix operator between operands.** -/
theorem parsesTo_infixed {op : Operator} (hop : p.registry.operator? .infixed name = some op)
    (hprec : op.precedence ≤ loosest) (hA : p.IsExpression A) (ha : p.parse A = .ok [a])
    (hB : p.IsExpression B) (hb : p.parse B = .ok [b]) :
    p.ParsesTo ("(" ++ A ++ "\n) " ++ name ++ " (" ++ B ++ "\n)") (.form name [a, b] .none) := by
  obtain ⟨body, last, htokens, hdenotes⟩ := hA.denotes ha
  obtain ⟨body', last', htokens', hdenotes'⟩ := hB.denotes hb
  have hpasses := (passes_between htokens .openParen .closeParen _).append
    ((passes_space _).append ((passes_word hspelling hname (by simp; decide)).append
    ((passes_space _).append (passes_between htokens' .openParen .closeParen []))))
  exact (hdenotes.infixed hbound hop hprec hdenotes').parsesTo hpasses (by simp [Mark.char])

/-- **A postfix operator behind its operand.** -/
theorem parsesTo_postfixed {op : Operator} (hinfixed : p.registry.operator? .infixed name = none)
    (hop : p.registry.operator? .postfixed name = some op) (hprec : op.precedence ≤ loosest)
    (hA : p.IsExpression A) (ha : p.parse A = .ok [a]) :
    p.ParsesTo ("(" ++ A ++ "\n) " ++ name) (.form name [a] .none) := by
  obtain ⟨body, last, htokens, hdenotes⟩ := hA.denotes ha
  have hpasses := (passes_between htokens .openParen .closeParen _).append
    ((passes_space _).append (passes_word hspelling hname (by rfl : [].head?.all _ = true)))
  exact (hdenotes.postfixed hbound hinfixed hop hprec).parsesTo hpasses (by simp [Mark.char])

end

/-- **Calls and operators agree.** In every registry, a spelling that names a builtin and is not
bodied is called with expressions, each of them before a new line, to the same form that it has in
its place among them in parentheses: with two where it is infix, and with one where it is postfix
and not infix. Whether it is a prefix operator as well does not matter. -/
theorem parsesTo_call_and_operator (hspelling : isSpelling name = true)
    (hbound : p.registry.contains name = true)
    (hbodied : p.registry.operator? .bodied name = none)
    (hA : p.IsExpression A) (ha : p.parse A = .ok [a]) :
    (∀ op, p.registry.operator? .infixed name = some op → op.precedence ≤ loosest →
      ∀ B b, p.IsExpression B → p.parse B = .ok [b] →
      p.ParsesTo (name ++ "(" ++ A ++ "\n, " ++ B ++ "\n)") (.form name [a, b] .none) ∧
      p.ParsesTo ("(" ++ A ++ "\n) " ++ name ++ " (" ++ B ++ "\n)") (.form name [a, b] .none)) ∧
    (∀ op, p.registry.operator? .postfixed name = some op → op.precedence ≤ loosest →
      p.registry.operator? .infixed name = none →
      p.ParsesTo (name ++ "(" ++ A ++ "\n)") (.form name [a] .none) ∧
      p.ParsesTo ("(" ++ A ++ "\n) " ++ name) (.form name [a] .none)) := by
  have hmem {fixity : Fixity} {op : Operator} (hop : p.registry.operator? fixity name = some op) :
      name ∈ p.registry.operatorNames := by
    obtain ⟨hop, -, hname⟩ := Registry.operator?_eq_some hop
    exact Registry.mem_operatorNames.2 ⟨op, hop, hname⟩
  refine ⟨fun op hop hprec B b hB hb => ?_, fun op hop hprec hinfixed => ?_⟩
  · have hname := hmem hop
    exact ⟨parsesTo_call_two hspelling hname hbound hbodied hA ha hB hb,
      parsesTo_infixed hspelling hname hbound hop hprec hA ha hB hb⟩
  · have hname := hmem hop
    exact ⟨parsesTo_call hspelling hname hbound hbodied hA ha,
      parsesTo_postfixed hspelling hname hbound hinfixed hop hprec hA ha⟩

attribute [local irreducible] coreRegistry

/-- An atom is just one expression. -/
theorem isExpression_atom (hname : isName name = true)
    (hprefixed : p.registry.operator? .prefixed name = none) :
    p.IsExpression name ∧ ∃ pos, p.parse name = .ok [.atom name pos] := by
  have hpasses : Passes ⟨p.file, p.registry.operatorNames⟩ name.toList [wordShape name] [] :=
    passes_piece (p := .word name) rfl (.inl ⟨hname, rfl⟩)
  obtain ⟨us, pos, htokens, hus⟩ := tokens_of_passes hpasses
  obtain ⟨t, rfl, ht⟩ := List.map_eq_singleton_iff.1 hus
  have ht := names_of_shape ht rfl
  rw [String.ofList_toList] at htokens
  have hend : (Token.ofEnd pos).Ends := .inl rfl
  have hread := ((IsOperand.of_names ht hname hprefixed).consumes loosest).reads hend []
  obtain ⟨y, hy, hx, hrest⟩ := parsed_of_reads hread
  refine ⟨⟨_, _, _, htokens, plain_eq_ok.2 ⟨y, hy, rfl, hrest.symm⟩⟩, t.pos, ?_⟩
  rw [parse_of_reads htokens rfl hread, Tree.term, Token.term, ht.kind_of_isName hname, ht.value]

/-- The minus, which is a prefix operator as well, between two atoms, and the factorial of one. -/
theorem parsesTo_call_and_operator_atoms :
    let p := Parser.mk coreRegistry "f"
    ∃ pos pos', p.parse "a" = .ok [.atom "a" pos] ∧ p.parse "b" = .ok [.atom "b" pos'] ∧
      (p.ParsesTo ("-" ++ "(" ++ "a" ++ "\n, " ++ "b" ++ "\n)")
          (.form "-" [.atom "a" pos, .atom "b" pos'] .none) ∧
        p.ParsesTo ("(" ++ "a" ++ "\n) " ++ "-" ++ " (" ++ "b" ++ "\n)")
          (.form "-" [.atom "a" pos, .atom "b" pos'] .none)) ∧
      p.ParsesTo ("!" ++ "(" ++ "a" ++ "\n)") (.form "!" [.atom "a" pos] .none) ∧
      p.ParsesTo ("(" ++ "a" ++ "\n) " ++ "!") (.form "!" [.atom "a" pos] .none) := by
  intro p
  have hatom {s : String} (hs : isName s = true) (hnot : s ≠ "Not") :
      p.IsExpression s ∧ ∃ pos, p.parse s = .ok [.atom s pos] :=
    isExpression_atom hs (CoreTable.operator?_prefixed_of_isName hs hnot)
  obtain ⟨hA, pos, ha⟩ := hatom (s := "a") (by decide) (by decide)
  obtain ⟨hB, pos', hb⟩ := hatom (s := "b") (by decide) (by decide)
  have hminus : (⟨.infixed, 70, "-", 6⟩ : Operator) ∈ coreRegistry.operators := by
    rw [CoreTable.operators_eq]; decide
  have hfactorial : (⟨.postfixed, 0, "!", 0⟩ : Operator) ∈ coreRegistry.operators := by
    rw [CoreTable.operators_eq]; decide
  have hnone : coreRegistry.operator? .bodied "-" = none ∧
      coreRegistry.operator? .bodied "!" = none ∧ coreRegistry.operator? .infixed "!" = none := by
    simp only [Registry.operator?, CoreTable.operators_eq]
    decide
  refine ⟨pos, pos', ha, hb, ?_, ?_⟩
  · exact (parsesTo_call_and_operator (by decide) (CoreTable.contains_of_mem hminus) hnone.1 hA
      ha).1 _ (CoreTable.operator?_of_mem hminus) (by decide) _ _ hB hb
  · exact (parsesTo_call_and_operator (by decide) (CoreTable.contains_of_mem hfactorial) hnone.2.1
      hA ha).2 _ (CoreTable.operator?_of_mem hfactorial) (by decide) hnone.2.2

end Parser

end TermCalc
