import TermCalc.Proofs.Syntax.Chains
import TermCalc.Proofs.Syntax.Displacement
import TermCalc.Proofs.Syntax.Recursion
import TermCalc.Proofs.Syntax.Tiling

/-!
# Bodied operators

A bodied operator has its last operand behind the parentheses around the others. The parser looks
for one where a name is called, but not where a symbol is.

* `Commas`: token sequences with commas between them.
* `Parser.IsBodied`, `Parser.Consumes`: a token that is just a bodied operator, and tokens that are
  just an expression.
* `Parser.reads_arguments_of_consumes`: expressions are read one by one between parentheses.
* `Parser.reads_named`, `Parser.reads_symbol`: the two calls. The first takes the body, the second
  leaves it behind.
* `Parser.parseTokens_bodied_iff`: **the form of the operands and the body is what the parser reads
  just if the operator is spelled as a name.**
* `Trailing.exists_parseTokens_error`: what it makes of an operator that is spelled as a symbol.
-/

namespace TermCalc

/-- **Token sequences with commas between them.** -/
inductive Commas : List (List Token) → List Token → Prop
  | none : Commas [] []
  | one (ts : List Token) : Commas [ts] ts
  | more {ts us inner : List Token} {uss : List (List Token)} {comma : Token} :
      comma.kind = .mark .comma → Commas (us :: uss) inner →
      Commas (ts :: us :: uss) (ts ++ comma :: inner)

namespace Parser

open Rest (plain plain_eq_ok)

variable (p : Parser)

/-- **A token that is a bodied operator**, and no other one, and names a builtin. -/
structure IsBodied (t : Token) (op : Operator) : Prop where
  bodied : p.operatorAt? .bodied t = some op
  only {fixity : Fixity} : fixity ≠ .bodied → p.operatorAt? fixity t = none
  bound : p.registry.contains op.name = true

/-- **Tokens that are just an expression**: before the end they are read as it, up to the end. -/
def Consumes (depth : Int) (ts : List Token) (x : Tree) : Prop :=
  ∃ e : Token, e.kind = .finish ∧ plain (p.expression (ts ++ [e]) depth) = .ok (x, [e])

variable {p} {t u c : Token} {op : Operator} {x b : Tree} {xs : List Tree}
  {ts inner body more : List Token} {Ts : List (List Token)}

/-- **The rules are unambiguous**: a phrase can be read in one way only. -/
theorem reads_unique {f : Phrase} {ys : List Tree} {rest rest' : List Token}
    (h : Reads p f ts xs rest) (h' : Reads p f ts ys rest') (hf : f.inner) :
    xs = ys ∧ rest = rest' := by
  have hxs := parsed_of_reads h
  have hys := parsed_of_reads h'
  cases f with
  | statements => exact hf.elim
  | block =>
    obtain ⟨y, hy, rfl, rfl⟩ := hxs .theEnd
    obtain ⟨z, hz, rfl, rfl⟩ := hys .theEnd
    obtain rfl := Except.ok.inj (hy.symm.trans hz)
    exact ⟨rfl, rfl⟩
  | _ =>
    obtain ⟨y, hy, rfl, rfl⟩ := hxs
    obtain ⟨z, hz, rfl, rfl⟩ := hys
    obtain rfl := Except.ok.inj (hy.symm.trans hz)
    exact ⟨rfl, rfl⟩

theorem Consumes.reads {depth : Int} (h : p.Consumes depth ts x) {s : Token} (hs : s.Ends)
    (more : List Token) : Reads p (.expression depth) (ts ++ s :: more) [x] (s :: more) := by
  obtain ⟨e, he, h⟩ := h
  obtain ⟨y, hy, rfl, hrest⟩ := plain_eq_ok.1 h
  have hread := reads_of_expression hy
  rw [hrest] at hread
  exact reads_before hread he hs

theorem consumes_of_reads {depth : Int} {e : Token} (he : e.kind = .finish)
    (h : Reads p (.expression depth) (ts ++ [e]) [x] [e]) : p.Consumes depth ts x := by
  obtain ⟨y, hy, hx, hrest⟩ := parsed_of_reads h
  exact ⟨e, he, plain_eq_ok.2 ⟨y, hy, (List.cons.inj hx).1.symm, hrest.symm⟩⟩

theorem IsOperand.of_names {s : String} (ht : t.Names s) (hs : isName s = true)
    (hop : p.registry.operator? .prefixed s = none) : p.IsOperand t := by
  refine .inr (.inr ⟨ht.kind_of_isName hs, ht.spelledByList_eq, ?_⟩)
  rwa [operatorAt?_of_spelling ht.spelling?_eq]

/-- An operand by itself is an expression, at every depth. -/
theorem IsOperand.consumes {a : Token} (h : p.IsOperand a) (depth : Int) :
    p.Consumes depth [a] (.leaf a) := by
  have hend : (Token.ofEnd .none).Ends := .inl rfl
  exact consumes_of_reads rfl
    (.expression (h.reads (hend.ne_openParen [])) (.stop (hend.stops depth [])))

/-! ### Arguments -/

theorem reads_items_of_consumes (hinner : Commas Ts inner)
    (hxs : List.Forall₂ (p.Consumes loosest) Ts xs) (hTs : Ts ≠ [])
    (hc : c.kind = .mark .closeParen) (more : List Token) :
    Reads p (.items .closeParen) (inner ++ c :: more) xs more := by
  induction hinner generalizing xs with
  | none => exact absurd rfl hTs
  | one ts =>
    obtain _ | ⟨hx, _ | _⟩ := hxs
    exact .lastItem (by decide) hc (hx.reads (Token.ends_of_mark hc (by decide)) more)
  | more hcomma _ ih =>
    obtain _ | ⟨hx, hxs⟩ := hxs
    rw [List.append_assoc]
    exact .item hcomma (hx.reads (Token.ends_of_mark hcomma (by decide)) _) (ih hxs (by simp))

/-- **Expressions are read one by one** between commas. -/
theorem reads_arguments_of_consumes (hinner : Commas Ts inner)
    (hxs : List.Forall₂ (p.Consumes loosest) Ts xs) (hc : c.kind = .mark .closeParen)
    (more : List Token) : Reads p (.arguments .closeParen) (inner ++ c :: more) xs more := by
  by_cases hTs : Ts = []
  · subst hTs
    cases hinner
    cases hxs
    exact .noArguments hc
  · have hitems := reads_items_of_consumes hinner hxs hTs hc more
    exact .someArguments (fun hk => by simpa using first_of_items hitems _ hk) hitems

/-! ### Calls of a bodied operator -/

namespace IsBodied

variable (h : p.IsBodied t op)
include h

theorem following?_eq_none (d : Int) : p.following? t d = none := by
  rw [following?, h.only (by decide), h.only (by decide)]
  rfl

variable (hu : u.kind = .mark .openParen) (hargs : Reads p (.arguments .closeParen) ts xs more)
include hu hargs

/-- **A name is called with the body** for its last operand. -/
theorem reads_named (hk : t.kind = .atom) {rest : List Token}
    (hb : Reads p (.expression op.precedence) more [b] rest) :
    Reads p .operand (t :: u :: ts) [.form t (xs ++ [b])] rest :=
  .bodied (spelledByList_of_operatorAt? h.bodied) hk hu h.bodied h.bound hargs hb

/-- **A symbol is called without the body**, which stays behind. -/
theorem reads_symbol (hk : t.kind = .operator) :
    Reads p .operand (t :: u :: ts) [.form t xs] more :=
  .symbolCall (spelledByList_of_operatorAt? h.bodied) hk hu (.inl (h.only (by decide))) hargs

end IsBodied

/-- Operators leave an operand as it is, or are at the root of what they make of it. -/
theorem root_of_operators {d : Int} {lhs : Tree} {rest : List Token}
    (h : Reads p (.operators lhs d) ts [x] rest) :
    x = lhs ∨ ∃ o args op e, x = .form o args ∧ p.following? o e = some op := by
  generalize hf : Phrase.operators lhs d = f at h
  generalize hxs : [x] = xs at h
  induction h generalizing lhs d with
  | stop =>
    cases hf
    exact .inl (List.cons.inj hxs).1
  | infixed _ hop _ _ _ _ _ ih =>
    cases hf
    rcases ih rfl hxs with rfl | hroot
    · exact .inr ⟨_, _, _, _, rfl, hop⟩
    · exact .inr hroot
  | postfixed _ hop _ _ _ ih =>
    cases hf
    rcases ih rfl hxs with rfl | hroot
    · exact .inr ⟨_, _, _, _, rfl, hop⟩
    · exact .inr hroot
  | _ => cases hf

/-- No expression that starts with the call of a symbol has the body among its operands. -/
theorem IsBodied.not_reads_symbol (h : p.IsBodied t op) (hk : t.kind = .operator)
    (hu : u.kind = .mark .openParen) (hargs : Reads p (.arguments .closeParen) ts xs more)
    (d : Int) (rest : List Token) :
    ¬Reads p (.expression d) (t :: u :: ts) [.form t (xs ++ [b])] rest := by
  intro hread
  cases hread with
  | expression hlhs hmore =>
    obtain ⟨hlhs, rfl⟩ := reads_unique hlhs (h.reads_symbol hu hargs hk) trivial
    obtain rfl := (List.cons.inj hlhs).1
    rcases root_of_operators hmore with heq | ⟨o, args, op', e, heq, hop⟩
    · have := congrArg List.length (Tree.form.inj heq).2
      simp at this
    · obtain rfl := (Tree.form.inj heq).1
      rw [h.following?_eq_none] at hop
      cases hop

/-- **Bodied operators are read where they are names.** The tokens of a bodied operator, operands in
parentheses and a body are read as one statement, the form of the operands and the body, just if the
operator is spelled as a name. -/
theorem parseTokens_bodied_iff {last : Token} (ht : p.IsBodied t op)
    (hu : u.kind = .mark .openParen) (hinner : Commas Ts inner)
    (hxs : List.Forall₂ (p.Consumes loosest) Ts xs) (hc : c.kind = .mark .closeParen)
    (hbody : p.Consumes op.precedence body b) (hlast : last.kind = .finish) :
    p.parseTokens (t :: u :: inner ++ c :: body ++ [last]) = .ok [.form t (xs ++ [b])] ↔
      t.kind = .atom := by
  have hargs := reads_arguments_of_consumes hinner hxs hc (body ++ [last])
  have hend : last.Ends := .inl hlast
  have htokens : t :: u :: inner ++ c :: body ++ [last] =
      t :: u :: (inner ++ c :: (body ++ [last])) := by simp
  rw [Parser.parseTokens, supply_eq (t := last) (by simp) hlast, htokens]
  constructor
  · intro hparse
    rcases kind_of_operatorAt? ht.bodied with hk | hk
    · exact hk
    · obtain ⟨rest, hread⟩ := statements_eq_ok_iff.1 hparse
      cases hread with
      | skip hsemi => simp [hk] at hsemi
      | statement _ _ hread => exact absurd hread (ht.not_reads_symbol hk hu hargs _ _)
  · intro hk
    have hoperand := ht.reads_named hu hargs hk (hbody.reads hend [])
    exact statements_of_expression hlast (.expression hoperand (.stop (hend.stops _ [])))

attribute [local irreducible] coreRegistry

theorem isBodied_while {t : Token} (ht : t.spelling? = some "While") :
    (Parser.mk coreRegistry "").IsBodied t ⟨.bodied, loosest, "While", 17⟩ where
  bodied := by
    rw [operatorAt?_of_spelling ht, Registry.operator?, CoreTable.operators_eq]
    decide
  only {fixity} hne := by
    rw [operatorAt?_of_spelling ht, Registry.operator?, CoreTable.operators_eq]
    cases fixity <;> first | exact absurd rfl hne | decide
  bound := CoreTable.contains_of_mem (by rw [CoreTable.operators_eq]; decide)

/-- A name in the first line. -/
def nameAt (s : String) (column : Int) : Token := ⟨.atom, .str s, ⟨1, column⟩⟩

/-- A loop with two operands and a body is `While(a, b) c`. -/
theorem parseTokens_bodied_while :
    (Parser.mk coreRegistry "").IsBodied (nameAt "While" 1) ⟨.bodied, loosest, "While", 17⟩ ∧
      Commas [[nameAt "a" 7], [nameAt "b" 10]]
        [nameAt "a" 7, .ofMark .comma ⟨1, 8⟩, nameAt "b" 10] ∧
      List.Forall₂ ((Parser.mk coreRegistry "").Consumes loosest)
        [[nameAt "a" 7], [nameAt "b" 10]] [.leaf (nameAt "a" 7), .leaf (nameAt "b" 10)] ∧
      (Parser.mk coreRegistry "").Consumes loosest [nameAt "c" 13] (.leaf (nameAt "c" 13)) ∧
      (Parser.mk coreRegistry "").parseTokens [nameAt "While" 1, .ofMark .openParen ⟨1, 6⟩,
          nameAt "a" 7, .ofMark .comma ⟨1, 8⟩, nameAt "b" 10, .ofMark .closeParen ⟨1, 11⟩,
          nameAt "c" 13, .ofEnd ⟨1, 14⟩] =
        .ok [.form (nameAt "While" 1)
          [.leaf (nameAt "a" 7), .leaf (nameAt "b" 10), .leaf (nameAt "c" 13)]] := by
  have hwhile := @isBodied_while (nameAt "While" 1) rfl
  have hinner : Commas [[nameAt "a" 7], [nameAt "b" 10]]
      [nameAt "a" 7, .ofMark .comma ⟨1, 8⟩, nameAt "b" 10] :=
    .more rfl (.one [nameAt "b" 10])
  have hconsumes {t : Token} {s : String} (ht : t.Names s) (hs : isName s = true)
      (hnot : s ≠ "Not") : (Parser.mk coreRegistry "").Consumes loosest [t] (.leaf t) :=
    (IsOperand.of_names ht hs (CoreTable.operator?_prefixed_of_isName hs hnot)).consumes loosest
  have hargs := List.Forall₂.cons
    (hconsumes (t := nameAt "a" 7) (s := "a") ⟨rfl, rfl⟩ (by decide) (by decide))
    (.cons (hconsumes (t := nameAt "b" 10) (s := "b") ⟨rfl, rfl⟩ (by decide) (by decide)) .nil)
  have hbody := hconsumes (t := nameAt "c" 13) (s := "c") ⟨rfl, rfl⟩ (by decide) (by decide)
  refine ⟨hwhile, hinner, hargs, hbody, ?_⟩
  exact (parseTokens_bodied_iff (u := .ofMark .openParen ⟨1, 6⟩) (c := .ofMark .closeParen ⟨1, 11⟩)
    hwhile rfl hinner hargs rfl hbody rfl).2 rfl

end Parser

/-! ### A symbol for a loop -/

open TermCalc.Parser (Reads current)
open Rest (plain_eq_ok)

namespace Trailing

/-- A loop that is spelled as a symbol. -/
def declarations : List Declaration :=
  [.function "builtin_while" "@" 2 .held none, .operator .bodied 100 "@"]

/-- Its operator. -/
abbrev loop : Operator := ⟨.bodied, 100, "@", 0⟩

/-- The table that is built from them. -/
def table : Registry where
  entries := [⟨"@", .primitive .whileDo, 2, .held, none⟩]
  operators := [loop]
  frozen := true

theorem build_declarations : Registry.build declarations = .ok table := by rfl

theorem isBodied_loop {t : Token} (ht : t.spelling? = some "@") :
    (Parser.mk table "").IsBodied t loop where
  bodied := by rw [Parser.operatorAt?_of_spelling ht]; rfl
  only {fixity} hne := by
    rw [Parser.operatorAt?_of_spelling ht]
    cases fixity <;> first | exact absurd rfl hne | rfl
  bound := rfl

/-- The pieces of a loop. -/
def pieces : List Piece :=
  [.word "@", .mark .openParen, .word "a", .mark .closeParen, .space, .word "b"]

theorem layout_pieces : String.ofList (layout pieces) = "@(a) b" := by rfl

theorem standing_pieces : Standing table.operatorNames pieces := by
  have hloop : isSymbol table.operatorNames "@" = true := by decide
  exact ⟨.inr ⟨hloop, .inl (by decide)⟩, trivial, .inl ⟨by decide, by decide⟩, trivial, trivial,
    .inl ⟨by decide, by decide⟩, trivial⟩

/-- **A loop that is spelled as a symbol is not read.** Its tokens are a bodied operator, an operand
in parentheses and a body; the parser takes the call and fails at the body. -/
theorem exists_parseTokens_error :
    Registry.build declarations = .ok table ∧ loop ∈ table.operators ∧ loop.precedence ≤ loosest ∧
      ∃ t u a c b last : Token,
        (Lexer.mk "" table.operatorNames).tokens "@(a) b" = .ok [t, u, a, c, b, last] ∧
        (Parser.mk table "").IsBodied t loop ∧ u.kind = .mark .openParen ∧
        c.kind = .mark .closeParen ∧ last.kind = .finish ∧
        (Parser.mk table "").Consumes loosest [a] (.leaf a) ∧
        (Parser.mk table "").Consumes loop.precedence [b] (.leaf b) ∧
        (Parser.mk table "").parseTokens [t, u, a, c, b, last] =
          .error (.source "" b.pos (.expected .semicolon b)) := by
  obtain ⟨ts, htokens, hshape⟩ :=
    @Lexer.tokens_of_standing ⟨"", table.operatorNames⟩ _ standing_pieces
  rw [layout_pieces] at htokens
  -- the tokens one by one
  have hshapes : pieces.filterMap Piece.shape? = [(.operator, .str "@"),
      (.mark .openParen, .str "("), (.atom, .str "a"), (.mark .closeParen, .str ")"),
      (.atom, .str "b")] := by rfl
  rw [hshapes] at hshape
  simp only [List.cons_append, List.nil_append, List.map_eq_cons_iff, List.map_eq_nil_iff] at hshape
  obtain ⟨t, _, rfl, ht, u, _, rfl, hu, a, _, rfl, ha, c, _, rfl, hc, b, _, rfl, hb, last, _, rfl,
    hlast, rfl⟩ := hshape
  have ht := names_of_shape ht rfl
  have ha := names_of_shape ha rfl
  have hb := names_of_shape hb rfl
  have hkt : t.kind = .operator := ht.kind
  have hku : u.kind = .mark .openParen := congrArg Prod.fst hu
  have hkc : c.kind = .mark .closeParen := congrArg Prod.fst hc
  have hklast : last.kind = .finish := congrArg Prod.fst hlast
  have hkb := hb.kind_of_isName (by decide)
  have hloop : (Parser.mk table "").IsBodied t loop := isBodied_loop ht.spelling?_eq
  have hargument : (Parser.mk table "").Consumes loosest [a] (.leaf a) :=
    (Parser.IsOperand.of_names ha (by decide) rfl).consumes loosest
  have hbody : (Parser.mk table "").Consumes loop.precedence [b] (.leaf b) :=
    (Parser.IsOperand.of_names hb (by decide) rfl).consumes loop.precedence
  refine ⟨build_declarations, by decide, by decide, t, u, a, c, b, last, htokens, hloop, hku, hkc,
    hklast, hargument, hbody, ?_⟩
  -- the call is all of the statement, since no operator goes on with it
  have hargs := Parser.reads_arguments_of_consumes (.one [a]) (.cons hargument .nil) hkc [b, last]
  have hstops : (Parser.mk table "").Stops loosest [b, last] := by
    refine ⟨hb.spelledByList_eq, ?_⟩
    have hb' := hb.spelling?_eq
    rw [current, List.headD_cons, Parser.following?, Parser.operatorAt?_of_spelling hb',
      Parser.operatorAt?_of_spelling hb']
    rfl
  have hcall : Reads ⟨table, ""⟩ (.expression loosest) [t, u, a, c, b, last]
      [.form t [.leaf a]] [b, last] :=
    .expression (hloop.reads_symbol hku hargs hkt) (.stop hstops)
  obtain ⟨y, hy, hx, hrest⟩ := Parser.parsed_of_reads hcall
  have hstatement := plain_eq_ok.2 ⟨y, hy, (List.cons.inj hx).1.symm, hrest.symm⟩
  have hpos : b.pos.writable = true := Lexer.writable_of_tokens htokens
    (Num.lt_digitBound (by decide)) b (by simp)
  have hwritable : (Failure.source "" b.pos (.expected .semicolon b)).writable = true := by
    simp [Failure.writable, SourceFault.writable, hpos, hb.value, Term.writable]
  rw [Parser.parseTokens, Parser.supply_eq (t := last) (by simp) hklast,
    Parser.statements_statement _ (by simp [hkt]) (by simp [hkt]), hstatement]
  simp [current, hkb, Parser.expect_plain, Parser.fault, bind, Except.bind,
    Failure.reported_of_writable hwritable]

end Trailing

end TermCalc
