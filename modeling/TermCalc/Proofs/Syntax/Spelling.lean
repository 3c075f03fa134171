import Mathlib.Data.List.Forall2
import TermCalc.Proofs.Syntax.Grammar
import TermCalc.Proofs.Syntax.Lexing

/-!
# Tokens of printed expressions

What reading printed text comes down to with every table: the tokens that its pieces are, what ends
an expression, and how arguments and whole texts are read if expressions are.

* `Term.sameStructure_form`: forms are equal if their names and arguments are.
* `Spells`: the tokens that pieces are.
* `Token.Ends`: the tokens that no expression goes on with.
* `ReadAs`: what the pieces of an expression are read as before such a token. `reads_arguments`,
  `reads_list`, `reads_call`, `ReadAs.parse_layout`: **so are arguments read between brackets, and
  so is the text parsed.**
-/

namespace TermCalc

open TermCalc.Parser (Reads current)

/-! ### Equality of forms -/

theorem Tree.terms_eq_map (us : List Tree) : Tree.terms us = us.map Tree.term := by
  induction us with
  | nil => rfl
  | cons u us ih => rw [Tree.terms, ih]; rfl

namespace Term

theorem matchAll?_eq_some_true {ts us : List Term} (h : ts.length = us.length) :
    matchAll? Num.equal ts us = some true ↔
      List.Forall₂ (fun t u => t.sameStructure u = true) ts us := by
  induction ts generalizing us with
  | nil =>
    cases us with
    | nil => simp [matchAll?]
    | cons u us => cases h
  | cons t ts ih =>
    cases us with
    | nil => cases h
    | cons u us =>
      have hlen : ts.length = us.length := by simpa using h
      rw [matchAll?, List.forall₂_cons, ← ih hlen, sameStructure, beq_iff_eq]
      split
      · rename_i hm
        simp [hm]
      · rename_i hm
        exact ⟨fun hsome => (hm hsome).elim, fun hsome => (hm hsome.1).elim⟩

/-- Forms are equal if their names are and their arguments are one by one. -/
theorem sameStructure_form {f g : String} {xs ys : List Term} {p q : Pos} :
    (form f xs p).sameStructure (form g ys q) = true ↔
      f = g ∧ List.Forall₂ (fun x y => x.sameStructure y = true) xs ys := by
  rw [sameStructure, beq_iff_eq, matches?]
  by_cases hlen : xs.length = ys.length
  · by_cases hname : f = g
    · simp [hname, hlen, matchAll?_eq_some_true hlen]
    · simp [hname]
  · have hnot : ¬List.Forall₂ (fun x y => x.sameStructure y = true) xs ys :=
      fun h => hlen h.length_eq
    simp [hlen, hnot]

end Term

/-- A form is read back if its name is and its arguments are. -/
theorem sameStructure_tree {t : Token} {us : List Tree} {name : String} {args : List Term}
    {pos : Pos} (hname : t.operatorName = name) :
    (Tree.form t us).term.sameStructure (.form name args pos) = true ↔
      List.Forall₂ (fun u a => u.term.sameStructure a = true) us args := by
  rw [Tree.term, Term.sameStructure_form, Tree.terms_eq_map, List.forall₂_map_left_iff]
  simp only [hname, true_and]

/-! ### Tokens of pieces -/

/-- **The tokens that pieces are.** -/
def Spells (ps : List Piece) (ts : List Token) : Prop :=
  ts.map Token.shape = ps.filterMap Piece.shape?

theorem spells_nil {ts : List Token} (h : Spells [] ts) : ts = [] := by
  simpa [Spells] using h

theorem spells_space {ps : List Piece} {ts : List Token} (h : Spells (.space :: ps) ts) :
    Spells ps ts := h

theorem spells_cons {p : Piece} {shape : TokenKind × Term} (hs : p.shape? = some shape)
    {ps : List Piece} {ts : List Token} (h : Spells (p :: ps) ts) :
    ∃ t us, ts = t :: us ∧ t.shape = shape ∧ Spells ps us := by
  rw [Spells, List.filterMap_cons_some hs] at h
  obtain ⟨t, us, rfl, ht, hus⟩ := List.map_eq_cons_iff.1 h
  exact ⟨t, us, rfl, ht, hus⟩

theorem spells_append {ps qs : List Piece} {ts : List Token} (h : Spells (ps ++ qs) ts) :
    ∃ us vs, ts = us ++ vs ∧ Spells ps us ∧ Spells qs vs := by
  rw [Spells, List.filterMap_append] at h
  exact List.map_eq_append_iff.1 h

theorem spells_mark {m : Mark} {ps : List Piece} {ts : List Token} (h : Spells (.mark m :: ps) ts) :
    ∃ t us, ts = t :: us ∧ t.kind = .mark m ∧ Spells ps us := by
  obtain ⟨t, us, rfl, ht, hus⟩ := spells_cons rfl h
  exact ⟨t, us, rfl, congrArg Prod.fst ht, hus⟩

theorem names_of_shape {t : Token} {s : String} {kind : TokenKind}
    (h : t.shape = (kind, .str s)) (hk : kind = if isName s then .atom else .operator) :
    t.Names s := ⟨(congrArg Prod.fst h).trans hk, congrArg Prod.snd h⟩

theorem spells_word {s : String} {ps : List Piece} {ts : List Token}
    (h : Spells (.word s :: ps) ts) : ∃ t us, ts = t :: us ∧ t.Names s ∧ Spells ps us := by
  obtain ⟨t, us, rfl, ht, hus⟩ := spells_cons rfl h
  exact ⟨t, us, rfl, names_of_shape ht rfl, hus⟩

theorem spells_gap {name : String} {operand ps : List Piece} {ts : List Token}
    (h : Spells (gap name operand ++ ps) ts) : Spells ps ts := by
  unfold gap at h
  split at h
  · split at h
    · exact spells_space h
    · exact h
  · exact h

/-- The first token of printed text is a parenthesis just if its first piece is. -/
theorem Written.current_iff {r : Registry} {d : Int} {t : Term} {ps : List Piece}
    (h : Written r d t ps) {ts : List Token} (hts : Spells ps ts) (rest : List Token) :
    (current (ts ++ rest)).kind = .mark .openParen ↔ ps.head? = some (.mark .openParen) := by
  obtain ⟨p, qs, shape, rfl, hs⟩ := h.starts
  obtain ⟨t, us, rfl, ht, -⟩ := spells_cons hs hts
  have hk : (current (t :: us ++ rest)).kind = shape.1 := congrArg Prod.fst ht
  rw [hk, List.head?_cons, Option.some.injEq]
  cases p with
  | word s =>
    cases hs
    simp only [reduceCtorEq, iff_false]
    split <;> simp
  | mark m =>
    cases hs
    simp
  | _ => cases hs <;> simp

/-! ### Where expressions start and end -/

variable {p : Parser}

/-- An expression starts with a literal, a name, a symbol or an opening mark. -/
theorem starts_of_reads {d : Int} {ts rest : List Token} {xs : List Tree}
    (h : Reads p (.expression d) ts xs rest) :
    (current ts).kind ≠ .finish ∧ ∀ m, (current ts).kind = .mark m →
      m = .openParen ∨ m = .openBrace ∨ m = .openBracket := by
  cases h with
  | expression h _ =>
    cases h with
    | symbolPrefix _ hk => simp [current, hk]
    | symbolCall _ hk => simp [current, hk]
    | prefixed _ hop =>
      rcases Parser.kind_of_operatorAt? hop with hk | hk <;> simp [current, hk]
    | literal hk => rcases hk with hk | hk <;> simp [current, hk]
    | name _ hk => simp [current, hk]
    | call _ hk => simp [current, hk]
    | bodied _ hk => simp [current, hk]
    | parens hk => simp [current, hk]
    | braces hk => simp [current, hk]
    | brackets hk => simp [current, hk]

theorem first_of_items {closing : Mark} {ts rest : List Token} {xs : List Tree}
    (h : Reads p (.items closing) ts xs rest) : ∀ m, (current ts).kind = .mark m →
      m = .openParen ∨ m = .openBrace ∨ m = .openBracket := by
  cases h with
  | lastItem _ _ h => exact (starts_of_reads h).2
  | item _ h _ => exact (starts_of_reads h).2

/-- **The tokens that no expression goes on with**: the end, and all marks but an opening
parenthesis. -/
def Token.Ends (t : Token) : Prop := t.kind = .finish ∨ ∃ m, t.kind = .mark m ∧ m ≠ .openParen

theorem Token.ends_of_mark {m : Mark} {t : Token} (h : t.kind = .mark m) (hm : m ≠ .openParen) :
    t.Ends := .inr ⟨m, h, hm⟩

theorem Token.Ends.ne_openParen {t : Token} (h : t.Ends) (ts : List Token) :
    (current (t :: ts)).kind ≠ .mark .openParen := by
  rcases h with hk | ⟨m, hk, hm⟩ <;> simp [current, hk]
  exact hm

theorem Token.Ends.stops {t : Token} (h : t.Ends) (d : Int) (ts : List Token) :
    p.Stops d (t :: ts) := by
  rcases h with hk | ⟨m, hk, -⟩
  · constructor
    · simp [current, Token.spelledByList, hk]
    · simp [current, Parser.following?, Parser.operatorAt?, Token.spelling?, hk]
  · constructor
    · simp [current, Token.spelledByList, hk]
    · simp [current, Parser.following?, Parser.operatorAt?, Token.spelling?, hk]

theorem following?_mono {t : Token} {d e : Int} (h : p.following? t d = none)
    (he : e ≤ d) : p.following? t e = none := by
  simp only [Parser.following?, Option.or_eq_none_iff, Option.filter_eq_none_iff] at h ⊢
  refine ⟨fun op hop hle => h.1 op hop ?_, fun op hop hle => h.2 op hop ?_⟩
  all_goals
    simp only [decide_eq_true_eq] at hle ⊢
    omega

theorem reads_atom {t : Token} {name : String} (ht : t.Names name) (hname : isName name = true)
    (hop : p.registry.operator? .prefixed name = none) {rest : List Token}
    (hrest : (current rest).kind ≠ .mark .openParen) :
    Reads p .operand (t :: rest) [.leaf t] rest := by
  refine .name ht.spelledByList_eq (ht.kind_of_isName hname) ?_ hrest
  rwa [Parser.operatorAt?_of_spelling ht.spelling?_eq]

/-! ### Arguments and statements -/

/-- **What the pieces of an expression are read as** before a token that it does not go on with. -/
def ReadAs (p : Parser) (S : Tree → Term → Prop) (t : Term) (ps : List Piece) : Prop :=
  ∀ ts, Spells ps ts → ∃ u, S u t ∧ ∀ {s : Token} {rest : List Token}, s.Ends →
    Reads p (.expression loosest) (ts ++ s :: rest) [u] (s :: rest)

variable {S : Tree → Term → Prop}

/-- Arguments that are read one by one are read between their brackets. -/
theorem reads_arguments {args : List (Term × List Piece)} (h : ∀ a ∈ args, ReadAs p S a.1 a.2)
    {ts : List Token} (hts : Spells (commas (args.map Prod.snd)) ts) :
    ∃ us, List.Forall₂ S us (args.map Prod.fst) ∧
      ∀ {m : Mark} {t : Token} {rest : List Token}, m = .closeParen ∨ m = .closeBrace →
        t.kind = .mark m → Reads p (.arguments m) (ts ++ t :: rest) us rest := by
  cases args with
  | nil =>
    obtain rfl := spells_nil hts
    exact ⟨[], .nil, fun _ ht => .noArguments ht⟩
  | cons a args =>
    -- the items from the first on, by induction on those behind it
    suffices hitems : ∃ us, List.Forall₂ S us ((a :: args).map Prod.fst) ∧
        ∀ {m : Mark} {t : Token} {rest : List Token}, m = .closeParen ∨ m = .closeBrace →
          t.kind = .mark m → Reads p (.items m) (ts ++ t :: rest) us rest by
      obtain ⟨us, hsame, hreads⟩ := hitems
      refine ⟨us, hsame, fun {m t rest} hm ht => ?_⟩
      have hread : Reads p (.items m) (ts ++ t :: rest) us rest := hreads hm ht
      refine .someArguments (fun hk => ?_) hread
      have hstart := first_of_items hread
      rcases hm with rfl | rfl <;> simpa using hstart _ hk
    induction args generalizing a ts with
    | nil =>
      obtain ⟨u, hsame, hu⟩ := h a (by simp) ts (by simpa [commas] using hts)
      refine ⟨[u], .cons hsame .nil, fun {m t rest} hm ht => ?_⟩
      refine .lastItem (by rcases hm with rfl | rfl <;> decide) ht (hu ?_)
      exact Token.ends_of_mark ht (by rcases hm with rfl | rfl <;> decide)
    | cons b args ih =>
      rw [List.map_cons, List.map_cons, commas_cons_cons] at hts
      obtain ⟨ts₁, ts₂, rfl, hts₁, hts₂⟩ := spells_append hts
      obtain ⟨comma, ts₃, rfl, hcomma, hts₃⟩ := spells_mark hts₂
      obtain ⟨u, hsame, hu⟩ := h a (by simp) ts₁ hts₁
      obtain ⟨us, hmore, hreads⟩ := ih b (fun c hc => h c (by simp [hc])) (spells_space hts₃)
      refine ⟨u :: us, .cons hsame hmore, fun {m t rest} hm ht => ?_⟩
      rw [List.append_assoc, List.cons_append]
      exact .item hcomma (hu (Token.ends_of_mark hcomma (by decide))) (hreads hm ht)

/-- A list is read as the form of its opening brace. -/
theorem reads_list {args : List (Term × List Piece)} (h : ∀ a ∈ args, ReadAs p S a.1 a.2)
    {ts : List Token}
    (hts : Spells (.mark .openBrace :: (commas (args.map Prod.snd) ++ [.mark .closeBrace])) ts) :
    ∃ t us, t.operatorName = "List" ∧ List.Forall₂ S us (args.map Prod.fst) ∧ ∀ rest,
      (current (ts ++ rest)).kind ≠ .mark .openParen ∧
        Reads p .operand (ts ++ rest) [.form t us] rest := by
  obtain ⟨t₁, ts₁, rfl, hopen, hts₁⟩ := spells_mark hts
  obtain ⟨inner, ts₂, rfl, hinner, hts₂⟩ := spells_append hts₁
  obtain ⟨t₂, ts₃, rfl, hclose, hts₃⟩ := spells_mark hts₂
  obtain rfl := spells_nil hts₃
  obtain ⟨us, hsame, hreads⟩ := reads_arguments h hinner
  refine ⟨t₁, us, by simp [Token.operatorName, Token.head, hopen], hsame, fun rest => ?_⟩
  simp only [List.cons_append, List.append_assoc, List.nil_append]
  exact ⟨by simp [current, hopen], .braces hopen (hreads (.inr rfl) hclose)⟩

/-- A form that is written with no operator is read as the call of its name. -/
theorem reads_call {name : String} {args : List (Term × List Piece)}
    (hop : p.registry.operatorOf? name args.length = none)
    (hbodied : p.registry.operator? .bodied name = none) (h : ∀ a ∈ args, ReadAs p S a.1 a.2)
    {ts : List Token} (hts : Spells (.word name :: .mark .openParen ::
      (commas (args.map Prod.snd) ++ [.mark .closeParen])) ts) :
    ∃ t us, t.operatorName = name ∧ List.Forall₂ S us (args.map Prod.fst) ∧ ∀ rest,
      (current (ts ++ rest)).kind ≠ .mark .openParen ∧
        Reads p .operand (ts ++ rest) [.form t us] rest := by
  obtain ⟨t, ts₀, rfl, ht, hts₀⟩ := spells_word hts
  obtain ⟨t₁, ts₁, rfl, hopen, hts₁⟩ := spells_mark hts₀
  obtain ⟨inner, ts₂, rfl, hinner, hts₂⟩ := spells_append hts₁
  obtain ⟨t₂, ts₃, rfl, hclose, hts₃⟩ := spells_mark hts₂
  obtain rfl := spells_nil hts₃
  obtain ⟨us, hsame, hreads⟩ := reads_arguments h hinner
  refine ⟨t, us, ht.operatorName_eq, hsame, fun rest => ?_⟩
  simp only [List.cons_append, List.append_assoc, List.nil_append]
  refine ⟨by rcases ht.kind_cases with hk | hk <;> simp [current, hk], ?_⟩
  have hoperator : ∀ fixity, p.operatorAt? fixity t = p.registry.operator? fixity name :=
    fun _ => Parser.operatorAt?_of_spelling ht.spelling?_eq
  cases hname : isName name with
  | true =>
    exact .call ht.spelledByList_eq (ht.kind_of_isName hname) hopen
      ((hoperator _).trans hbodied) (hreads (.inl rfl) hclose)
  | false =>
    -- a symbol is called unless it is a prefix operator with one argument
    refine .symbolCall ht.spelledByList_eq (ht.kind_of_not_isName hname) hopen ?_
      (hreads (.inl rfl) hclose)
    by_cases hone : args.length = 1
    · exact .inl ((hoperator _).trans ((Registry.operatorOf?_eq_none hop).1 hone))
    · refine .inr ?_
      rw [hsame.length_eq, List.length_map]
      exact hone

theorem statements_of_expression {ts : List Token} {t : Token} {u : Tree}
    (ht : t.kind = .finish) (h : Reads p (.expression loosest) ts [u] [t]) :
    p.statements ts = .ok [u] := by
  obtain ⟨hfinish, hmark⟩ := starts_of_reads h
  refine Parser.statements_eq_ok_iff.2 ⟨[t], ?_⟩
  cases ts with
  | nil => exact absurd rfl hfinish
  | cons s ts =>
    have hsemi : s.kind ≠ .mark .semicolon := fun hk => by simpa using hmark _ hk
    exact .statement hfinish hsemi h (.inl ht) (.finish ht)

/-- A text is parsed as its tokens are read. -/
theorem parse_of_reads {source : String} {ts : List Token} {t : Token} {u : Tree}
    (htokens : (Lexer.mk p.file p.registry.operatorNames).tokens source = .ok (ts ++ [t]))
    (ht : t.kind = .finish) (h : Reads p (.expression loosest) (ts ++ [t]) [u] [t]) :
    p.parse source = .ok [u.term] := by
  have hsupply : Parser.supply (ts ++ [t]) = ts ++ [t] := if_pos (by simp [ht])
  refine bind_eq_ok_iff.2 ⟨_, htokens, bind_eq_ok_iff.2 ⟨[u], ?_, rfl⟩⟩
  rw [Parser.parseTokens, hsupply, statements_of_expression ht h]

/-- **Printed text is parsed**, as one statement, if it is read as an expression. -/
theorem ReadAs.parse_layout {t : Term} {ps : List Piece} (hr : p.registry.Regular)
    (hs : p.registry.Separates) (hw : Written p.registry loosest t ps) (h : ReadAs p S t ps) :
    ∃ u, p.parse (String.ofList (layout ps)) = .ok [u.term] ∧ S u t := by
  obtain ⟨ts, htokens, hshape⟩ := Lexer.tokens_of_written hr hs p.file hw
  obtain ⟨ts₁, ts₂, rfl, hts₁, hts₂⟩ := List.map_eq_append_iff.1 hshape
  obtain ⟨finish, ts₃, rfl, hfinish, hts₃⟩ := List.map_eq_cons_iff.1 hts₂
  obtain rfl : ts₃ = [] := by simpa using hts₃
  have hk : finish.kind = .finish := congrArg Prod.fst hfinish
  obtain ⟨u, hsame, hu⟩ := h ts₁ hts₁
  exact ⟨u, parse_of_reads htokens hk (hu (.inl hk)), hsame⟩

end TermCalc
