import TermCalc.Proofs.Registry.History
import TermCalc.Proofs.Syntax.Sources
import TermCalc.Proofs.Term.Regrouping

/-!
# Reading with tables of symbols

What the parser makes of printed text where every operator is a prefix or infix symbol, whatever its
precedence. It groups as the printer does, save for one thing: the printer puts no parentheses
around a left operand that binds just as tightly as the operator behind it, and if that operand
starts with a prefix operator, the parser takes the operator behind into its operand.

* `Registry.Symbolic`: such tables.
* `Grows`: what tokens are read as with the operators behind them, alone or behind a prefix symbol.
* `Regrouped`: how the text of an expression at a depth is read: prefix operators of just that
  depth, and what stands behind them.
* `Written.regroups`: **printed text is read as the regrouped expression.**
-/

namespace TermCalc

open TermCalc.Parser (Reads current)

/-- **A table of symbols**: every operator is infix or prefix, is spelled by operator characters
that start no comment, is the name of a builtin, and has a precedence that expressions may have. -/
structure Registry.Symbolic (r : Registry) : Prop where
  fixities : ∀ op ∈ r.operators, op.fixity = .infixed ∨ op.fixity = .prefixed
  nonempty : ∀ op ∈ r.operators, op.name ≠ ""
  symbols : ∀ op ∈ r.operators, ∀ c ∈ op.name.toList, isOperatorChar c = true
  noComment : ∀ op ∈ r.operators, startsComment op.name.toList = false
  named : ∀ op ∈ r.operators, r.contains op.name = true
  bounds : ∀ op ∈ r.operators, 0 ≤ op.precedence ∧ op.precedence ≤ loosest

variable {r : Registry} {file : String}

namespace Registry.Symbolic

variable (hr : r.Symbolic)

include hr

theorem isSymbol_of_mem {op : Operator} (h : op ∈ r.operators) :
    isSymbol r.operatorNames op.name = true := by
  have hne : op.name.toList.isEmpty = false := by
    simpa using hr.nonempty op h
  have hlength : symbolLength r.operatorNames op.name.toList = op.name.toList.length := by
    refine symbolLength_of_known ?_
    rw [String.ofList_toList]
    exact mem_operatorNames.2 ⟨op, h, rfl⟩
  simp [isSymbol, hne, hlength, hr.noComment op h, List.all_eq_true.2 (hr.symbols op h)]

theorem isName_of_mem {op : Operator} (h : op ∈ r.operators) : isName op.name = false :=
  isName_of_isSymbol (hr.isSymbol_of_mem h)

theorem operator?_of_isName {name : String} (h : isName name = true) (fixity : Fixity) :
    r.operator? fixity name = none := by
  refine Option.eq_none_iff_forall_ne_some.2 fun op hop => ?_
  obtain ⟨hm, -, rfl⟩ := operator?_eq_some hop
  rw [hr.isName_of_mem hm] at h
  cases h

theorem not_mem {op : Operator} (hf : op.fixity = .postfixed ∨ op.fixity = .bodied) :
    op ∉ r.operators := by
  intro h
  have hfixity := hr.fixities op h
  rcases hf with hf | hf <;> simp [hf] at hfixity

theorem operator?_eq_none {fixity : Fixity} (h : fixity = .postfixed ∨ fixity = .bodied)
    (name : String) : r.operator? fixity name = none := by
  refine Option.eq_none_iff_forall_ne_some.2 fun op hop => ?_
  obtain ⟨hm, rfl, -⟩ := operator?_eq_some hop
  exact hr.not_mem h hm

theorem regular : r.Regular where
  bounds := hr.bounds
  spelled _ h := by rw [hr.isSymbol_of_mem h, Bool.or_true]
  notList op h := by
    intro hlist
    have hname := hr.isName_of_mem h
    rw [hlist] at hname
    exact absurd hname (by decide)

theorem separates : r.Separates where
  prefixed op h _ hname := by
    rw [hr.isName_of_mem h] at hname
    cases hname
  postfixed _ h hf := absurd h (hr.not_mem (.inl hf))

theorem namesBodied : r.NamesBodied := fun _ h hf => absurd h (hr.not_mem (.inr hf))

/-- Only infix operators stand behind an operand. -/
theorem following?_eq (t : Token) (d : Int) : (Parser.mk r file).following? t d =
    ((Parser.mk r file).operatorAt? .infixed t).filter (·.precedence ≤ d) := by
  have hbehind : (Parser.mk r file).operatorAt? .postfixed t = none := by
    cases hs : t.spelling? with
    | none => rw [Parser.operatorAt?, hs, Option.bind_none]
    | some s => rw [Parser.operatorAt?_of_spelling hs, hr.operator?_eq_none (.inl rfl)]
  rw [Parser.following?, hbehind]
  simp

theorem following?_of_le {t : Token} {d e : Int} {op : Operator} (hde : d ≤ e)
    (h : (Parser.mk r file).following? t d = some op) :
    (Parser.mk r file).following? t e = some op := by
  rw [hr.following?_eq, Option.filter_eq_some_iff] at h ⊢
  obtain ⟨hop, hle⟩ := h
  have hle : op.precedence ≤ d := by simpa using hle
  exact ⟨hop, by simp; omega⟩

end Registry.Symbolic

/-! ### Operators behind an operand -/

/-- No operator goes on where the operators behind an operand end. -/
theorem stops_of_operators {p : Parser} {lhs x : Tree} {d : Int} {ts rest : List Token}
    (h : Reads p (.operators lhs d) ts [x] rest) : p.Stops d rest := by
  generalize hphrase : Phrase.operators lhs d = phrase at h
  generalize htrees : [x] = trees at h
  induction h generalizing lhs with
  | stop hstop =>
    cases hphrase
    exact hstop
  | infixed _ _ _ _ _ _ _ ih =>
    cases hphrase
    exact ih rfl htrees
  | postfixed _ _ _ _ _ ih =>
    cases hphrase
    exact ih rfl htrees
  | _ => cases hphrase

/-- The operators up to a depth, and then those up to a looser one, are all of the latter. -/
theorem operators_trans (hr : r.Symbolic) {lhs y x : Tree} {d e : Int} {ts mid rest : List Token}
    (hde : d ≤ e) (h : Reads ⟨r, file⟩ (.operators lhs d) ts [y] mid)
    (hmore : Reads ⟨r, file⟩ (.operators y e) mid [x] rest) :
    Reads ⟨r, file⟩ (.operators lhs e) ts [x] rest := by
  generalize hphrase : Phrase.operators lhs d = phrase at h
  generalize htrees : [y] = trees at h
  induction h generalizing lhs with
  | stop =>
    cases hphrase
    cases htrees
    exact hmore
  | infixed hplain hop hf hnamed hrhs _ _ ih =>
    cases hphrase
    exact .infixed hplain (hr.following?_of_le hde hop) hf hnamed hrhs (ih hmore rfl htrees)
  | postfixed hplain hop hf hnamed _ ih =>
    cases hphrase
    exact .postfixed hplain (hr.following?_of_le hde hop) hf hnamed (ih hmore rfl htrees)
  | _ => cases hphrase

/-! ### Prefix symbols -/

/-- The tokens of the prefix operators of a precedence. -/
def Sign (r : Registry) (d : Int) (t : Token) : Prop :=
  ∃ op, t.Names op.name ∧ r.operator? .prefixed op.name = some op ∧ op.precedence = d

theorem Sign.isSignAt {d : Int} {t : Token} (h : Sign r d t) :
    r.isSignAt d t.operatorName = true := by
  obtain ⟨op, ht, hop, hd⟩ := h
  rw [ht.operatorName_eq]
  exact Registry.isSignAt_iff.2 ⟨op, hop, hd⟩

/-- A tree behind prefix operators. -/
def signed (signs : List Token) (x : Tree) : Tree := signs.foldr (fun t x => .form t [x]) x

@[simp] theorem signed_nil (x : Tree) : signed [] x = x := rfl

@[simp] theorem signed_cons (t : Token) (signs : List Token) (x : Tree) :
    signed (t :: signs) x = .form t [signed signs x] := rfl

theorem isPrefixAt_form {t : Token} {x : Tree} {d : Int} :
    r.isPrefixAt d (Tree.form t [x]).term = r.isSignAt d t.operatorName := rfl

/-- Prefix operators of one precedence are none of another. -/
theorem not_isPrefixAt_signed {d e : Int} {signs : List Token} {x : Tree}
    (hsigns : ∀ s ∈ signs, Sign r d s) (hx : signs = [] → r.isPrefixAt e x.term = false)
    (hne : d ≠ e) : r.isPrefixAt e (signed signs x).term = false := by
  cases signs with
  | nil => exact hx rfl
  | cons s signs =>
    obtain ⟨op, hop, hd⟩ := Registry.isSignAt_iff.1 (hsigns s (by simp)).isSignAt
    rw [signed_cons, isPrefixAt_form, ← Bool.not_eq_true]
    intro hsign
    obtain ⟨op', hop', he⟩ := Registry.isSignAt_iff.1 hsign
    cases hop.symm.trans hop'
    exact hne (hd.symm.trans he)

/-- What goes on with a tree behind prefix operators is grafted behind them. -/
theorem sameStructure_graft {d : Int} {signs : List Token} {x y : Tree} {t : Term}
    {f : Term → Term} (hsigns : ∀ s ∈ signs, Sign r d s) (hx : r.isPrefixAt d x.term = false)
    (hsame : (signed signs x).term.sameStructure t = true)
    (hy : ∀ u, x.term.sameStructure u = true → y.term.sameStructure (f u) = true) :
    (signed signs y).term.sameStructure (r.graft d f t) = true := by
  induction signs generalizing t with
  | nil =>
    have hbare : r.isPrefixAt d t = false := by rw [← Term.isPrefixAt_congr hsame]; exact hx
    rw [Registry.graft_of_not hbare]
    exact hy t hsame
  | cons s signs ih =>
    have hsign := (hsigns s (by simp)).isSignAt
    have hsigned : r.isPrefixAt d t = true := by
      rw [← Term.isPrefixAt_congr hsame]
      exact hsign
    obtain ⟨name, u, pos, rfl, -⟩ := Registry.exists_of_isPrefixAt hsigned
    obtain ⟨hname, hu⟩ := Term.sameStructure_form.1 hsame
    rw [hname] at hsign
    rw [Registry.graft_of_isSignAt hsign]
    have hrest := ih (fun s' h => hsigns s' (by simp [h])) (List.forall₂_cons.1 hu).1
    exact (sameStructure_tree hname).2 (.cons hrest .nil)

/-! ### How text is read -/

/-- **What tokens are read as, with the operators behind them up to a depth**: alone, and as the
operand of any prefix symbol of that depth in front of them. -/
structure Grows (r : Registry) (file : String) (e : Int) (ts : List Token) (x : Tree)
    (rest : List Token) : Prop where
  alone : Reads ⟨r, file⟩ (.expression e) ts [x] rest
  behind : ∀ {s : Token}, Sign r e s → Reads ⟨r, file⟩ .operand (s :: ts) [.form s [x]] rest

/-- What may stand behind text at a depth: no parenthesis, and no operator that binds tighter. -/
structure Clear (r : Registry) (file : String) (d : Int) (ts : List Token) : Prop where
  notOpen : (current ts).kind ≠ .mark .openParen
  plain : (current ts).spelledByList = false
  tighter : ∀ e, e < d → (Parser.mk r file).following? (current ts) e = none

theorem Clear.stops {d e : Int} {ts : List Token} (h : Clear r file d ts) (he : e < d) :
    (Parser.mk r file).Stops e ts := ⟨h.plain, h.tighter e he⟩

theorem Clear.mono {d e : Int} {ts : List Token} (h : Clear r file d ts) (he : e ≤ d) :
    Clear r file e ts := ⟨h.notOpen, h.plain, fun _ hlt => h.tighter _ (by omega)⟩

theorem clear_of_ends {t : Token} (h : t.Ends) (d : Int) (ts : List Token) :
    Clear r file d (t :: ts) := by
  have hstops : ∀ e, (Parser.mk r file).Stops e (t :: ts) := fun e => h.stops e ts
  exact ⟨h.ne_openParen ts, (hstops d).1, fun e _ => (hstops e).2⟩

section Reading

variable (hr : r.Symbolic)

include hr

theorem Sign.spec {d : Int} {s : Token} (h : Sign r d s) (file : String) :
    s.spelledByList = false ∧ s.kind = .operator ∧
      ∃ op, (Parser.mk r file).operatorAt? .prefixed s = some op ∧
        r.contains op.name = true ∧ op.precedence = d := by
  obtain ⟨op, hs, hop, hd⟩ := h
  have hm := (Registry.operator?_eq_some hop).1
  refine ⟨hs.spelledByList_eq, hs.kind_of_not_isName (hr.isName_of_mem hm), op, ?_,
    hr.named op hm, hd⟩
  rwa [Parser.operatorAt?_of_spelling hs.spelling?_eq]

theorem following?_infixed {op : Operator} (hop : r.operator? .infixed op.name = some op)
    {t : Token} (ht : t.Names op.name) (e : Int) :
    (Parser.mk r file).following? t e = if op.precedence ≤ e then some op else none := by
  rw [hr.following?_eq, Parser.operatorAt?_of_spelling ht.spelling?_eq]
  simp [hop, Option.filter_some]

theorem clear_of_infixed {op : Operator} (hop : r.operator? .infixed op.name = some op)
    {t : Token} (ht : t.Names op.name) (ts : List Token) :
    Clear r file op.precedence (t :: ts) := by
  refine ⟨?_, ht.spelledByList_eq, fun e he => ?_⟩
  · rcases ht.kind_cases with hk | hk <;> simp [current, hk]
  · exact (following?_infixed hr hop ht e).trans (if_neg (by omega))

/-- An infix operator takes what stands before it and the operand behind it. -/
theorem operators_infixed {op : Operator} (hop : r.operator? .infixed op.name = some op)
    {t : Token} (ht : t.Names op.name) {e : Int} (he : op.precedence ≤ e) {lhs rhs x : Tree}
    {ts mid rest : List Token}
    (hrhs : Reads ⟨r, file⟩ (.expression (op.precedence - 1)) ts [rhs] mid)
    (h : Reads ⟨r, file⟩ (.operators (.form t [lhs, rhs]) e) mid [x] rest) :
    Reads ⟨r, file⟩ (.operators lhs e) (t :: ts) [x] rest := by
  obtain ⟨hm, hf, -⟩ := Registry.operator?_eq_some hop
  exact .infixed ht.spelledByList_eq ((following?_infixed hr hop ht e).trans (if_pos he)) hf
    (hr.named op hm) hrhs h

theorem grows_of_expression {e : Int} {ts rest : List Token} {x : Tree}
    (hopen : (current ts).kind ≠ .mark .openParen)
    (h : Reads ⟨r, file⟩ (.expression e) ts [x] rest) : Grows r file e ts x rest := by
  refine ⟨h, fun {s} hs => ?_⟩
  obtain ⟨hplain, -, op, hop, hnamed, hd⟩ := hs.spec hr file
  rw [← hd] at h
  exact .prefixed hplain hop hopen hnamed h

/-- An expression in parentheses starts the operand of a prefix symbol, too. -/
theorem grows_of_parens {e : Int} {t u : Token} {ts mid rest : List Token} {first x : Tree}
    (ht : t.kind = .mark .openParen) (hu : u.kind = .mark .closeParen)
    (hfirst : Reads ⟨r, file⟩ (.expression loosest) ts [first] (u :: mid))
    (h : Reads ⟨r, file⟩ (.operators first e) mid [x] rest) : Grows r file e (t :: ts) x rest := by
  refine ⟨.expression (.parens ht hu hfirst) h, fun {s} hs => ?_⟩
  obtain ⟨hplain, hk, op, hop, hnamed, hd⟩ := hs.spec hr file
  rw [← hd] at h
  have harguments : Reads ⟨r, file⟩ (.arguments .closeParen) ts [first] mid := by
    refine .someArguments (fun hclose => ?_) (.lastItem (by decide) hu hfirst)
    simpa using (starts_of_reads hfirst).2 _ hclose
  exact .symbolPrefix hplain hk ht hop hnamed harguments h

end Reading

/-- **How the text of an expression at a depth is read**: as prefix operators of just that depth,
and behind them a tree that is the form of none. Operators of that depth behind the text go on with the
tree alone, looser ones with all. -/
structure Regrouped (r : Registry) (file : String) (d : Int) (t : Term) (ts signs : List Token)
    (core : Tree) : Prop where
  signs_at : ∀ s ∈ signs, Sign r d s
  bare : r.isPrefixAt d core.term = false
  same : (signed signs core).term.sameStructure (r.regroup t) = true
  reads : ∀ {e : Int} {rest mid rest' : List Token} {y x : Tree}, d ≤ e → Clear r file d rest →
    Reads ⟨r, file⟩ (.operators core d) rest [y] mid →
    Reads ⟨r, file⟩ (.operators (signed signs y) e) mid [x] rest' →
    Grows r file e (ts ++ rest) x rest'

/-- That pieces are read so. -/
def Regroups (r : Registry) (file : String) (d : Int) (t : Term) (ps : List Piece) : Prop :=
  ∀ ts, Spells ps ts → ∃ signs core, Regrouped r file d t ts signs core

/-- What no operator of the depth goes on with is read as a whole. -/
theorem Regrouped.alone {d e : Int} {t : Term} {ts signs : List Token} {core : Tree}
    (h : Regrouped r file d t ts signs core) (he : d ≤ e) {rest : List Token}
    (hclear : Clear r file d rest) (hstops : (Parser.mk r file).Stops e rest) :
    Reads ⟨r, file⟩ (.expression e) (ts ++ rest) [signed signs core] rest := by
  have hcore : (Parser.mk r file).Stops d rest := ⟨hstops.1, following?_mono hstops.2 he⟩
  exact (h.reads he hclear (.stop hcore) (.stop hstops)).alone

/-- **What the text of an expression is read as**: the expression regrouped. -/
def ReadsRegrouped (r : Registry) (u : Tree) (t : Term) : Prop :=
  u.term.sameStructure (r.regroup t) = true

theorem Regroups.readAs {t : Term} {ps : List Piece} (h : Regroups r file loosest t ps) :
    ReadAs ⟨r, file⟩ (ReadsRegrouped r) t ps := by
  intro ts hts
  obtain ⟨signs, core, hread⟩ := h ts hts
  exact ⟨signed signs core, hread.same, fun hends =>
    hread.alone (Int.le_refl _) (clear_of_ends hends _ _) (hends.stops _ _)⟩

section Cases

variable (hr : r.Symbolic) {d : Int}

include hr

/-- An expression whose text starts with no prefix operator of the depth. -/
theorem Regrouped.of_core {t : Term} {ts : List Token} {core : Tree}
    (hbare : r.isPrefixAt d core.term = false)
    (hsame : core.term.sameStructure (r.regroup t) = true)
    (hreads : ∀ {e : Int} {rest rest' : List Token} {x : Tree}, d ≤ e → Clear r file d rest →
      Reads ⟨r, file⟩ (.operators core e) rest [x] rest' → Grows r file e (ts ++ rest) x rest') :
    Regrouped r file d t ts [] core where
  signs_at := by simp
  bare := hbare
  same := hsame
  reads he hclear hy hx := hreads he hclear (operators_trans hr he hy hx)

theorem regroups_parens {t : Term} {ps : List Piece} (hd : d < r.precedence t)
    (ih : Regroups r file loosest t ps) :
    Regroups r file d t (.mark .openParen :: (ps ++ [.mark .closeParen])) := by
  intro ts hts
  obtain ⟨t₁, ts₁, rfl, hopen, hts₁⟩ := spells_mark hts
  obtain ⟨inner, ts₂, rfl, hinner, hts₂⟩ := spells_append hts₁
  obtain ⟨t₂, ts₃, rfl, hclose, hts₃⟩ := spells_mark hts₂
  obtain rfl := spells_nil hts₃
  obtain ⟨u, hsame, hu⟩ := ih.readAs inner hinner
  have hends := Token.ends_of_mark hclose (by decide)
  refine ⟨[], u, .of_core hr ?_ hsame fun {e rest rest' x} _ _ hmore => ?_⟩
  · -- the expression is looser than the depth, and so is the tree
    rw [← Bool.not_eq_true]
    intro hsigned
    rw [Term.isPrefixAt_congr hsame] at hsigned
    have hprecedence := Registry.precedence_of_isPrefixAt hsigned
    rw [Registry.precedence_regroup] at hprecedence
    omega
  · simp only [List.cons_append, List.append_assoc, List.nil_append]
    exact grows_of_parens hr hopen hclose (hu hends) hmore

theorem regroups_atom {name : String} {pos : Pos} (hname : isName name = true) :
    Regroups r file d (.atom name pos) [.word name] := by
  intro ts hts
  obtain ⟨t, ts', rfl, ht, hts'⟩ := spells_word hts
  obtain rfl := spells_nil hts'
  have hk := ht.kind_of_isName hname
  have hterm : (Tree.leaf t).term = .atom name t.pos := by
    simp [Tree.term, Token.term, hk, ht.value]
  refine ⟨[], .leaf t, .of_core hr ?_ ?_ fun {e rest rest' x} _ hclear hmore => ?_⟩
  · rw [hterm]
    rfl
  · simp [hterm, Registry.regroup, Term.sameStructure, Term.matches?]
  · refine grows_of_expression hr (by simp [current, hk]) (.expression ?_ hmore)
    exact reads_atom ht hname (hr.operator?_of_isName hname _) hclear.notOpen

theorem regroups_literal {t : Term} {p : Piece} {kind : TokenKind} {value : Term}
    (hp : p.shape? = some (kind, value)) (hkind : kind = .number ∨ kind = .string)
    (hterm : ∀ s : Token, s.shape = (kind, value) →
      r.isPrefixAt d s.term = false ∧ s.term.sameStructure (r.regroup t) = true) :
    Regroups r file d t [p] := by
  intro ts hts
  obtain ⟨s, ts', rfl, hs, hts'⟩ := spells_cons hp hts
  obtain rfl := spells_nil hts'
  have hk : s.kind = kind := congrArg Prod.fst hs
  obtain ⟨hbare, hsame⟩ := hterm s hs
  refine ⟨[], .leaf s, .of_core hr hbare hsame fun {e rest rest' x} _ _ hmore => ?_⟩
  rw [← hk] at hkind
  refine grows_of_expression hr ?_ (.expression (.literal hkind) hmore)
  rcases hkind with hkind | hkind <;> simp [current, hkind]

theorem regroups_numeral {n : Nat} {pos : Pos} :
    Regroups r file d (.numeral (.int n) pos) [.digits n] := by
  refine regroups_literal hr rfl (.inl rfl) fun s hs => ?_
  have hterm : s.term = .numeral (.int n) s.pos := by
    have hk : s.kind = .number := congrArg Prod.fst hs
    have hv : s.value = .num (.int n) := congrArg Prod.snd hs
    simp [Token.term, hk, hv]
  rw [hterm]
  exact ⟨rfl, by simp [Registry.regroup, Term.sameStructure, Term.matches?, Num.equal]⟩

theorem regroups_text {s : String} {pos : Pos} :
    Regroups r file d (.text s pos) [.quote s] := by
  refine regroups_literal hr rfl (.inr rfl) fun t ht => ?_
  have hterm : t.term = .text s t.pos := by
    have hk : t.kind = .string := congrArg Prod.fst ht
    have hv : t.value = .str s := congrArg Prod.snd ht
    simp [Token.term, hk, hv]
  rw [hterm]
  exact ⟨rfl, by simp [Registry.regroup, Term.sameStructure, Term.matches?]⟩

/-- A form that is written with no operator, as it is read from its tokens. -/
theorem regrouped_of_arguments {name : String} {args : List Term} {pos : Pos} {t : Token}
    {ts : List Token} {us : List Tree} (hname : t.operatorName = name)
    (hop : r.operatorOf? name args.length = none) (hsame : List.Forall₂ (ReadsRegrouped r) us args)
    (hreads : ∀ rest, (current (ts ++ rest)).kind ≠ .mark .openParen ∧
      Reads ⟨r, file⟩ .operand (ts ++ rest) [.form t us] rest) :
    Regrouped r file d (.form name args pos) ts [] (.form t us) := by
  refine .of_core hr ?_ ?_ fun {e rest rest' x} _ _ hmore => ?_
  · -- with one argument it would be written with the prefix operator
    rw [← Bool.not_eq_true]
    intro hsigned
    obtain ⟨name', x, pos', heq, hsign⟩ := Registry.exists_of_isPrefixAt hsigned
    simp only [Tree.term, hname, Term.form.injEq] at heq
    obtain ⟨rfl, hone, -⟩ := heq
    obtain ⟨op, hprefixed, -⟩ := Registry.isSignAt_iff.1 hsign
    have hlen : args.length = 1 := by
      have hone := congrArg List.length hone
      rwa [Tree.terms_eq_map, List.length_map, hsame.length_eq] at hone
    rw [(Registry.operatorOf?_eq_none hop).1 hlen] at hprefixed
    cases hprefixed
  · rw [Registry.regroup_form, Registry.formOf_of_not_infixed, sameStructure_tree hname,
      List.forall₂_map_right_iff]
    · exact hsame
    · rw [List.length_map]
      exact Registry.operator?_infixed_of_none hop
  · obtain ⟨hopen, hoperand⟩ := hreads rest
    exact grows_of_expression hr hopen (.expression hoperand hmore)

theorem regroups_list {args : List (Term × List Piece)} {pos : Pos}
    (ih : ∀ a ∈ args, Regroups r file loosest a.1 a.2) :
    Regroups r file d (.form "List" (args.map Prod.fst) pos)
      (.mark .openBrace :: (commas (args.map Prod.snd) ++ [.mark .closeBrace])) := by
  intro ts hts
  obtain ⟨t, us, hname, hsame, hreads⟩ := reads_list (fun a ha => (ih a ha).readAs) hts
  exact ⟨[], _, regrouped_of_arguments hr hname (hr.regular.operatorOf?_list _) hsame hreads⟩

theorem regroups_call {name : String} {args : List (Term × List Piece)} {pos : Pos}
    (hop : r.operatorOf? name args.length = none)
    (ih : ∀ a ∈ args, Regroups r file loosest a.1 a.2) :
    Regroups r file d (.form name (args.map Prod.fst) pos)
      (.word name :: .mark .openParen :: (commas (args.map Prod.snd) ++ [.mark .closeParen])) := by
  intro ts hts
  have hbodied := hr.operator?_eq_none (.inr rfl) name
  obtain ⟨t, us, hname, hsame, hreads⟩ :=
    reads_call hop hbodied (fun a ha => (ih a ha).readAs) hts
  exact ⟨[], _, regrouped_of_arguments hr hname (by simpa using hop) hsame hreads⟩

theorem regroups_infixed {op : Operator} {a b : Term} {ps qs : List Piece} {pos : Pos}
    (hop : r.operator? .infixed op.name = some op) (hd : op.precedence ≤ d)
    (iha : Regroups r file op.precedence a ps) (ihb : Regroups r file (op.precedence - 1) b qs) :
    Regroups r file d (.form op.name [a, b] pos)
      (ps ++ .space :: .word op.name :: .space :: qs) := by
  intro ts hts
  obtain ⟨ts₁, ts₂, rfl, hts₁, hts₂⟩ := spells_append hts
  obtain ⟨t, ts₃, rfl, ht, hts₃⟩ := spells_word (spells_space hts₂)
  obtain ⟨signs, core, ha⟩ := iha ts₁ hts₁
  obtain ⟨signs', core', hb⟩ := ihb ts₃ (spells_space hts₃)
  have hrhs : ∀ {rest}, Clear r file d rest → Reads ⟨r, file⟩ (.expression (op.precedence - 1))
      (ts₃ ++ rest) [signed signs' core'] rest := fun hclear =>
    hb.alone (Int.le_refl _) (hclear.mono (by omega)) (hclear.stops (by omega))
  -- the operator goes on with what stands behind the prefix operators of its precedence
  have hsame : (signed signs (.form t [core, signed signs' core'])).term.sameStructure
      (r.regroup (.form op.name [a, b] pos)) = true := by
    rw [Registry.regroup_form, List.map_cons, List.map_cons, List.map_nil,
      Registry.formOf_of_infixed hop]
    refine sameStructure_graft ha.signs_at ha.bare ha.same fun u hu => ?_
    exact (sameStructure_tree ht.operatorName_eq).2 (.cons hu (.cons hb.same .nil))
  have hclear : ∀ rest, Clear r file op.precedence (t :: rest) := clear_of_infixed hr hop ht
  rcases Int.lt_or_eq_of_le hd with hlt | rfl
  · refine ⟨[], _, .of_core hr (not_isPrefixAt_signed ha.signs_at (fun _ => rfl) (by omega)) hsame
      fun {e rest rest' x} he hrest hmore => ?_⟩
    have hwhole : Reads ⟨r, file⟩ (.operators core op.precedence) (t :: ts₃ ++ rest)
        [.form t [core, signed signs' core']] rest :=
      operators_infixed hr hop ht (Int.le_refl _) (hrhs hrest) (.stop (hrest.stops hlt))
    rw [List.append_assoc]
    exact ha.reads (by omega) (hclear _) hwhole hmore
  · refine ⟨signs, _, ha.signs_at, rfl, hsame, fun {e rest mid rest' y x} he hrest hy hmore => ?_⟩
    rw [List.append_assoc]
    exact ha.reads he (hclear _) (operators_infixed hr hop ht (Int.le_refl _) (hrhs hrest) hy) hmore

theorem regroups_prefixed {op : Operator} {a : Term} {ps : List Piece} {pos : Pos}
    (hop : r.operator? .prefixed op.name = some op) (hd : op.precedence ≤ d)
    (ih : Regroups r file op.precedence a ps) :
    Regroups r file d (.form op.name [a] pos) (.word op.name :: (gap op.name ps ++ ps)) := by
  intro ts hts
  obtain ⟨t, ts₁, rfl, ht, hts₁⟩ := spells_word hts
  obtain ⟨signs, core, ha⟩ := ih ts₁ (spells_gap hts₁)
  have hsign : Sign r op.precedence t := ⟨op, ht, hop, rfl⟩
  have hsigns : ∀ s ∈ t :: signs, Sign r op.precedence s :=
    List.forall_mem_cons.2 ⟨hsign, ha.signs_at⟩
  have hopen : t.kind ≠ .mark .openParen := by
    rcases ht.kind_cases with hk | hk <;> simp [hk]
  have hsame : (signed (t :: signs) core).term.sameStructure
      (r.regroup (.form op.name [a] pos)) = true := by
    rw [Registry.regroup_form, Registry.formOf_of_not_infixed (by simp)]
    exact (sameStructure_tree ht.operatorName_eq).2 (.cons ha.same .nil)
  -- the operand takes all operators of the precedence that stand behind it
  have hoperand : ∀ {rest mid y}, Clear r file op.precedence rest →
      Reads ⟨r, file⟩ (.operators core op.precedence) rest [y] mid →
      Reads ⟨r, file⟩ .operand (t :: ts₁ ++ rest) [signed (t :: signs) y] mid := fun hclear hy =>
    (ha.reads (Int.le_refl _) hclear hy (.stop (stops_of_operators hy))).behind hsign
  rcases Int.lt_or_eq_of_le hd with hlt | rfl
  · refine ⟨[], _, .of_core hr (not_isPrefixAt_signed hsigns (fun h => nomatch h) (by omega)) hsame
      fun {e rest rest' x} _ hclear hmore => ?_⟩
    have hwhole := hoperand (hclear.mono hd) (.stop (hclear.stops hlt))
    exact grows_of_expression hr hopen (.expression hwhole hmore)
  · exact ⟨t :: signs, core, hsigns, ha.bare, hsame, fun _ hclear hy hmore =>
      grows_of_expression hr hopen (.expression (hoperand hclear hy) hmore)⟩

end Cases

/-- **Printed text is read as the regrouped expression.** -/
theorem Written.regroups (hr : r.Symbolic) {d : Int} {t : Term} {ps : List Piece}
    (h : Written r d t ps) (file : String) : Regroups r file d t ps := by
  induction h with
  | parens hd _ ih => exact regroups_parens hr hd ih
  | atom _ hname _ => exact regroups_atom hr hname
  | numeral => exact regroups_numeral hr
  | text => exact regroups_text hr
  | list _ _ ih => exact regroups_list hr ih
  | call _ _ _ hop _ _ ih => exact regroups_call hr hop ih
  | infixed hop hf hd _ _ iha ihb =>
    exact regroups_infixed hr (hf ▸ Registry.operator?_of_operatorOf? hop) hd iha ihb
  | prefixed hop hf hd _ ih =>
    exact regroups_prefixed hr (hf ▸ Registry.operator?_of_operatorOf? hop) hd ih
  | postfixed hop hf => exact absurd (Registry.operatorOf?_eq_some hop).1 (hr.not_mem (.inl hf))
  | bodied hop hf => exact absurd (Registry.operatorOf?_eq_some hop).1 (hr.not_mem (.inr hf))

end TermCalc
