import TermCalc.Proofs.Syntax.Nodes
import TermCalc.Proofs.Syntax.Regrouping
import TermCalc.Proofs.Syntax.Rereading
import TermCalc.Proofs.Syntax.Tiling

/-!
# The parentheses of printed text

The parentheses of printed text are as few as the parser can do with: every text that it reads as a
formula pays for each pair that the precedences ask for, with a parenthesis of its own or with the
comma of a call. So no pair of printed text can be left out.

* `Formula`: atoms, infix operators and factorials.
* `Term.pairs`: the pairs of parentheses that an expression needs at a depth.
* `worth`: what a character pays for. `Token.worth`: the same of a token.
* `Affords`: that tokens pay for what is read from them. `affords_of_reads`: **they always do**.
* `Formula.written`: the printer spends no more than is needed.
* `Formula.parse_deleted`: **without one of its pairs the text is not read as the formula.**
-/

namespace TermCalc

open TermCalc.Parser (Reads Takes current takes_of_reads)

/-- **Formulas of the core table**: atoms, infix operators and factorials. -/
inductive Formula : Term → Prop
  | atom {name : String} {pos : Pos} : isName name = true → name ∉ coreRegistry.operatorNames →
      Formula (.atom name pos)
  | infixed {op : Operator} {a b : Term} {pos : Pos} : op ∈ coreRegistry.operators →
      op.fixity = .infixed → Formula a → Formula b → Formula (.form op.name [a, b] pos)
  | factorial {a : Term} {pos : Pos} : Formula a → Formula (.form "!" [a] pos)

attribute [local irreducible] coreRegistry

/-- The precedence of the operator that a form is written with. -/
def looseness (name : String) (count : Nat) : Int :=
  Registry.precedenceOf (coreRegistry.operatorOf? name count)

/-- **The pairs of parentheses that an expression needs** at a depth: one around each part that is
looser than its place, a right operand being placed more tightly than a left one. -/
def Term.pairs : Int → Term → Nat
  | d, .form name [a, b] _ =>
    (if d < looseness name 2 then 1 else 0) + a.pairs (looseness name 2) +
      b.pairs (looseness name 2 - 1)
  | d, .form name [a] _ =>
    (if d < looseness name 1 then 1 else 0) + a.pairs (looseness name 1)
  | _, _ => 0

/-! ### What characters and tokens pay for -/

/-- **What a character pays for**: an opening parenthesis for one pair, a comma for the two around
the arguments beside it. -/
def worth (c : Char) : Nat := if c = '(' then 1 else if c = ',' then 2 else 0

/-- What a text pays for. -/
def worthOf : List Char → Nat
  | [] => 0
  | c :: cs => worth c + worthOf cs

@[simp] theorem worthOf_nil : worthOf [] = 0 := rfl

@[simp] theorem worthOf_cons (c : Char) (cs : List Char) :
    worthOf (c :: cs) = worth c + worthOf cs := rfl

@[simp] theorem worthOf_append (cs ds : List Char) :
    worthOf (cs ++ ds) = worthOf cs + worthOf ds := by
  induction cs with
  | nil => exact (Nat.zero_add _).symm
  | cons c cs ih => rw [List.cons_append, worthOf_cons, worthOf_cons, ih, Nat.add_assoc]

/-- What a token pays for: that is what its character does, if it is a mark. -/
def Token.worth (t : Token) : Nat :=
  match t.kind with
  | .mark m => TermCalc.worth m.char
  | _ => 0

/-- What tokens pay for. -/
def Token.worthOf : List Token → Nat
  | [] => 0
  | t :: ts => t.worth + Token.worthOf ts

@[simp] theorem Token.worthOf_cons (t : Token) (ts : List Token) :
    Token.worthOf (t :: ts) = t.worth + Token.worthOf ts := rfl

theorem Token.worth_of_mark {t : Token} {m : Mark} (h : t.kind = .mark m) :
    t.worth = TermCalc.worth m.char := by rw [worth, h]

theorem drop_eq_slice_append (text : List Char) {i j : Nat} (h : i ≤ j) :
    text.drop i = slice text i j ++ text.drop j := by
  have hdrop : text.drop j = (text.drop i).drop (j - i) := by
    rw [List.drop_drop, Nat.add_sub_cancel' h]
  rw [slice, List.drop_take, hdrop, List.take_append_drop]

namespace Lexer

theorem worthOf_tiles {known : List String} {text : List Char} {first : Int} {start : Nat}
    {ts : List Token} (h : Tiles known text first start ts) :
    Token.worthOf ts ≤ worthOf (text.drop start) := by
  induction h with
  | finish => simp [Token.worthOf, Token.worth, Token.ofEnd]
  | @token start i j t ts hi hij _ _ hlex _ _ ih =>
    have ht : t.worth ≤ worthOf (slice text i j) := by
      unfold Token.worth
      split
      · rename_i m hk
        rw [Lexeme, hk] at hlex
        simp [hlex.1]
      · exact Nat.zero_le _
    rw [drop_eq_slice_append text hi, drop_eq_slice_append text (Nat.le_of_lt hij)]
    simp only [Token.worthOf_cons, worthOf_append]
    omega

/-- **The tokens of a source pay for no more than its characters.** -/
theorem worthOf_tokens {l : Lexer} {source : String} {ts : List Token}
    (h : l.tokens source = .ok ts) : Token.worthOf ts ≤ worthOf source.toList := by
  unfold tokens tokensFrom at h
  dsimp only at h
  split at h
  · rename_i hfail
    cases h
    exact worthOf_tiles (tiles_of_scan (Cursor.stands_start source 1) hfail)
  · cases h

end Lexer

/-! ### The pairs of formulas -/

namespace Term

theorem pairs_antitone {d e : Int} (h : d ≤ e) (t : Term) : t.pairs e ≤ t.pairs d := by
  unfold pairs
  split
  · split <;> split <;> omega
  · split <;> split <;> omega
  · exact Nat.le_refl _

/-- One more pair is enough at every depth. -/
theorem pairs_le_add_one (d e : Int) (t : Term) : t.pairs d ≤ t.pairs e + 1 := by
  unfold pairs
  split
  · split <;> split <;> omega
  · split <;> split <;> omega
  · exact Nat.zero_le _

end Term

theorem looseness_of_infixed {op : Operator} (hm : op ∈ coreRegistry.operators)
    (hf : op.fixity = .infixed) : looseness op.name 2 = op.precedence := by
  rw [looseness, CoreTable.operatorOf?_of_infixed hm hf]
  rfl

theorem looseness_factorial : looseness "!" 1 = 0 := by
  rw [looseness, CoreTable.operatorOf?_factorial]
  rfl

/-- A formula with an operator is one of two operands or of one. -/
theorem Formula.cases_form {name : String} {args : List Term} {pos : Pos}
    (h : Formula (.form name args pos)) :
    (∃ op a b, op ∈ coreRegistry.operators ∧ op.fixity = .infixed ∧ name = op.name ∧
        args = [a, b] ∧ Formula a ∧ Formula b) ∨
      name = "!" ∧ ∃ a, args = [a] ∧ Formula a := by
  cases h with
  | infixed hm hf ha hb => exact .inl ⟨_, _, _, hm, hf, rfl, rfl, ha, hb⟩
  | factorial ha => exact .inr ⟨rfl, _, rfl, ha⟩

theorem Formula.operands {name : String} {args : List Term} {pos : Pos}
    (h : Formula (.form name args pos)) : ∀ a ∈ args, Formula a := by
  rcases h.cases_form with ⟨_, a, b, -, -, -, rfl, ha, hb⟩ | ⟨-, a, rfl, ha⟩
  · simp [ha, hb]
  · simp [ha]

theorem Formula.pairs_infixed {op : Operator} (hm : op ∈ coreRegistry.operators)
    (hf : op.fixity = .infixed) (a b : Term) (pos : Pos) (d : Int) :
    (Term.form op.name [a, b] pos).pairs d =
      (if d < op.precedence then 1 else 0) + a.pairs op.precedence +
        b.pairs (op.precedence - 1) := by
  rw [Term.pairs, looseness_of_infixed hm hf]

theorem Formula.pairs_factorial (a : Term) (pos : Pos) {d : Int} (hd : 0 ≤ d) :
    (Term.form "!" [a] pos).pairs d = a.pairs 0 := by
  rw [Term.pairs, looseness_factorial, if_neg (by omega), Nat.zero_add]

/-- The pairs of arguments, and what the commas between them pay for. -/
def argumentPairs : List Term → Nat
  | [] => 0
  | [a] => a.pairs loosest
  | a :: args => a.pairs loosest + 2 + argumentPairs args

theorem argumentPairs_cons_le (a : Term) (args : List Term) :
    argumentPairs (a :: args) ≤ a.pairs loosest + 2 + argumentPairs args := by
  cases args with
  | nil => simp only [argumentPairs]; omega
  | cons b args => exact Nat.le_refl _

/-- Written as a call, a formula needs no more than the pair of the call. -/
theorem Formula.pairs_le_call {name : String} {args : List Term} {pos : Pos}
    (h : Formula (.form name args pos)) :
    (Term.form name args pos).pairs 0 ≤ argumentPairs args + 1 := by
  rcases h.cases_form with ⟨op, a, b, hm, hf, rfl, rfl, -, -⟩ | ⟨rfl, a, rfl, -⟩
  · have ha := Term.pairs_le_add_one op.precedence loosest a
    have hb := Term.pairs_le_add_one (op.precedence - 1) loosest b
    rw [pairs_infixed hm hf]
    simp only [argumentPairs]
    split <;> omega
  · have ha := Term.pairs_le_add_one 0 loosest a
    rw [pairs_factorial a pos (Int.le_refl 0)]
    simpa [argumentPairs] using ha

/-! ### What is read is paid for -/

variable {file : String}

theorem names_of_operatorAt? {fixity : Fixity} {t : Token} {op : Operator}
    (ht : t.Sound coreRegistry.operatorNames)
    (h : (coreParser file).operatorAt? fixity t = some op) :
    t.Names op.name ∧ op ∈ coreRegistry.operators ∧ op.fixity = fixity := by
  obtain ⟨s, hs, -⟩ := ht.names (Parser.kind_of_operatorAt? h)
  rw [Parser.operatorAt?_of_spelling hs.spelling?_eq] at h
  obtain ⟨hm, hf, rfl⟩ := Registry.operator?_eq_some h
  exact ⟨hs, hm, hf⟩

/-- The operators behind an operand are infix and postfix ones. -/
theorem names_of_following? {t : Token} {d : Int} {op : Operator}
    (ht : t.Sound coreRegistry.operatorNames) (h : (coreParser file).following? t d = some op) :
    t.Names op.name ∧ op ∈ coreRegistry.operators ∧
      (op.fixity = .infixed ∨ op.fixity = .postfixed) ∧ op.precedence ≤ d := by
  unfold Parser.following? at h
  simp only [Option.or_eq_some_iff, Option.filter_eq_some_iff, decide_eq_true_eq] at h
  rcases h with ⟨hop, hle⟩ | ⟨-, hop, hle⟩
  · obtain ⟨hs, hm, hf⟩ := names_of_operatorAt? ht hop
    exact ⟨hs, hm, .inl hf, hle⟩
  · obtain ⟨hs, hm, hf⟩ := names_of_operatorAt? ht hop
    exact ⟨hs, hm, .inr hf, hle⟩

theorem sound_current {known : List String} {ts : List Token} (hts : ∀ t ∈ ts, t.Sound known) :
    (current ts).Sound known := by
  cases ts with
  | nil => trivial
  | cons t ts => exact hts t (by simp)

/-- What goes on behind the operators up to a depth binds no more tightly than that. -/
theorem lt_of_stops {d e : Int} {ts : List Token} {op : Operator}
    (hts : ∀ t ∈ ts, t.Sound coreRegistry.operatorNames) (hstop : (coreParser file).Stops e ts)
    (h : (coreParser file).following? (current ts) d = some op) : e < op.precedence := by
  obtain ⟨hs, hm, hf, -⟩ := names_of_following? (sound_current hts) h
  by_contra hlt
  have hsome := @following?_of_le file op hm hf _ hs e (Int.not_lt.1 hlt)
  rw [hstop.2] at hsome
  cases hsome

/-- **That tokens pay for what is read from them**, with what is paid for the operand that operators
stand behind, at every depth at which one may take it. -/
def Affords (file : String) : Phrase → List Token → List Tree → List Token → Prop
  | .expression d, ts, [x], rest => 0 ≤ d → Formula x.term →
    x.term.pairs d + Token.worthOf rest ≤ Token.worthOf ts
  | .operators lhs d, ts, [x], rest => 0 ≤ d → Formula x.term → Formula lhs.term ∧
    ∀ paid, lhs.term.pairs d ≤ paid →
      (∀ op, (coreParser file).following? (current ts) d = some op →
        lhs.term.pairs op.precedence ≤ paid) →
      x.term.pairs d + Token.worthOf rest ≤ paid + Token.worthOf ts
  | .operand, ts, [x], rest => Formula x.term →
    x.term.pairs 0 + Token.worthOf rest ≤ Token.worthOf ts
  | .arguments _, ts, xs, rest => (∀ a ∈ Tree.terms xs, Formula a) →
    argumentPairs (Tree.terms xs) + Token.worthOf rest ≤ Token.worthOf ts
  | .items _, ts, xs, rest => (∀ a ∈ Tree.terms xs, Formula a) →
    argumentPairs (Tree.terms xs) + Token.worthOf rest ≤ Token.worthOf ts
  | .statements, ts, [x], _ => Formula x.term → x.term.pairs loosest ≤ Token.worthOf ts
  | _, _, _, _ => True

theorem affords_infixed {lhs rhs x : Tree} {d : Int} {t : Token} {ts mid rest : List Token}
    {op : Operator} (ht : t.Sound coreRegistry.operatorNames)
    (hmid : ∀ t ∈ mid, t.Sound coreRegistry.operatorNames)
    (hop : (coreParser file).following? t d = some op) (hf : op.fixity = .infixed)
    (hstop : (coreParser file).Stops (op.precedence - 1) mid)
    (hrhs : Affords file (.expression (op.precedence - 1)) ts [rhs] mid)
    (hmore : Affords file (.operators (.form t [lhs, rhs]) d) mid [x] rest) :
    Affords file (.operators lhs d) (t :: ts) [x] rest := by
  intro hd hx
  obtain ⟨hs, hm, -, hle⟩ := names_of_following? ht hop
  obtain ⟨hform, hpaid⟩ := hmore hd hx
  have hterm : (Tree.form t [lhs, rhs]).term = .form op.name [lhs.term, rhs.term] t.pos := by
    rw [← hs.operatorName_eq]
    rfl
  have hpairs := Formula.pairs_infixed hm hf lhs.term rhs.term t.pos
  rw [hterm] at hform hpaid
  have hr := hform.operands rhs.term (by simp)
  refine ⟨hform.operands lhs.term (by simp), fun paid _ hat => ?_⟩
  have hpositive := CoreTable.precedence_of_infixed hm hf
  have hlhs := hat op hop
  have hrhs := hrhs (by omega) hr
  -- the form is no looser than what goes on behind it, so no pair is needed around it
  have hgo := hpaid (paid + rhs.term.pairs (op.precedence - 1))
    (by rw [hpairs, if_neg (by omega)]; omega)
    (fun op' hop' => by
      have hlt := lt_of_stops hmid hstop hop'
      rw [hpairs, if_neg (by omega)]
      omega)
  rw [Token.worthOf_cons]
  omega

theorem affords_postfixed {lhs x : Tree} {d : Int} {t : Token} {ts rest : List Token}
    {op : Operator} (ht : t.Sound coreRegistry.operatorNames)
    (hts : ∀ t ∈ ts, t.Sound coreRegistry.operatorNames)
    (hop : (coreParser file).following? t d = some op) (hf : op.fixity ≠ .infixed)
    (hmore : Affords file (.operators (.form t [lhs]) d) ts [x] rest) :
    Affords file (.operators lhs d) (t :: ts) [x] rest := by
  intro hd hx
  obtain ⟨hs, hm, hfixity, -⟩ := names_of_following? ht hop
  have hpostfixed := hfixity.resolve_left hf
  have hzero := CoreTable.precedence_of_postfixed hm hpostfixed
  obtain ⟨hform, hpaid⟩ := hmore hd hx
  have hterm : (Tree.form t [lhs]).term = .form "!" [lhs.term] t.pos := by
    rw [← CoreTable.name_of_postfixed hm hpostfixed, ← hs.operatorName_eq]
    rfl
  rw [hterm] at hform hpaid
  refine ⟨hform.operands lhs.term (by simp), fun paid _ hat => ?_⟩
  have hlhs := hat op hop
  rw [hzero] at hlhs
  have hgo := hpaid paid (by rwa [Formula.pairs_factorial _ _ hd]) fun op' hop' => by
    obtain ⟨-, hm', -, -⟩ := names_of_following? (sound_current hts) hop'
    rwa [Formula.pairs_factorial _ _ (CoreTable.precedence_bounds hm').1]
  rw [Token.worthOf_cons]
  omega

theorem affords_call {t u : Token} {ts rest : List Token} {args : List Tree}
    (hu : u.kind = .mark .openParen)
    (hargs : Affords file (.arguments .closeParen) ts args rest) :
    Affords file .operand (t :: u :: ts) [.form t args] rest := by
  intro hx
  have hcall := hx.pairs_le_call
  have hpaid := hargs (Formula.operands hx)
  have hopen : u.worth = 1 := by rw [Token.worth_of_mark hu]; rfl
  rw [Token.worthOf_cons, Token.worthOf_cons, hopen]
  show (Term.form t.operatorName (Tree.terms args) t.pos).pairs 0 + _ ≤ _
  omega

/-- Forms of other operators, lists and blocks are no formulas. -/
theorem affords_of_not_formula {x : Tree} {ts rest : List Token} (h : ¬Formula x.term) :
    Affords file .operand ts [x] rest := fun hx => absurd hx h

theorem not_formula_prefixed {t : Token} {x : Tree} {op : Operator}
    (ht : t.Sound coreRegistry.operatorNames)
    (hop : (coreParser file).operatorAt? .prefixed t = some op) :
    ¬Formula (Tree.form t [x]).term := by
  intro hx
  obtain ⟨hs, hm, hf⟩ := names_of_operatorAt? ht hop
  have hname := hs.operatorName_eq
  rcases Formula.cases_form hx with ⟨_, a, b, -, -, -, hargs, -, -⟩ | ⟨hbang, -⟩
  · cases hargs
  · rw [hname] at hbang
    rcases CoreTable.name_of_prefixed hm hf with h | ⟨h, -⟩ <;> rw [hbang] at h <;>
      exact absurd h (by decide)

theorem not_formula_of_name {t : Token} {args : List Tree}
    (h : t.operatorName ∈ ["List", "Prog", "While"]) : ¬Formula (Tree.form t args).term := by
  intro hx
  rcases Formula.cases_form hx with ⟨op, a, b, hm, hf, hname, -, -, -⟩ | ⟨hbang, -⟩
  · rw [hname] at h
    exact CoreTable.name_of_infixed hm hf h
  · rw [hbang] at h
    exact absurd h (by decide)

/-- A leaf needs no parentheses. -/
theorem pairs_leaf {t : Token} (ht : t.Sound coreRegistry.operatorNames)
    (hk : t.kind = .number ∨ t.kind = .string ∨ t.kind = .atom) (d : Int) :
    (Tree.leaf t).term.pairs d = 0 := by
  unfold Token.Sound at ht
  rcases hk with hk | hk | hk <;> rw [hk] at ht <;>
    simp only [Tree.term, Token.term, hk]
  · obtain ⟨n, hv, -⟩ := ht
    rw [hv]
    simp [Term.pairs]
  · obtain ⟨s, hv⟩ := ht
    rw [hv]
    simp [Term.pairs]
  · obtain ⟨s, hv, -⟩ := ht
    rw [hv]
    simp [Term.pairs]

theorem stops_of_expression {p : Parser} {x : Tree} {d : Int} {ts rest : List Token}
    (h : Reads p (.expression d) ts [x] rest) : p.Stops d rest := by
  cases h with
  | expression _ h => exact stops_of_operators h

theorem sound_of_takes {known : List String} {ts rest : List Token} (h : Takes ts rest)
    (hts : ∀ t ∈ ts, t.Sound known) : ∀ t ∈ rest, t.Sound known := by
  obtain ⟨us, rfl, -⟩ := h
  exact fun t ht => hts t (by simp [ht])

/-- **What is read from sound tokens is paid for by them.** -/
theorem affords_of_reads {f : Phrase} {ts rest : List Token} {xs : List Tree}
    (h : Reads (coreParser file) f ts xs rest) :
    (∀ t ∈ ts, t.Sound coreRegistry.operatorNames) → Affords file f ts xs rest := by
  induction h with
  | @expression d ts mid rest lhs x h₁ _ ih₁ ih₂ =>
    intro hts hd hx
    obtain ⟨hl, hpaid⟩ := ih₂ (sound_of_takes (takes_of_reads h₁) hts) hd hx
    have hlhs := ih₁ hts hl
    -- an operand is paid for at depth zero, and so wherever it is taken
    have hmid := sound_of_takes (takes_of_reads h₁) hts
    have hgo := hpaid (lhs.term.pairs 0) (Term.pairs_antitone hd _) fun op hop => by
      obtain ⟨-, hm, -⟩ := names_of_following? (sound_current hmid) hop
      exact Term.pairs_antitone (CoreTable.precedence_bounds hm).1 _
    omega
  | stop =>
    intro _ _ hx
    exact ⟨hx, fun paid hlhs _ => by omega⟩
  | infixed _ hop hf _ hrhs _ ih₁ ih₂ =>
    intro hts
    have hts' := fun t ht => hts t (List.mem_cons_of_mem _ ht)
    have hmid := sound_of_takes (takes_of_reads hrhs) hts'
    exact affords_infixed (hts _ (by simp)) hmid hop hf (stops_of_expression hrhs) (ih₁ hts')
      (ih₂ hmid)
  | postfixed _ hop hf _ _ ih =>
    intro hts
    have hts' := fun t ht => hts t (List.mem_cons_of_mem _ ht)
    exact affords_postfixed (hts _ (by simp)) hts' hop hf (ih hts')
  | symbolPrefix _ _ _ hop _ _ _ =>
    exact fun hts => affords_of_not_formula (not_formula_prefixed (hts _ (by simp)) hop)
  | prefixed _ hop _ _ _ =>
    exact fun hts => affords_of_not_formula (not_formula_prefixed (hts _ (by simp)) hop)
  | symbolCall _ _ hu _ _ ih | call _ _ hu _ _ ih =>
    exact fun hts => affords_call hu (ih fun t ht => hts t (by simp [ht]))
  | literal hk =>
    intro hts _
    rw [pairs_leaf (hts _ (by simp)) (hk.imp_right .inl), Token.worthOf_cons]
    omega
  | name _ hk _ _ =>
    intro hts _
    rw [pairs_leaf (hts _ (by simp)) (.inr (.inr hk)), Token.worthOf_cons]
    omega
  | bodied _ _ _ hop _ _ _ =>
    intro hts
    obtain ⟨hs, hm, hf⟩ := names_of_operatorAt? (hts _ (by simp)) hop
    refine affords_of_not_formula (not_formula_of_name ?_)
    rw [hs.operatorName_eq, CoreTable.name_of_bodied hm hf]
    decide
  | @parens x t u ts rest hk hu _ ih =>
    intro hts hx
    have hinner := ih (fun t ht => hts t (by simp [ht])) (by decide) hx
    have hopen : t.worth = 1 := by rw [Token.worth_of_mark hk]; rfl
    have hone := Term.pairs_le_add_one 0 loosest x.term
    rw [Token.worthOf_cons] at hinner ⊢
    omega
  | braces hk _ =>
    exact fun _ => affords_of_not_formula (not_formula_of_name
      (by simp [Token.operatorName, Token.head, hk]))
  | brackets hk _ =>
    exact fun _ => affords_of_not_formula (not_formula_of_name
      (by simp [Token.operatorName, Token.head, hk]))
  | noArguments =>
    intro _ _
    rw [Token.worthOf_cons]
    simp [Tree.terms, argumentPairs]
  | someArguments _ _ ih => exact ih
  | @lastItem closing x t ts rest _ _ _ ih =>
    intro hts hargs
    have hx := ih hts (by decide) (hargs _ (by simp [Tree.terms]))
    rw [Token.worthOf_cons] at hx
    simp only [Tree.terms, argumentPairs]
    omega
  | @item closing x t ts mid rest more hk h₁ _ ih₁ ih₂ =>
    intro hts hargs
    have hmid := sound_of_takes (takes_of_reads h₁) hts
    have hx := ih₁ hts (by decide) (hargs _ (by simp [Tree.terms]))
    have hmore := ih₂ (fun t ht => hmid t (by simp [ht]))
      fun a ha => hargs a (by simp [Tree.terms, ha])
    have hcomma : t.worth = 2 := by rw [Token.worth_of_mark hk]; rfl
    have hall := argumentPairs_cons_le x.term (Tree.terms more)
    rw [Token.worthOf_cons] at hx
    simp only [Tree.terms] at hmore ⊢
    omega
  | endBlock | skipInBlock | blockStatement | finish => exact fun _ => trivial
  | @skip t ts rest xs _ _ ih =>
    intro hts
    have hmore := ih fun t ht => hts t (by simp [ht])
    match xs, hmore with
    | [], _ | _ :: _ :: _, _ => trivial
    | [x], hmore =>
      intro hx
      have hpaid := hmore hx
      rw [Token.worthOf_cons]
      omega
  | @statement x t ts mid rest more _ _ _ _ _ ih _ =>
    intro hts
    match more with
    | _ :: _ => trivial
    | [] =>
      intro hx
      have hpaid := ih hts (by decide) hx
      omega

/-! ### The printer spends no more -/

theorem worth_of_isNameChar {c : Char} (h : isNameChar c = true) : worth c = 0 := by
  have hopen : c ≠ '(' := fun hc => absurd h (by rw [hc]; decide)
  have hcomma : c ≠ ',' := fun hc => absurd h (by rw [hc]; decide)
  simp [worth, hopen, hcomma]

theorem worth_of_isOperatorChar {c : Char} (h : isOperatorChar c = true) : worth c = 0 := by
  have hall : (operatorChars.all fun c => worth c == 0) = true := by decide
  simpa using List.all_eq_true.1 hall c (by simpa [isOperatorChar] using h)

theorem worthOf_eq_zero {cs : List Char} (h : ∀ c ∈ cs, worth c = 0) : worthOf cs = 0 := by
  induction cs with
  | nil => rfl
  | cons c cs ih =>
    have hmore := ih fun d hd => h d (by simp [hd])
    simp [h c (by simp), hmore]

theorem worthOf_word {known : List String} {s : String}
    (h : (isName s || isSymbol known s) = true) : worthOf s.toList = 0 := by
  rcases Bool.or_eq_true_iff.1 h with h | h
  · obtain ⟨c, cs, hcs, -, hall⟩ := isName_spec h
    exact worthOf_eq_zero (hcs ▸ fun c hc => worth_of_isNameChar (hall c hc))
  · obtain ⟨c, cs, hcs, hall, -⟩ := isSymbol_spec h
    exact worthOf_eq_zero (hcs ▸ fun c hc => worth_of_isOperatorChar (hall c hc))

/-- **A formula is written with the pairs that it needs**, at every depth. -/
theorem Formula.written {t : Term} (h : Formula t) : ∀ d, 0 ≤ d →
    ∃ ps, Written coreRegistry d t ps ∧ worthOf (layout ps) = t.pairs d := by
  induction h with
  | @atom name pos hname hnot =>
    intro d hd
    have hop : coreRegistry.operator? .prefixed name = none := by
      refine Option.eq_none_iff_forall_ne_some.2 fun op hop => hnot ?_
      obtain ⟨hm, -, hn⟩ := Registry.operator?_eq_some hop
      exact Registry.mem_operatorNames.2 ⟨op, hm, hn⟩
    refine ⟨_, .atom hd hname hop, ?_⟩
    have hword := @worthOf_word [] name (by rw [hname, Bool.true_or])
    simp [Piece.chars, hword, Term.pairs]
  | @infixed op a b pos hm hf _ _ iha ihb =>
    intro d hd
    have hop := CoreTable.operatorOf?_of_infixed hm hf
    have hpositive := CoreTable.precedence_of_infixed hm hf
    obtain ⟨ps, hps, hleft⟩ := iha op.precedence (by omega)
    obtain ⟨qs, hqs, hright⟩ := ihb (op.precedence - 1) (by omega)
    have hword := worthOf_word (CoreTable.spelling_of_mem hm)
    have hspace : worth ' ' = 0 := by decide
    have hbare : worthOf (layout (ps ++ .space :: .word op.name :: .space :: qs)) =
        a.pairs op.precedence + b.pairs (op.precedence - 1) := by
      simp [Piece.chars, hword, hspace, hleft, hright]
    by_cases hlt : d < op.precedence
    · have hloose : d < coreRegistry.precedence (.form op.name [a, b] pos) := by
        rwa [precedence_form hop]
      have hbounds := CoreTable.precedence_bounds hm
      refine ⟨_, .parens hloose (.infixed hop hf hbounds.2 hps hqs), ?_⟩
      have hopen : worth '(' = 1 := by decide
      have hclose : worth ')' = 0 := by decide
      rw [pairs_infixed hm hf, if_pos hlt, layout_cons, layout_append, worthOf_append,
        worthOf_append, hbare]
      simp [Piece.chars, Mark.char, hopen, hclose]
      omega
    · refine ⟨_, .infixed hop hf (Int.not_lt.1 hlt) hps hqs, ?_⟩
      rw [pairs_infixed hm hf, if_neg hlt, hbare]
      omega
  | @factorial a pos _ ih =>
    intro d hd
    obtain ⟨ps, hps, hworth⟩ := ih 0 (Int.le_refl 0)
    have hbang : worth '!' = 0 := by decide
    refine ⟨_, @Written.postfixed coreRegistry d ⟨.postfixed, 0, "!", 0⟩ a ps pos
      CoreTable.operatorOf?_factorial rfl hd hps, ?_⟩
    rw [pairs_factorial a pos hd]
    simp [Piece.chars, hworth, hbang]

/-! ### Equal formulas -/

theorem exists_of_sameStructure {u : Term} {name : String} {args : List Term} {pos : Pos}
    (h : u.sameStructure (.form name args pos) = true) : ∃ us pos', u = .form name us pos' ∧
      List.Forall₂ (fun x y => x.sameStructure y = true) us args := by
  cases u with
  | form f us pos' =>
    obtain ⟨rfl, hargs⟩ := Term.sameStructure_form.1 h
    exact ⟨us, pos', rfl, hargs⟩
  | _ => simp [Term.sameStructure, Term.matches?] at h

/-- What equals a formula is one, and needs the same pairs. -/
theorem Formula.congr {t : Term} (h : Formula t) {u : Term} (hu : u.sameStructure t = true) :
    Formula u ∧ ∀ d, u.pairs d = t.pairs d := by
  induction h generalizing u with
  | @atom name pos hname hnot =>
    cases u with
    | atom name' pos' =>
      obtain rfl : name' = name := by simpa [Term.sameStructure, Term.matches?] using hu
      exact ⟨.atom hname hnot, fun d => by simp [Term.pairs]⟩
    | _ => simp [Term.sameStructure, Term.matches?] at hu
  | infixed hm hf _ _ iha ihb =>
    obtain ⟨us, pos', rfl, hus⟩ := exists_of_sameStructure hu
    obtain ⟨a', us₁, ha, hus₁, rfl⟩ := List.forall₂_cons_right_iff.1 hus
    obtain ⟨b', us₂, hb, hus₂, rfl⟩ := List.forall₂_cons_right_iff.1 hus₁
    obtain rfl := List.forall₂_nil_right_iff.1 hus₂
    obtain ⟨hfa, hpa⟩ := iha ha
    obtain ⟨hfb, hpb⟩ := ihb hb
    exact ⟨.infixed hm hf hfa hfb, fun d => by
      rw [pairs_infixed hm hf, pairs_infixed hm hf, hpa, hpb]⟩
  | factorial _ ih =>
    obtain ⟨us, pos', rfl, hus⟩ := exists_of_sameStructure hu
    obtain ⟨a', us', ha, hus', rfl⟩ := List.forall₂_cons_right_iff.1 hus
    obtain rfl := List.forall₂_nil_right_iff.1 hus'
    obtain ⟨hfa, hpa⟩ := ih ha
    exact ⟨.factorial hfa, fun d => by rw [Term.pairs, Term.pairs, hpa]⟩

theorem Formula.uncaptured {t : Term} (h : Formula t) : Uncaptured t := by
  induction h with
  | atom => exact .atom
  | infixed _ _ _ _ iha ihb =>
    refine .form (by simpa using ⟨iha, ihb⟩) fun _ a hargs => ?_
    cases hargs
  | factorial _ ih =>
    refine .form (by simpa using ih) fun hname => ?_
    exact absurd hname (by decide)

/-! ### Texts without a pair -/

/-- A text that is read as a formula pays for its pairs. -/
theorem Formula.pairs_le_of_parse {source : String} {u : Term} (hu : Formula u)
    (h : (coreParser file).parse source = .ok [u]) : u.pairs loosest ≤ worthOf source.toList := by
  obtain ⟨ts, htokens, h⟩ := bind_eq_ok_iff.1 h
  obtain ⟨trees, htrees, hterms⟩ := bind_eq_ok_iff.1 h
  obtain ⟨hsound, finish, hfinish, hk⟩ := Lexer.sound_of_tokens htokens
  rw [Parser.parseTokens, Parser.supply_eq hfinish hk] at htrees
  obtain ⟨rest, hread⟩ := Parser.statements_eq_ok_iff.1 htrees
  have hpaid := affords_of_reads hread hsound
  have hterms : Tree.terms trees = [u] := by simpa [pure, Except.pure] using hterms
  obtain ⟨x, hx⟩ : ∃ x, trees = [x] := by
    rw [← List.length_eq_one_iff, ← List.length_map (f := Tree.term), ← Tree.terms_eq_map, hterms]
    rfl
  subst hx
  obtain rfl : x.term = u := by simpa [Tree.terms] using hterms
  exact Nat.le_trans (hpaid hu) (Lexer.worthOf_tokens htokens)

/-- **No pair of parentheses of a printed formula can be left out.** Its text is read as the
formula; without an opening parenthesis and a closing one behind it, whether or not the two are a
pair, it is not. -/
theorem Formula.parse_deleted {t : Term} (h : Formula t) (file : String) :
    ∃ text, coreRegistry.textOf t = .ok text ∧
      (∃ u, (Parser.mk coreRegistry file).parse text = .ok [u] ∧ u.sameStructure t = true) ∧
      ∀ before inner behind, text.toList = before ++ '(' :: (inner ++ ')' :: behind) →
        ∀ us, (Parser.mk coreRegistry file).parse (String.ofList (before ++ (inner ++ behind))) =
          .ok us → ¬ ∃ u, us = [u] ∧ u.sameStructure t = true := by
  obtain ⟨ps, hps, hworth⟩ := h.written loosest (by decide)
  obtain ⟨u, hparse, hsame⟩ := hps.parse_layout file
  refine ⟨_, (hps.printAt CoreTable.regular).textOf, ⟨u, hparse, hsame.2 h.uncaptured⟩, ?_⟩
  rintro before inner behind hsplit us hparse ⟨v, rfl, hv⟩
  obtain ⟨hformula, hpairs⟩ := h.congr hv
  have hpaid := hformula.pairs_le_of_parse hparse
  -- one parenthesis is missing of those that there were, and all of them were needed
  have hopen : worth '(' = 1 := by decide
  rw [String.toList_ofList] at hsplit hpaid
  rw [hpairs, ← hworth, hsplit] at hpaid
  simp only [worthOf_append, worthOf_cons, hopen] at hpaid
  omega

namespace ProductOfSum

/-- The sum of two atoms. -/
def sum : Term := .form "+" [.atom "a" .none, .atom "b" .none] .none

/-- Its product with an atom. -/
def product : Term := .form "*" [sum, .atom "c" .none] .none

theorem plus_mem : ⟨.infixed, 70, "+", 5⟩ ∈ coreRegistry.operators := by
  rw [CoreTable.operators_eq]
  decide

theorem times_mem : ⟨.infixed, 40, "*", 3⟩ ∈ coreRegistry.operators := by
  rw [CoreTable.operators_eq]
  decide

theorem formula_atom {s : String} (h : s ∈ ["a", "b", "c"]) : Formula (.atom s .none) := by
  have hall : ∀ s ∈ ["a", "b", "c"], isName s = true ∧ s ∉ coreRegistry.operatorNames := by
    rw [CoreTable.operatorNames_eq]
    decide
  exact .atom (hall s h).1 (hall s h).2

theorem formula_product : Formula product :=
  .infixed times_mem rfl
    (.infixed plus_mem rfl (formula_atom (by decide)) (formula_atom (by decide)))
    (formula_atom (by decide))

theorem textOf_product : coreRegistry.textOf product = .ok "(a + b) * c" := by
  have hplus := CoreTable.operatorOf?_of_infixed plus_mem rfl
  have htimes := CoreTable.operatorOf?_of_infixed times_mem rfl
  have hatom {s : String} {d : Int} (hd : 0 ≤ d) (hs : isName s = true) (hnot : s ≠ "Not") :
      Written coreRegistry d (.atom s .none) [.word s] :=
    .atom hd hs (CoreTable.operator?_prefixed_of_isName hs hnot)
  have hsum : Written coreRegistry loosest sum [.word "a", .space, .word "+", .space, .word "b"] :=
    .infixed hplus rfl (by decide) (hatom (by decide) (by decide) (by decide))
      (hatom (by decide) (by decide) (by decide))
  -- the sum is looser than an operand of the product may be
  have hloose : 40 < coreRegistry.precedence sum := by
    rw [sum, precedence_form hplus]
    decide
  have hproduct : Written coreRegistry loosest product
      (.mark .openParen :: ([.word "a", .space, .word "+", .space, .word "b"] ++
        [.mark .closeParen]) ++ .space :: .word "*" :: .space :: [.word "c"]) :=
    .infixed htimes rfl (by decide) (.parens hloose hsum)
      (hatom (by decide) (by decide) (by decide))
  exact (hproduct.printAt CoreTable.regular).textOf

/-- **Without its parentheses the text is not read as the product.** -/
theorem parse_deleted_product : Formula product ∧ coreRegistry.textOf product = .ok "(a + b) * c" ∧
    (∃ u, (Parser.mk coreRegistry "").parse "(a + b) * c" = .ok [u] ∧
      u.sameStructure product = true) ∧
    ∀ us, (Parser.mk coreRegistry "").parse "a + b * c" = .ok us →
      ¬ ∃ u, us = [u] ∧ u.sameStructure product = true := by
  obtain ⟨text, htext, hparse, hdeleted⟩ := formula_product.parse_deleted ""
  obtain rfl : text = "(a + b) * c" := Except.ok.inj (htext.symm.trans textOf_product)
  exact ⟨formula_product, textOf_product, hparse,
    hdeleted [] "a + b".toList " * c".toList (by decide)⟩

end ProductOfSum

end TermCalc
