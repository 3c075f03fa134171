import TermCalc.Proofs.Results
import TermCalc.Term.Parser

/-!
# The grammar

The syntax as rules, apart from the functions that parse it. A rule says which tokens a phrase takes
and what it reads them as; the tokens behind the phrase are part of every rule, since an operator
that binds tightly enough goes on with a phrase.

* `Phrase`: the forms of syntax.
* `Parser.Reads`: the rules.
* `Parser.reads_of_parse`, `Parser.parsed_of_reads`: **the parser reads a phrase exactly as the
  rules do**.
* `Parser.statements_eq_ok_iff`: the same for the statements of a source.
-/

namespace TermCalc

/-- **The forms of syntax.** -/
inductive Phrase where
  /-- An expression whose operators bind no looser than `depth`. -/
  | expression (depth : Int)
  /-- The operators behind an operand, up to a depth. -/
  | operators (lhs : Tree) (depth : Int)
  | operand
  /-- What stands between brackets, with the closing one. -/
  | arguments (closing : Mark)
  /-- The same with at least one expression. -/
  | items (closing : Mark)
  | block
  | statements

theorem Mark.after?_eq_some {m : Mark} {ts rest : List Token} :
    m.after? ts = some rest ↔ ∃ t, ts = t :: rest ∧ t.kind = .mark m := by
  cases ts with
  | nil => simp [after?]
  | cons t ts =>
    simp only [after?, Option.ite_none_right_eq_some, Option.some.injEq, List.cons.injEq]
    constructor
    · rintro ⟨hk, rfl⟩; exact ⟨t, ⟨rfl, rfl⟩, hk⟩
    · rintro ⟨u, ⟨rfl, rfl⟩, hk⟩; exact ⟨hk, rfl⟩

theorem Mark.after?_eq_none {m : Mark} {ts : List Token} :
    m.after? ts = none ↔ (Parser.current ts).kind ≠ .mark m := by
  cases ts with
  | nil => simp [after?, Parser.current, Token.theEnd, Token.ofEnd]
  | cons t ts => simp [after?, Parser.current]

namespace Parser

/-- No operator goes on at a depth. -/
def Stops (p : Parser) (depth : Int) (ts : List Token) : Prop :=
  (current ts).spelledByList = false ∧ p.following? (current ts) depth = none

/-- **The rules of the syntax**: what a phrase is read as, and the tokens behind it. -/
inductive Reads (p : Parser) : Phrase → List Token → List Tree → List Token → Prop
  | expression {depth : Int} {ts mid rest : List Token} {lhs x : Tree} :
      Reads p .operand ts [lhs] mid → Reads p (.operators lhs depth) mid [x] rest →
      Reads p (.expression depth) ts [x] rest
  | stop {lhs : Tree} {depth : Int} {ts : List Token} :
      p.Stops depth ts → Reads p (.operators lhs depth) ts [lhs] ts
  | infixed {lhs rhs x : Tree} {depth : Int} {t : Token} {ts mid rest : List Token}
      {op : Operator} :
      t.spelledByList = false → p.following? t depth = some op → op.fixity = .infixed →
      p.registry.contains op.name = true →
      Reads p (.expression (op.precedence - 1)) ts [rhs] mid →
      Reads p (.operators (.form t [lhs, rhs]) depth) mid [x] rest →
      Reads p (.operators lhs depth) (t :: ts) [x] rest
  | postfixed {lhs x : Tree} {depth : Int} {t : Token} {ts rest : List Token} {op : Operator} :
      t.spelledByList = false → p.following? t depth = some op → op.fixity ≠ .infixed →
      p.registry.contains op.name = true →
      Reads p (.operators (.form t [lhs]) depth) ts [x] rest →
      Reads p (.operators lhs depth) (t :: ts) [x] rest
  /-- A prefix symbol before one expression in parentheses, with which its operand starts. -/
  | symbolPrefix {first x : Tree} {t u : Token} {ts mid rest : List Token} {op : Operator} :
      t.spelledByList = false → t.kind = .operator → u.kind = .mark .openParen →
      p.operatorAt? .prefixed t = some op → p.registry.contains op.name = true →
      Reads p (.arguments .closeParen) ts [first] mid →
      Reads p (.operators first op.precedence) mid [x] rest →
      Reads p .operand (t :: u :: ts) [.form t [x]] rest
  | symbolCall {t u : Token} {ts rest : List Token} {args : List Tree} :
      t.spelledByList = false → t.kind = .operator → u.kind = .mark .openParen →
      (p.operatorAt? .prefixed t = none ∨ args.length ≠ 1) →
      Reads p (.arguments .closeParen) ts args rest →
      Reads p .operand (t :: u :: ts) [.form t args] rest
  | prefixed {x : Tree} {t : Token} {ts rest : List Token} {op : Operator} :
      t.spelledByList = false → p.operatorAt? .prefixed t = some op →
      (current ts).kind ≠ .mark .openParen → p.registry.contains op.name = true →
      Reads p (.expression op.precedence) ts [x] rest →
      Reads p .operand (t :: ts) [.form t [x]] rest
  | literal {t : Token} {ts : List Token} :
      t.kind = .number ∨ t.kind = .string → Reads p .operand (t :: ts) [.leaf t] ts
  | name {t : Token} {ts : List Token} :
      t.spelledByList = false → t.kind = .atom → p.operatorAt? .prefixed t = none →
      (current ts).kind ≠ .mark .openParen → Reads p .operand (t :: ts) [.leaf t] ts
  | call {t u : Token} {ts rest : List Token} {args : List Tree} :
      t.spelledByList = false → t.kind = .atom → u.kind = .mark .openParen →
      p.operatorAt? .bodied t = none → Reads p (.arguments .closeParen) ts args rest →
      Reads p .operand (t :: u :: ts) [.form t args] rest
  | bodied {t u : Token} {ts mid rest : List Token} {args : List Tree} {body : Tree}
      {op : Operator} :
      t.spelledByList = false → t.kind = .atom → u.kind = .mark .openParen →
      p.operatorAt? .bodied t = some op → p.registry.contains op.name = true →
      Reads p (.arguments .closeParen) ts args mid →
      Reads p (.expression op.precedence) mid [body] rest →
      Reads p .operand (t :: u :: ts) [.form t (args ++ [body])] rest
  | parens {x : Tree} {t u : Token} {ts rest : List Token} :
      t.kind = .mark .openParen → u.kind = .mark .closeParen →
      Reads p (.expression loosest) ts [x] (u :: rest) → Reads p .operand (t :: ts) [x] rest
  | braces {t : Token} {ts rest : List Token} {args : List Tree} :
      t.kind = .mark .openBrace → Reads p (.arguments .closeBrace) ts args rest →
      Reads p .operand (t :: ts) [.form t args] rest
  | brackets {t : Token} {ts rest : List Token} {body : List Tree} :
      t.kind = .mark .openBracket → Reads p .block ts body rest →
      Reads p .operand (t :: ts) [.form t body] rest
  | noArguments {closing : Mark} {t : Token} {ts : List Token} :
      t.kind = .mark closing → Reads p (.arguments closing) (t :: ts) [] ts
  | someArguments {closing : Mark} {ts rest : List Token} {args : List Tree} :
      (current ts).kind ≠ .mark closing → Reads p (.items closing) ts args rest →
      Reads p (.arguments closing) ts args rest
  | lastItem {closing : Mark} {x : Tree} {t : Token} {ts rest : List Token} :
      closing ≠ .comma → t.kind = .mark closing →
      Reads p (.expression loosest) ts [x] (t :: rest) → Reads p (.items closing) ts [x] rest
  | item {closing : Mark} {x : Tree} {t : Token} {ts mid rest : List Token} {more : List Tree} :
      t.kind = .mark .comma → Reads p (.expression loosest) ts [x] (t :: mid) →
      Reads p (.items closing) mid more rest → Reads p (.items closing) ts (x :: more) rest
  | endBlock {t : Token} {ts : List Token} :
      t.kind = .mark .closeBracket → Reads p .block (t :: ts) [] ts
  | skipInBlock {t : Token} {ts rest : List Token} {body : List Tree} :
      t.kind = .mark .semicolon → Reads p .block ts body rest → Reads p .block (t :: ts) body rest
  | blockStatement {x : Tree} {t : Token} {ts mid rest : List Token} {more : List Tree} :
      t.kind ≠ .mark .closeBracket → t.kind ≠ .finish → t.kind ≠ .mark .semicolon →
      Reads p (.expression loosest) (t :: ts) [x] mid →
      ((current mid).kind = .mark .closeBracket ∨ (current mid).kind = .mark .semicolon) →
      Reads p .block mid more rest → Reads p .block (t :: ts) (x :: more) rest
  | finish {ts : List Token} : (current ts).kind = .finish → Reads p .statements ts [] ts
  | skip {t : Token} {ts rest : List Token} {xs : List Tree} :
      t.kind = .mark .semicolon → Reads p .statements ts xs rest →
      Reads p .statements (t :: ts) xs rest
  | statement {x : Tree} {t : Token} {ts mid rest : List Token} {more : List Tree} :
      t.kind ≠ .finish → t.kind ≠ .mark .semicolon →
      Reads p (.expression loosest) (t :: ts) [x] mid →
      ((current mid).kind = .finish ∨ (current mid).kind = .mark .semicolon) →
      Reads p .statements mid more rest → Reads p .statements (t :: ts) (x :: more) rest

variable {p : Parser}

theorem operatorAt?_of_spelling {fixity : Fixity} {t : Token} {s : String}
    (h : t.spelling? = some s) : p.operatorAt? fixity t = p.registry.operator? fixity s := by
  rw [operatorAt?, h, Option.bind_some]

theorem kind_of_operatorAt? {fixity : Fixity} {t : Token} {op : Operator}
    (h : p.operatorAt? fixity t = some op) : t.kind = .atom ∨ t.kind = .operator := by
  obtain ⟨s, hs, -⟩ := Option.bind_eq_some_iff.1 h
  unfold Token.spelling? at hs
  split at hs
  · exact .inl ‹_›
  · exact .inr ‹_›
  · cases hs

theorem spelledByList_of_operatorAt? {fixity : Fixity} {t : Token} {op : Operator}
    (h : p.operatorAt? fixity t = some op) : t.spelledByList = false := by
  obtain ⟨s, hs, -⟩ := Option.bind_eq_some_iff.1 h
  unfold Token.spelling? at hs
  split at hs <;> simp_all [Token.spelledByList]

theorem ne_finish_of_operatorAt? {fixity : Fixity} {t : Token} {op : Operator}
    (h : p.operatorAt? fixity t = some op) : t.kind ≠ .finish := by
  rcases kind_of_operatorAt? h with hk | hk <;> simp [hk]

theorem operatorAt?_of_following? {t : Token} {depth : Int} {op : Operator}
    (h : p.following? t depth = some op) : ∃ fixity, p.operatorAt? fixity t = some op := by
  unfold following? at h
  rcases Option.or_eq_some_iff.1 h with h | ⟨-, h⟩
  · exact ⟨_, (Option.filter_eq_some_iff.1 h).1⟩
  · exact ⟨_, (Option.filter_eq_some_iff.1 h).1⟩

theorem expect_eq_ok {m : Mark} {ts : List Token} {x : Rest Unit ts.length}
    (h : p.expect m ts = .ok x) : ∃ t, ts = t :: x.tokens ∧ t.kind = .mark m := by
  unfold expect at h
  split at h
  · rename_i rest hr
    cases h
    exact Mark.after?_eq_some.1 hr
  · cases h

theorem operatorForm_eq_ok {op : Operator} {args : List Tree} {t : Token} {e : Tree}
    (h : p.operatorForm op args t = .ok e) :
    p.registry.contains op.name = true ∧ e = .form t args := by
  unfold operatorForm at h
  split at h
  · cases h; exact ⟨‹_›, rfl⟩
  · cases h

theorem block_finish (start : Token) {ts : List Token} (h : (current ts).kind = .finish) :
    p.block start ts = p.fault start .unterminatedBlock := by
  cases ts with
  | nil => rw [block]
  | cons t ts =>
    have hk : t.kind = .finish := h
    rw [block, if_neg (by simp [hk]), if_pos hk]

/-- What the parser makes of tokens, it makes of them by the rules. -/
theorem reads_of_parse :
    (∀ ts depth x, p.expression ts depth = .ok x →
      Reads p (.expression depth) ts [x.value] x.tokens) ∧
    (∀ lhs ts depth x, p.operators lhs ts depth = .ok x →
      Reads p (.operators lhs depth) ts [x.value] x.tokens) ∧
    (∀ ts x, p.operand ts = .ok x → Reads p .operand ts [x.value] x.tokens) ∧
    (∀ t rest, t.spelledByList = false →
      (t.kind = .operator → (current rest).kind ≠ .mark .openParen) →
      ((current rest).kind ≠ .mark .openParen → p.operatorAt? .prefixed t = none) →
      ∀ x, p.primary t rest = .ok x → Reads p .operand (t :: rest) [x.value] x.tokens) ∧
    (∀ start ts x, p.block start ts = .ok x → Reads p .block ts x.value x.tokens) ∧
    (∀ closing ts x, p.arguments closing ts = .ok x →
      Reads p (.arguments closing) ts x.value x.tokens) ∧
    (∀ closing ts x, p.argumentList closing ts = .ok x →
      Reads p (.items closing) ts x.value x.tokens) ∧
    (∀ t inner, t.spelledByList = false → t.kind = .atom → ∀ u : Token, u.kind = .mark .openParen →
      ∀ x, p.call t inner = .ok x → Reads p .operand (t :: u :: inner) [x.value] x.tokens) := by
  apply expression.mutual_induct p
  case _ => -- an expression
    intro ts depth ihOperand ihOperators x h
    rw [expression] at h
    obtain ⟨lhs, hl, h⟩ := bind_eq_ok_iff.1 h
    obtain ⟨y, hy, h⟩ := bind_eq_ok_iff.1 h
    cases h
    exact .expression (ihOperand lhs hl) (ihOperators lhs y hy)
  case _ => -- operators at the end
    intro lhs depth x h
    rw [operators] at h
    cases h
    exact .stop ⟨rfl, rfl⟩
  case _ => -- operators before a list
    intro lhs depth t rest hs x h
    rw [operators, if_pos hs] at h
    cases h
  case _ => -- an infix operator
    intro lhs depth t rest hs op hop hfixity ihRhs ihMore x h
    rw [operators, if_neg hs, hop] at h
    simp only [hfixity, if_true] at h
    obtain ⟨rhs, hr, h⟩ := bind_eq_ok_iff.1 h
    obtain ⟨e, he, h⟩ := bind_eq_ok_iff.1 h
    obtain ⟨y, hy, h⟩ := bind_eq_ok_iff.1 h
    cases h
    obtain ⟨hc, rfl⟩ := operatorForm_eq_ok he
    exact .infixed (Bool.eq_false_iff.2 hs) hop hfixity hc (ihRhs rhs hr) (ihMore rhs _ y hy)
  case _ => -- a postfix operator
    intro lhs depth t rest hs op hop hfixity ihMore x h
    rw [operators, if_neg hs, hop] at h
    simp only [hfixity, if_false] at h
    obtain ⟨e, he, h⟩ := bind_eq_ok_iff.1 h
    obtain ⟨y, hy, h⟩ := bind_eq_ok_iff.1 h
    cases h
    obtain ⟨hc, rfl⟩ := operatorForm_eq_ok he
    exact .postfixed (Bool.eq_false_iff.2 hs) hop hfixity hc (ihMore _ y hy)
  case _ => -- no operator goes on
    intro lhs depth t rest hs hop x h
    rw [operators, if_neg hs, hop] at h
    cases h
    exact .stop ⟨Bool.eq_false_iff.2 hs, hop⟩
  case _ => -- no operand
    intro x h
    rw [operand] at h
    cases h
  case _ => -- an operand spelled by a list
    intro t rest hs x h
    rw [operand, if_pos hs] at h
    cases h
  case _ => -- a symbol before a parenthesis
    intro t rest hs inner hi hk ihArgs ihMore x h
    obtain ⟨u, rfl, hu⟩ := Mark.after?_eq_some.1 hi
    have hs' := Bool.eq_false_iff.2 hs
    rw [operand, if_neg hs] at h
    split at h
    · rename_i _ _ inner' hi' _
      obtain rfl : inner = inner' := Option.some.inj (hi.symm.trans hi')
      obtain ⟨operands, ha, h⟩ := bind_eq_ok_iff.1 h
      have hargs := ihArgs operands ha
      split at h
      · rename_i op first hop hone
        obtain ⟨y, hy, h⟩ := bind_eq_ok_iff.1 h
        obtain ⟨e, he, h⟩ := bind_eq_ok_iff.1 h
        cases h
        obtain ⟨hc, rfl⟩ := operatorForm_eq_ok he
        rw [hone] at hargs
        exact .symbolPrefix hs' hk hu hop hc hargs (ihMore operands op first y hy)
      · rename_i hnot
        cases h
        refine .symbolCall hs' hk hu ?_ hargs
        cases hop : p.operatorAt? .prefixed t with
        | none => exact .inl rfl
        | some op =>
          refine .inr fun hlen => ?_
          obtain ⟨first, hone⟩ := List.length_eq_one_iff.1 hlen
          exact hnot op first hop hone
    · rename_i hi' _
      rw [hi] at hi'
      cases hi'
    · rename_i hnot _
      exact (hnot inner hi hk).elim
  case _ => -- a prefix operator
    intro t rest hs op hi hop ihOperand x h
    rw [operand, if_neg hs] at h
    split at h
    · rename_i hi' _
      rw [hi] at hi'
      cases hi'
    · rename_i op' _ hop'
      obtain rfl : op = op' := Option.some.inj (hop.symm.trans hop')
      obtain ⟨y, hy, h⟩ := bind_eq_ok_iff.1 h
      obtain ⟨e, he, h⟩ := bind_eq_ok_iff.1 h
      cases h
      obtain ⟨hc, rfl⟩ := operatorForm_eq_ok he
      exact .prefixed (Bool.eq_false_iff.2 hs) hop (Mark.after?_eq_none.1 hi) hc (ihOperand y hy)
    · rename_i hnot
      exact (hnot op hi hop).elim
  case _ => -- a primary expression
    intro t rest hs hcall hunary ihPrimary x h
    have hprimary : p.primary t rest = .ok x := by
      rw [operand, if_neg hs] at h
      split at h
      · rename_i inner hi hk
        exact (hcall inner hi hk).elim
      · rename_i op hi hop
        exact (hunary op hi hop).elim
      · exact h
    refine ihPrimary (Bool.eq_false_iff.2 hs) (fun hk hopen => ?_) (fun hopen => ?_) x hprimary
    · cases hi : Mark.openParen.after? rest with
      | none => exact Mark.after?_eq_none.1 hi hopen
      | some inner => exact hcall inner hi hk
    · cases hop : p.operatorAt? .prefixed t with
      | none => rfl
      | some op => exact (hunary op (Mark.after?_eq_none.2 hopen) hop).elim
  case _ => -- a number
    intro t rest hk _ _ _ x h
    rw [primary, hk] at h
    cases h
    exact .literal (.inl hk)
  case _ => -- a string
    intro t rest hk _ _ _ x h
    rw [primary, hk] at h
    cases h
    exact .literal (.inr hk)
  case _ => -- a call
    intro t rest hk inner hi ihCall hs _ _ x h
    obtain ⟨u, rfl, hu⟩ := Mark.after?_eq_some.1 hi
    rw [primary, hk] at h
    dsimp only at h
    split at h
    · rename_i inner' hi'
      obtain rfl : inner = inner' := Option.some.inj (hi.symm.trans hi')
      obtain ⟨y, hy, h⟩ := bind_eq_ok_iff.1 h
      cases h
      exact ihCall hs hk u hu y hy
    · rename_i hi'
      rw [hi] at hi'
      cases hi'
  case _ => -- an atom
    intro t rest hk hi hs _ hunary x h
    have hnot := Mark.after?_eq_none.1 hi
    rw [primary, hk] at h
    dsimp only at h
    split at h
    · rename_i inner' hi'
      rw [hi] at hi'
      cases hi'
    · cases h
      exact .name hs hk (hunary hnot) hnot
  case _ => -- parentheses
    intro t rest hk ihExpr _ _ _ x h
    rw [primary, hk] at h
    obtain ⟨y, hy, h⟩ := bind_eq_ok_iff.1 h
    obtain ⟨close, hc, h⟩ := bind_eq_ok_iff.1 h
    cases h
    obtain ⟨u, hu, hkind⟩ := expect_eq_ok hc
    have hexpr := ihExpr y hy
    rw [hu] at hexpr
    exact .parens hk hkind hexpr
  case _ => -- braces
    intro t rest hk ihArgs _ _ _ x h
    rw [primary, hk] at h
    obtain ⟨items, hi, h⟩ := bind_eq_ok_iff.1 h
    cases h
    exact .braces hk (ihArgs items hi)
  case _ => -- brackets
    intro t rest hk ihBlock _ _ _ x h
    rw [primary, hk] at h
    obtain ⟨body, hb, h⟩ := bind_eq_ok_iff.1 h
    cases h
    exact .brackets hk (ihBlock body hb)
  case _ => -- the end
    intro t rest hk _ _ _ x h
    rw [primary, hk] at h
    cases h
  case _ => -- a token that starts nothing
    intro t rest hnumber hstring hatom hparen hbrace hbracket hfinish _ _ _ x h
    rw [primary] at h
    split at h <;> contradiction
  case _ => -- a block that has no end
    intro start x h
    rw [block] at h
    cases h
  case _ => -- the end of a block
    intro start t rest hk x h
    rw [block, if_pos hk] at h
    cases h
    exact .endBlock hk
  case _ => -- the end in a block
    intro start t rest hk hfinish x h
    rw [block, if_neg hk, if_pos hfinish] at h
    cases h
  case _ => -- a semicolon in a block
    intro start t rest hk hfinish hsemi ih x h
    rw [block, if_neg hk, if_neg hfinish, if_pos hsemi] at h
    obtain ⟨more, hm, h⟩ := bind_eq_ok_iff.1 h
    cases h
    exact .skipInBlock hsemi (ih more hm)
  case _ => -- a statement in a block
    intro start t rest hk hfinish hsemi ihExpr ihMore ihNext x h
    rw [block, if_neg hk, if_neg hfinish, if_neg hsemi] at h
    obtain ⟨y, hy, h⟩ := bind_eq_ok_iff.1 h
    have hexpr := ihExpr y hy
    dsimp only at h
    split at h
    · rename_i hsep
      obtain ⟨more, hm, h⟩ := bind_eq_ok_iff.1 h
      cases h
      have hmore := ihMore y more hm
      refine .blockStatement hk hfinish hsemi hexpr (.inl (hsep.resolve_right fun hend => ?_)) hmore
      rw [block_finish start hend] at hm
      cases hm
    · obtain ⟨next, hn, h⟩ := bind_eq_ok_iff.1 h
      obtain ⟨more, hm, h⟩ := bind_eq_ok_iff.1 h
      cases h
      obtain ⟨u, hu, hkind⟩ := expect_eq_ok hn
      have hmore := ihNext y next more hm
      refine .blockStatement hk hfinish hsemi hexpr (.inr ?_) ?_
      · rw [hu]; exact hkind
      · have hskip := Reads.skipInBlock hkind hmore
        rwa [← hu] at hskip
  case _ => -- no arguments
    intro closing ts rest hi x h
    obtain ⟨u, rfl, hu⟩ := Mark.after?_eq_some.1 hi
    rw [arguments] at h
    split at h
    · rename_i rest' hi'
      obtain rfl : rest = rest' := Option.some.inj (hi.symm.trans hi')
      cases h
      exact .noArguments hu
    · rename_i hi'
      rw [hi] at hi'
      cases hi'
  case _ => -- arguments
    intro closing ts hi ihItems x h
    rw [arguments] at h
    split at h
    · rename_i rest' hi'
      rw [hi] at hi'
      cases hi'
    · exact .someArguments (Mark.after?_eq_none.1 hi) (ihItems x h)
  case _ => -- items
    intro closing ts ihExpr ihMore x h
    rw [argumentList] at h
    obtain ⟨y, hy, h⟩ := bind_eq_ok_iff.1 h
    have hexpr := ihExpr y hy
    split at h
    · rename_i rest hcomma
      obtain ⟨u, hu, hkind⟩ := Mark.after?_eq_some.1 hcomma
      obtain ⟨more, hm, h⟩ := bind_eq_ok_iff.1 h
      cases h
      rw [hu] at hexpr
      exact .item hkind hexpr (ihMore y rest hcomma more hm)
    · rename_i hcomma
      obtain ⟨close, hc, h⟩ := bind_eq_ok_iff.1 h
      cases h
      obtain ⟨u, hu, hkind⟩ := expect_eq_ok hc
      have hnot := Mark.after?_eq_none.1 hcomma
      rw [hu] at hexpr hnot
      refine .lastItem (fun hclosing => hnot ?_) hkind hexpr
      rw [← hclosing]; exact hkind
  case _ => -- the arguments of a call
    intro t inner ihArgs ihBody hs hk u hu x h
    rw [call] at h
    obtain ⟨operands, ha, h⟩ := bind_eq_ok_iff.1 h
    have hargs := ihArgs operands ha
    split at h
    · rename_i op hop
      obtain ⟨body, hb, h⟩ := bind_eq_ok_iff.1 h
      obtain ⟨e, he, h⟩ := bind_eq_ok_iff.1 h
      cases h
      obtain ⟨hc, rfl⟩ := operatorForm_eq_ok he
      exact .bodied hs hk hu hop hc hargs (ihBody operands op body hb)
    · rename_i hop
      cases h
      exact .call hs hk hu hop hargs

/-- That the parser reads a phrase as some trees, with some tokens behind it. -/
def Parsed (p : Parser) : Phrase → List Token → List Tree → List Token → Prop
  | .expression depth, ts, xs, rest =>
    ∃ x, p.expression ts depth = .ok x ∧ xs = [x.value] ∧ rest = x.tokens
  | .operators lhs depth, ts, xs, rest =>
    ∃ x, p.operators lhs ts depth = .ok x ∧ xs = [x.value] ∧ rest = x.tokens
  | .operand, ts, xs, rest => ∃ x, p.operand ts = .ok x ∧ xs = [x.value] ∧ rest = x.tokens
  | .arguments closing, ts, xs, rest =>
    ∃ x, p.arguments closing ts = .ok x ∧ xs = x.value ∧ rest = x.tokens
  | .items closing, ts, xs, rest =>
    ∃ x, p.argumentList closing ts = .ok x ∧ xs = x.value ∧ rest = x.tokens
  | .block, ts, xs, rest =>
    ∀ start, ∃ x, p.block start ts = .ok x ∧ xs = x.value ∧ rest = x.tokens
  | .statements, ts, xs, _ => p.statements ts = .ok xs

theorem operatorForm_of_contains {op : Operator} (h : p.registry.contains op.name = true)
    (args : List Tree) (t : Token) : p.operatorForm op args t = .ok (.form t args) := by
  rw [operatorForm, if_pos h]

theorem operand_eq_primary {t : Token} {rest : List Token} (hs : t.spelledByList = false)
    (hcall : t.kind = .operator → (current rest).kind ≠ .mark .openParen)
    (hunary : (current rest).kind ≠ .mark .openParen → p.operatorAt? .prefixed t = none) :
    p.operand (t :: rest) = p.primary t rest := by
  rw [operand, if_neg (Bool.eq_false_iff.1 hs)]
  split
  · rename_i inner hi hk
    rw [Mark.after?_eq_none.2 (hcall hk)] at hi
    cases hi
  · rename_i op hi hop
    rw [hunary (Mark.after?_eq_none.1 hi)] at hop
    cases hop
  · rfl

theorem operand_of_mark {m : Mark} {t : Token} {rest : List Token} (hk : t.kind = .mark m) :
    p.operand (t :: rest) = p.primary t rest :=
  operand_eq_primary (by simp [Token.spelledByList, hk]) (by simp [hk])
    fun _ => by simp [operatorAt?, Token.spelling?, hk]

theorem operand_call {t u : Token} {inner : List Token} {x : Rest Tree inner.length}
    (hs : t.spelledByList = false) (hk : t.kind = .atom) (hu : u.kind = .mark .openParen)
    (hx : p.call t inner = .ok x) :
    ∃ y, p.operand (t :: u :: inner) = .ok y ∧ y.value = x.value ∧ y.tokens = x.tokens := by
  have hi : Mark.openParen.after? (u :: inner) = some inner := Mark.after?_eq_some.2 ⟨u, rfl, hu⟩
  refine ⟨x.widen (by simp; omega), ?_, rfl, rfl⟩
  have hopen : (current (u :: inner)).kind = .mark .openParen := hu
  rw [operand_eq_primary hs (by simp [hk]) fun hnot => absurd hopen hnot, primary, hk]
  dsimp only
  split
  · rename_i inner' hi'
    obtain rfl : inner = inner' := Option.some.inj (hi.symm.trans hi')
    exact bind_eq_ok_iff.2 ⟨x, hx, rfl⟩
  · rename_i hi'
    rw [hi] at hi'
    cases hi'

theorem expect_of_kind {m : Mark} {t : Token} {ts rest : List Token} (h : ts = t :: rest)
    (hk : t.kind = .mark m) : ∃ x, p.expect m ts = .ok x ∧ x.tokens = rest := by
  have hi : m.after? ts = some rest := Mark.after?_eq_some.2 ⟨t, h, hk⟩
  refine ⟨⟨(), rest, by rw [h]; simp⟩, ?_, rfl⟩
  unfold expect
  split
  · rename_i rest' hi'
    obtain rfl : rest = rest' := Option.some.inj (hi.symm.trans hi')
    rfl
  · rename_i hi'
    rw [hi] at hi'
    cases hi'

theorem cons_of_current {m : Mark} {ts : List Token} (h : (current ts).kind = .mark m) :
    ∃ t rest, ts = t :: rest ∧ t.kind = .mark m := by
  cases ts with
  | nil => cases h
  | cons t rest => exact ⟨t, rest, rfl, h⟩

theorem block_of_semicolon {start u : Token} {ts rest : List Token} (hu : ts = u :: rest)
    (hk : u.kind = .mark .semicolon) {x : Rest (List Tree) ts.length}
    (h : p.block start ts = .ok x) :
    ∃ y, p.block start rest = .ok y ∧ y.value = x.value ∧ y.tokens = x.tokens := by
  subst hu
  rw [block, if_neg (by simp [hk]), if_neg (by simp [hk]), if_pos hk] at h
  obtain ⟨y, hy, h⟩ := bind_eq_ok_iff.1 h
  cases h
  exact ⟨y, hy, rfl, rfl⟩

theorem statements_of_semicolon {u : Token} {ts : List Token} (hk : u.kind = .mark .semicolon) :
    p.statements (u :: ts) = p.statements ts := by
  rw [Parser.statements, if_neg (by simp [hk]), if_pos hk]

theorem statements_finish {ts : List Token} (h : (current ts).kind = .finish) :
    p.statements ts = .ok [] := by
  cases ts with
  | nil => rw [Parser.statements]
  | cons t ts =>
    have hk : t.kind = .finish := h
    rw [Parser.statements, if_pos hk]

/-- What can be read by the rules, the parser reads so. -/
theorem parsed_of_reads {f : Phrase} {ts rest : List Token} {xs : List Tree}
    (h : Reads p f ts xs rest) : p.Parsed f ts xs rest := by
  induction h with
  | expression _ _ ih₁ ih₂ =>
    obtain ⟨l, hl, hv, rfl⟩ := ih₁
    cases hv
    obtain ⟨y, hy, hv, rfl⟩ := ih₂
    cases hv
    refine ⟨y.widen l.fewer, ?_, rfl, rfl⟩
    rw [Parser.expression]
    exact bind_eq_ok_iff.2 ⟨l, hl, bind_eq_ok_iff.2 ⟨y, hy, rfl⟩⟩
  | @stop lhs depth ts hstop =>
    cases ts with
    | nil => exact ⟨⟨lhs, [], by simp⟩, by rw [operators], rfl, rfl⟩
    | cons t ts =>
      refine ⟨⟨lhs, t :: ts, by simp⟩, ?_, rfl, rfl⟩
      have hs : t.spelledByList = false := hstop.1
      have hf : p.following? t depth = none := hstop.2
      rw [operators, if_neg (Bool.eq_false_iff.1 hs), hf]
  | infixed hs hf hfixity hc _ _ ih₁ ih₂ =>
    obtain ⟨r, hr, hv, rfl⟩ := ih₁
    cases hv
    obtain ⟨y, hy, hv, rfl⟩ := ih₂
    cases hv
    refine ⟨y.widen (by have := r.fewer; simp; omega), ?_, rfl, rfl⟩
    rw [operators, if_neg (Bool.eq_false_iff.1 hs), hf]
    simp only [hfixity, if_true]
    exact bind_eq_ok_iff.2 ⟨r, hr, bind_eq_ok_iff.2 ⟨_, operatorForm_of_contains hc _ _,
      bind_eq_ok_iff.2 ⟨y, hy, rfl⟩⟩⟩
  | postfixed hs hf hfixity hc _ ih =>
    obtain ⟨y, hy, hv, rfl⟩ := ih
    cases hv
    refine ⟨y.widen (by simp), ?_, rfl, rfl⟩
    rw [operators, if_neg (Bool.eq_false_iff.1 hs), hf]
    simp only [hfixity, if_false]
    exact bind_eq_ok_iff.2 ⟨_, operatorForm_of_contains hc _ _, bind_eq_ok_iff.2 ⟨y, hy, rfl⟩⟩
  | @symbolPrefix first x t u ts mid rest op hs hk hu hop hc _ _ ih₁ ih₂ =>
    obtain ⟨args, ha, hone, rfl⟩ := ih₁
    obtain ⟨y, hy, hv, rfl⟩ := ih₂
    cases hv
    have hi : Mark.openParen.after? (u :: ts) = some ts := Mark.after?_eq_some.2 ⟨u, rfl, hu⟩
    refine ⟨⟨.form t [y.value], y.tokens, by
      have := y.fewer; have := args.fewer; simp; omega⟩, ?_, rfl, rfl⟩
    rw [operand, if_neg (Bool.eq_false_iff.1 hs)]
    split
    · rename_i inner hi' _
      obtain rfl : ts = inner := Option.some.inj (hi.symm.trans hi')
      refine bind_eq_ok_iff.2 ⟨args, ha, ?_⟩
      rw [hop, ← hone]
      exact bind_eq_ok_iff.2 ⟨y, hy, bind_eq_ok_iff.2 ⟨_, operatorForm_of_contains hc _ _, rfl⟩⟩
    · rename_i hi' _
      rw [hi] at hi'
      cases hi'
    · rename_i hnot _
      exact (hnot ts hi hk).elim
  | @symbolCall t u ts rest xs hs hk hu hop _ ih =>
    obtain ⟨args, ha, rfl, rfl⟩ := ih
    have hi : Mark.openParen.after? (u :: ts) = some ts := Mark.after?_eq_some.2 ⟨u, rfl, hu⟩
    refine ⟨⟨.form t args.value, args.tokens, by have := args.fewer; simp; omega⟩, ?_, rfl, rfl⟩
    rw [operand, if_neg (Bool.eq_false_iff.1 hs)]
    split
    · rename_i inner hi' _
      obtain rfl : ts = inner := Option.some.inj (hi.symm.trans hi')
      refine bind_eq_ok_iff.2 ⟨args, ha, ?_⟩
      split
      · rename_i op first hsome hone
        rcases hop with hop | hop
        · rw [hop] at hsome; cases hsome
        · rw [hone] at hop; exact absurd rfl hop
      · rfl
    · rename_i hi' _
      rw [hi] at hi'
      cases hi'
    · rename_i hnot _
      exact (hnot ts hi hk).elim
  | @prefixed x t ts rest op hs hop hopen hc _ ih =>
    obtain ⟨y, hy, hv, rfl⟩ := ih
    cases hv
    have hi := Mark.after?_eq_none.2 hopen
    refine ⟨⟨.form t [y.value], y.tokens, by have := y.fewer; simp; omega⟩, ?_, rfl, rfl⟩
    rw [operand, if_neg (Bool.eq_false_iff.1 hs)]
    split
    · rename_i hi' _
      rw [hi] at hi'
      cases hi'
    · rename_i op' _ hop'
      obtain rfl : op = op' := Option.some.inj (hop.symm.trans hop')
      exact bind_eq_ok_iff.2 ⟨y, hy, bind_eq_ok_iff.2 ⟨_, operatorForm_of_contains hc _ _, rfl⟩⟩
    · rename_i hnot
      exact (hnot op hi hop).elim
  | @literal t ts hk =>
    have hs : t.spelledByList = false := by
      rcases hk with hk | hk <;> simp [Token.spelledByList, hk]
    have hop : p.operatorAt? .prefixed t = none := by
      rcases hk with hk | hk <;> simp [operatorAt?, Token.spelling?, hk]
    refine ⟨⟨.leaf t, ts, by simp⟩, ?_, rfl, rfl⟩
    rw [operand_eq_primary hs (by rcases hk with hk | hk <;> simp [hk]) fun _ => hop, primary]
    rcases hk with hk | hk <;> rw [hk]
  | @name t ts hs hk hop hopen =>
    refine ⟨⟨.leaf t, ts, by simp⟩, ?_, rfl, rfl⟩
    rw [operand_eq_primary hs (by simp [hk]) fun _ => hop, primary, hk]
    dsimp only
    split
    · rename_i inner hi
      rw [Mark.after?_eq_none.2 hopen] at hi
      cases hi
    · rfl
  | @call t u ts rest xs hs hk hu hop _ ih =>
    obtain ⟨args, ha, rfl, rfl⟩ := ih
    have hcall : p.call t ts = .ok ⟨.form t args.value, args.tokens, args.fewer⟩ := by
      rw [Parser.call, hop]
      exact bind_eq_ok_iff.2 ⟨args, ha, rfl⟩
    obtain ⟨x, hx, hv, hr⟩ := operand_call hs hk hu hcall
    exact ⟨x, hx, by rw [hv], by rw [hr]⟩
  | @bodied t u ts mid rest xs body op hs hk hu hop hc _ _ ih₁ ih₂ =>
    obtain ⟨args, ha, rfl, rfl⟩ := ih₁
    obtain ⟨y, hy, hv, rfl⟩ := ih₂
    cases hv
    have hcall : p.call t ts = .ok ⟨.form t (args.value ++ [y.value]), y.tokens, by
        have := y.fewer; have := args.fewer; omega⟩ := by
      rw [Parser.call, hop]
      exact bind_eq_ok_iff.2 ⟨args, ha, bind_eq_ok_iff.2 ⟨y, hy,
        bind_eq_ok_iff.2 ⟨_, operatorForm_of_contains hc _ _, rfl⟩⟩⟩
    obtain ⟨x, hx, hv, hr⟩ := operand_call hs hk hu hcall
    exact ⟨x, hx, by rw [hv], by rw [hr]⟩
  | @parens x t u ts rest hk hu _ ih =>
    obtain ⟨y, hy, hv, hr⟩ := ih
    cases hv
    obtain ⟨close, hc, hcr⟩ := expect_of_kind (p := p) hr.symm hu
    refine ⟨⟨y.value, close.tokens, by
      have := y.fewer; have := close.fewer; simp; omega⟩, ?_, rfl, hcr.symm⟩
    rw [operand_of_mark hk, primary, hk]
    exact bind_eq_ok_iff.2 ⟨y, hy, bind_eq_ok_iff.2 ⟨close, hc, rfl⟩⟩
  | @braces t ts rest args hk _ ih =>
    obtain ⟨items, hi, rfl, rfl⟩ := ih
    refine ⟨⟨.form t items.value, items.tokens, by have := items.fewer; simp; omega⟩, ?_, rfl, rfl⟩
    rw [operand_of_mark hk, primary, hk]
    exact bind_eq_ok_iff.2 ⟨items, hi, rfl⟩
  | @brackets t ts rest body hk _ ih =>
    obtain ⟨items, hi, rfl, rfl⟩ := ih t
    refine ⟨⟨.form t items.value, items.tokens, by have := items.fewer; simp; omega⟩, ?_, rfl, rfl⟩
    rw [operand_of_mark hk, primary, hk]
    exact bind_eq_ok_iff.2 ⟨items, hi, rfl⟩
  | @noArguments closing t ts hk =>
    have hi : closing.after? (t :: ts) = some ts := Mark.after?_eq_some.2 ⟨t, rfl, hk⟩
    refine ⟨⟨[], ts, by simp⟩, ?_, rfl, rfl⟩
    rw [Parser.arguments]
    split
    · rename_i rest hi'
      obtain rfl : ts = rest := Option.some.inj (hi.symm.trans hi')
      rfl
    · rename_i hi'
      rw [hi] at hi'
      cases hi'
  | @someArguments closing ts rest args hk _ ih =>
    obtain ⟨x, hx, rfl, rfl⟩ := ih
    refine ⟨x, ?_, rfl, rfl⟩
    rw [Parser.arguments]
    split
    · rename_i rest hi
      rw [Mark.after?_eq_none.2 hk] at hi
      cases hi
    · exact hx
  | @lastItem closing x t ts rest hcomma hk _ ih =>
    obtain ⟨y, hy, hv, hr⟩ := ih
    cases hv
    obtain ⟨close, hc, hcr⟩ := expect_of_kind (p := p) hr.symm hk
    refine ⟨⟨[y.value], close.tokens, by
      have := y.fewer; have := close.fewer; omega⟩, ?_, rfl, hcr.symm⟩
    rw [argumentList]
    refine bind_eq_ok_iff.2 ⟨y, hy, ?_⟩
    split
    · rename_i more hi
      obtain ⟨u, hu, hkind⟩ := Mark.after?_eq_some.1 hi
      obtain ⟨rfl, -⟩ := List.cons.inj (hr.trans hu)
      rw [hk] at hkind
      exact absurd (TokenKind.mark.inj hkind) hcomma
    · exact bind_eq_ok_iff.2 ⟨close, hc, rfl⟩
  | @item closing x t ts mid rest xs hk _ _ ih₁ ih₂ =>
    obtain ⟨y, hy, hv, hr⟩ := ih₁
    cases hv
    obtain ⟨more, hm, rfl, rfl⟩ := ih₂
    have hi : Mark.comma.after? y.tokens = some mid := Mark.after?_eq_some.2 ⟨t, hr.symm, hk⟩
    refine ⟨⟨y.value :: more.value, more.tokens, by
      have := more.fewer; have := y.fewer; have := Mark.length_of_after? hi; omega⟩, ?_, rfl, rfl⟩
    rw [argumentList]
    refine bind_eq_ok_iff.2 ⟨y, hy, ?_⟩
    split
    · rename_i mid' hi'
      obtain rfl : mid = mid' := Option.some.inj (hi.symm.trans hi')
      exact bind_eq_ok_iff.2 ⟨more, hm, rfl⟩
    · rename_i hi'
      rw [hi] at hi'
      cases hi'
  | @endBlock t ts hk => exact fun start => ⟨⟨[], ts, by simp⟩, by rw [block, if_pos hk], rfl, rfl⟩
  | @skipInBlock t ts rest body hk _ ih =>
    intro start
    obtain ⟨more, hm, rfl, rfl⟩ := ih start
    refine ⟨more.widen (by simp), ?_, rfl, rfl⟩
    rw [block, if_neg (by simp [hk]), if_neg (by simp [hk]), if_pos hk]
    exact bind_eq_ok_iff.2 ⟨more, hm, rfl⟩
  | @blockStatement x t ts mid rest more hclose hfinish hsemi _ hsep _ ih₁ ih₂ =>
    intro start
    obtain ⟨y, hy, hv, rfl⟩ := ih₁
    cases hv
    obtain ⟨more, hm, rfl, rfl⟩ := ih₂ start
    refine ⟨⟨y.value :: more.value, more.tokens, by
      have := more.fewer; have := y.fewer; omega⟩, ?_, rfl, rfl⟩
    rw [block, if_neg hclose, if_neg hfinish, if_neg hsemi]
    refine bind_eq_ok_iff.2 ⟨y, hy, ?_⟩
    rcases hsep with hsep | hsep
    · simp only [hsep, true_or, if_true]
      exact bind_eq_ok_iff.2 ⟨more, hm, rfl⟩
    · -- the rule goes on at the semicolon, the parser behind it
      obtain ⟨u, after, hu, hkind⟩ := cons_of_current hsep
      obtain ⟨next, hn, rfl⟩ := expect_of_kind (p := p) hu hkind
      obtain ⟨more', hm', hv, hr⟩ := block_of_semicolon hu hkind hm
      rw [if_neg (by simp [hsep])]
      refine bind_eq_ok_iff.2 ⟨next, hn, bind_eq_ok_iff.2 ⟨more', hm', ?_⟩⟩
      simp only [hv, hr]
      rfl
  | @finish ts hk => exact statements_finish hk
  | @skip t ts rest xs hk _ ih => exact (statements_of_semicolon hk).trans ih
  | @statement x t ts mid rest more hfinish hsemi _ hsep _ ih₁ ih₂ =>
    obtain ⟨y, hy, hv, rfl⟩ := ih₁
    cases hv
    have ih₂ : p.statements y.tokens = .ok more := ih₂
    rw [Parsed, Parser.statements, if_neg hfinish, if_neg hsemi]
    refine bind_eq_ok_iff.2 ⟨y, hy, ?_⟩
    rcases hsep with hsep | hsep
    · rw [if_pos hsep]
      rw [statements_finish hsep] at ih₂
      cases ih₂
      rfl
    · obtain ⟨u, after, hu, hkind⟩ := cons_of_current hsep
      obtain ⟨next, hn, rfl⟩ := expect_of_kind (p := p) hu hkind
      rw [if_neg (by simp [hsep])]
      refine bind_eq_ok_iff.2 ⟨next, hn, bind_eq_ok_iff.2 ⟨more, ?_, rfl⟩⟩
      rwa [hu, statements_of_semicolon hkind] at ih₂

theorem reads_of_expression {ts : List Token} {depth : Int} {x : Rest Tree ts.length}
    (h : p.expression ts depth = .ok x) : Reads p (.expression depth) ts [x.value] x.tokens :=
  reads_of_parse.1 ts depth x h

/-- **The statements of a source are what the rules read.** -/
theorem statements_eq_ok_iff {ts : List Token} {xs : List Tree} :
    p.statements ts = .ok xs ↔ ∃ rest, Reads p .statements ts xs rest := by
  refine ⟨fun h => ?_, fun ⟨_, h⟩ => parsed_of_reads h⟩
  induction ts using Parser.statements.induct generalizing xs with
  | case1 =>
    rw [Parser.statements] at h
    cases h
    exact ⟨[], .finish rfl⟩
  | case2 t rest hk =>
    rw [Parser.statements, if_pos hk] at h
    cases h
    exact ⟨t :: rest, .finish hk⟩
  | case3 t rest _ hk ih =>
    rw [statements_of_semicolon hk] at h
    obtain ⟨after, hr⟩ := ih h
    exact ⟨after, .skip hk hr⟩
  | case4 t rest hfinish hsemi ih =>
    rw [Parser.statements, if_neg hfinish, if_neg hsemi] at h
    obtain ⟨y, hy, h⟩ := bind_eq_ok_iff.1 h
    have hexpr := reads_of_expression hy
    split at h
    · rename_i hend
      cases h
      exact ⟨_, .statement hfinish hsemi hexpr (.inl hend) (.finish hend)⟩
    · obtain ⟨next, hn, h⟩ := bind_eq_ok_iff.1 h
      obtain ⟨more, hm, h⟩ := bind_eq_ok_iff.1 h
      cases h
      obtain ⟨u, hu, hkind⟩ := expect_eq_ok hn
      obtain ⟨after, hr⟩ := ih y next hm
      refine ⟨after, .statement hfinish hsemi hexpr (.inr ?_) ?_⟩
      · rw [hu]; exact hkind
      · rw [hu]; exact .skip hkind hr

end Parser

end TermCalc
