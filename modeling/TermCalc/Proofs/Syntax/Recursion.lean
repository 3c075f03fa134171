import TermCalc.Proofs.Syntax.Grammar

/-!
# The recursion of the parser

What each function of the parser calls, case by case, without the bounds that its results carry:
a result is no more than a value and the tokens behind it.

* `Rest.plain`, `Rest.plain_bind`: results without bounds.
* `Parser.expression_plain`, `Parser.operators_infixed`, …: **one equation for each case.**
-/

namespace TermCalc

namespace Rest

variable {α β : Type} {m n : Nat}

/-- A value and the tokens behind it, without the proof that they are fewer. -/
def plain (x : Except Failure (Rest α n)) : Except Failure (α × List Token) :=
  x.map fun x => (x.value, x.tokens)

@[simp] theorem plain_ok (x : Rest α n) : plain (.ok x) = .ok (x.value, x.tokens) := rfl

@[simp] theorem plain_pure (x : Rest α n) : plain (pure x) = .ok (x.value, x.tokens) := rfl

@[simp] theorem plain_error (e : Failure) : plain (.error e : Except Failure (Rest α n)) = .error e :=
  rfl

theorem plain_eq_ok {x : Except Failure (Rest α n)} {a : α} {ts : List Token} :
    plain x = .ok (a, ts) ↔ ∃ y, x = .ok y ∧ y.value = a ∧ y.tokens = ts := by
  cases x <;> simp

theorem length_lt_of_plain {x : Except Failure (Rest α n)} {a : α} {ts : List Token}
    (h : plain x = .ok (a, ts)) : ts.length < n := by
  obtain ⟨y, -, -, rfl⟩ := plain_eq_ok.1 h
  exact y.fewer

/-- **A result that is gone on from.** -/
theorem plain_bind {x : Except Failure (Rest α m)} {f : Rest α m → Except Failure (Rest β n)}
    {g : α × List Token → Except Failure (β × List Token)}
    (h : ∀ a, plain (f a) = g (a.value, a.tokens)) : plain (x >>= f) = plain x >>= g := by
  cases x with
  | error e => rfl
  | ok a => exact h a

theorem bind_eq_plain {γ : Type} {x : Except Failure (Rest α m)}
    {f : Rest α m → Except Failure γ} {g : α × List Token → Except Failure γ}
    (h : ∀ a, f a = g (a.value, a.tokens)) : x >>= f = plain x >>= g := by
  cases x with
  | error e => rfl
  | ok a => exact h a

theorem plain_bind_of {x : Except Failure α} {f : α → Except Failure (Rest β n)}
    {g : α → Except Failure (β × List Token)} (h : ∀ a, plain (f a) = g a) :
    plain (x >>= f) = x >>= g := by
  cases x with
  | error e => rfl
  | ok a => exact h a

theorem plain_widen (x : Except Failure (Rest α m)) (h : m ≤ n) :
    plain (x >>= fun a => pure (a.widen h)) = plain x := by
  cases x <;> rfl

end Rest

namespace Parser

open Rest (plain bind_eq_plain plain_eq_ok plain_bind plain_bind_of plain_widen)

variable (p : Parser) {t u : Token} {ts rest inner : List Token} {lhs : Tree} {depth : Int}
  {op : Operator} {closing : Mark}

theorem after?_cons {m : Mark} (hu : u.kind = .mark m) : m.after? (u :: rest) = some rest :=
  Mark.after?_eq_some.2 ⟨u, rfl, hu⟩

theorem expect_plain (m : Mark) : plain (p.expect m (u :: rest)) =
    if u.kind = .mark m then .ok ((), rest) else p.fault u (.expected m u) := by
  by_cases hu : u.kind = .mark m
  · obtain ⟨x, hx, hrest⟩ := expect_of_kind (p := p) rfl hu
    rw [if_pos hu]
    exact plain_eq_ok.2 ⟨x, hx, rfl, hrest⟩
  · have hi : m.after? (u :: rest) = none := Mark.after?_eq_none.2 hu
    rw [if_neg hu, expect]
    split
    · rename_i hi'
      rw [hi] at hi'
      cases hi'
    · rfl

theorem expression_plain (ts : List Token) (depth : Int) : plain (p.expression ts depth) =
    plain (p.operand ts) >>= fun x => plain (p.operators x.1 x.2 depth) := by
  rw [expression]
  exact plain_bind fun lhs => plain_widen _ _

theorem operators_infixed (hs : t.spelledByList = false) (hop : p.following? t depth = some op)
    (hf : op.fixity = .infixed) : plain (p.operators lhs (t :: rest) depth) =
      plain (p.expression rest (op.precedence - 1)) >>= fun x =>
        p.operatorForm op [lhs, x.1] t >>= fun lhs => plain (p.operators lhs x.2 depth) := by
  rw [operators, if_neg (Bool.eq_false_iff.1 hs), hop]
  simp only [hf, if_true]
  exact plain_bind fun rhs => plain_bind_of fun lhs => plain_widen _ _

theorem operators_postfixed (hs : t.spelledByList = false) (hop : p.following? t depth = some op)
    (hf : op.fixity ≠ .infixed) : plain (p.operators lhs (t :: rest) depth) =
      p.operatorForm op [lhs] t >>= fun lhs => plain (p.operators lhs rest depth) := by
  rw [operators, if_neg (Bool.eq_false_iff.1 hs), hop]
  simp only [hf, if_false]
  exact plain_bind_of fun lhs => plain_widen _ _

theorem operators_stop (hs : t.spelledByList = false) (hop : p.following? t depth = none) :
    plain (p.operators lhs (t :: rest) depth) = .ok (lhs, t :: rest) := by
  rw [operators, if_neg (Bool.eq_false_iff.1 hs), hop]
  rfl

theorem operators_list (hs : t.spelledByList = true) :
    plain (p.operators lhs (t :: rest) depth) = .error .listLookedUp := by
  rw [operators, if_pos hs]
  rfl

theorem operand_list (hs : t.spelledByList = true) :
    plain (p.operand (t :: rest)) = .error .listLookedUp := by
  rw [operand, if_pos hs]
  rfl

/-- What becomes of a symbol and the operands in parentheses behind it. -/
def symbolForm (prefixOp : Option Operator) (t : Token) (operands : List Tree)
    (rest : List Token) : Except Failure (Tree × List Token) :=
  match prefixOp, operands with
  | some op, [first] => plain (p.operators first rest op.precedence) >>= fun x =>
      p.operatorForm op [x.1] t >>= fun e => .ok (e, x.2)
  | _, operands => .ok (.form t operands, rest)

theorem operand_symbol (hs : t.spelledByList = false) (hk : t.kind = .operator)
    (hu : u.kind = .mark .openParen) : plain (p.operand (t :: u :: inner)) =
      plain (p.arguments .closeParen inner) >>= fun x =>
        p.symbolForm (p.operatorAt? .prefixed t) t x.1 x.2 := by
  have hi : Mark.after? .openParen (u :: inner) = some inner := after?_cons hu
  rw [operand, if_neg (Bool.eq_false_iff.1 hs)]
  split
  · rename_i inner' hi' _
    obtain rfl := Option.some.inj (hi.symm.trans hi')
    refine plain_bind fun operands => ?_
    unfold symbolForm
    generalize p.operatorAt? .prefixed t = prefixOp
    cases prefixOp with
    | none => rfl
    | some op =>
      rcases operands.value with _ | ⟨first, _ | ⟨second, others⟩⟩
      · rfl
      · exact plain_bind fun x => plain_bind_of fun e => rfl
      · rfl
  · rename_i hi' _
    rw [hi] at hi'
    cases hi'
  · rename_i hnot _
    exact (hnot _ hi hk).elim

theorem operand_prefixed (hs : t.spelledByList = false) (hop : p.operatorAt? .prefixed t = some op)
    (hparen : (current rest).kind ≠ .mark .openParen) : plain (p.operand (t :: rest)) =
      plain (p.expression rest op.precedence) >>= fun x =>
        p.operatorForm op [x.1] t >>= fun e => .ok (e, x.2) := by
  have hi := Mark.after?_eq_none.2 hparen
  rw [operand, if_neg (Bool.eq_false_iff.1 hs)]
  split
  · rename_i hi' _
    rw [hi] at hi'
    cases hi'
  · rename_i op' _ hop'
    obtain rfl := Option.some.inj (hop.symm.trans hop')
    exact plain_bind fun x => plain_bind_of fun e => rfl
  · rename_i hnot
    exact (hnot op hi hop).elim

theorem primary_literal (hk : t.kind = .number ∨ t.kind = .string) :
    plain (p.primary t rest) = .ok (.leaf t, rest) := by
  rcases hk with hk | hk <;> rw [primary, hk] <;> rfl

theorem primary_call (hk : t.kind = .atom) (hu : u.kind = .mark .openParen) :
    plain (p.primary t (u :: inner)) = plain (p.call t inner) := by
  have hi : Mark.after? .openParen (u :: inner) = some inner := after?_cons hu
  rw [primary, hk]
  dsimp only
  split
  · rename_i inner' hi'
    obtain rfl := Option.some.inj (hi.symm.trans hi')
    exact plain_widen _ _
  · rename_i hi'
    rw [hi] at hi'
    cases hi'

theorem primary_atom (hk : t.kind = .atom) (hparen : (current rest).kind ≠ .mark .openParen) :
    plain (p.primary t rest) = .ok (.leaf t, rest) := by
  have hi := Mark.after?_eq_none.2 hparen
  rw [primary, hk]
  dsimp only
  split
  · rename_i hi'
    rw [hi] at hi'
    cases hi'
  · rfl

theorem primary_parens (hk : t.kind = .mark .openParen) : plain (p.primary t rest) =
    plain (p.expression rest loosest) >>= fun x =>
      plain (p.expect .closeParen x.2) >>= fun close => .ok (x.1, close.2) := by
  rw [primary, hk]
  exact plain_bind fun x => plain_bind fun close => rfl

theorem primary_braces (hk : t.kind = .mark .openBrace) : plain (p.primary t rest) =
    plain (p.arguments .closeBrace rest) >>= fun x => .ok (.form t x.1, x.2) := by
  rw [primary, hk]
  exact plain_bind fun items => rfl

theorem primary_brackets (hk : t.kind = .mark .openBracket) : plain (p.primary t rest) =
    plain (p.block t rest) >>= fun x => .ok (.form t x.1, x.2) := by
  rw [primary, hk]
  exact plain_bind fun body => rfl

theorem primary_finish (hk : t.kind = .finish) :
    plain (p.primary t rest) = p.fault t .unexpectedEnd := by
  rw [primary, hk]
  rfl

theorem primary_unexpected (hk : t.kind = .operator ∨ t.kind = .mark .closeParen ∨
    t.kind = .mark .closeBrace ∨ t.kind = .mark .closeBracket ∨ t.kind = .mark .comma ∨
    t.kind = .mark .semicolon) : plain (p.primary t rest) = p.fault t (.unexpectedToken t) := by
  rcases hk with hk | hk | hk | hk | hk | hk <;> rw [primary, hk] <;> rfl

theorem call_plain (t : Token) (inner : List Token) : plain (p.call t inner) =
    plain (p.arguments .closeParen inner) >>= fun x =>
      match p.operatorAt? .bodied t with
      | some op => plain (p.expression x.2 op.precedence) >>= fun body =>
          p.operatorForm op (x.1 ++ [body.1]) t >>= fun e => .ok (e, body.2)
      | none => .ok (.form t x.1, x.2) := by
  rw [call]
  refine plain_bind fun operands => ?_
  cases p.operatorAt? .bodied t with
  | some op => exact plain_bind fun body => plain_bind_of fun e => rfl
  | none => rfl

theorem arguments_none (hu : u.kind = .mark closing) :
    plain (p.arguments closing (u :: rest)) = .ok ([], rest) := by
  have hi : closing.after? (u :: rest) = some rest := after?_cons hu
  rw [arguments]
  split
  · rename_i hi'
    cases hi.symm.trans hi'
    rfl
  · rename_i hi'
    rw [hi] at hi'
    cases hi'

theorem arguments_some (hu : (current ts).kind ≠ .mark closing) :
    p.arguments closing ts = p.argumentList closing ts := by
  have hi := Mark.after?_eq_none.2 hu
  rw [arguments]
  split
  · rename_i hi'
    rw [hi] at hi'
    cases hi'
  · rfl

theorem argumentList_plain (closing : Mark) (ts : List Token) :
    plain (p.argumentList closing ts) = plain (p.expression ts loosest) >>= fun x =>
      match Mark.comma.after? x.2 with
      | some rest => plain (p.argumentList closing rest) >>= fun more =>
          .ok (x.1 :: more.1, more.2)
      | none => plain (p.expect closing x.2) >>= fun close => .ok ([x.1], close.2) := by
  rw [argumentList]
  refine plain_bind fun x => ?_
  split
  · rename_i rest hi
    simp only [hi]
    exact plain_bind fun more => rfl
  · rename_i hi
    simp only [hi]
    exact plain_bind fun close => rfl

theorem block_close (hk : t.kind = .mark .closeBracket) (start : Token) :
    plain (p.block start (t :: rest)) = .ok ([], rest) := by
  rw [block, if_pos hk]
  rfl

theorem block_end (hk : t.kind = .finish) (start : Token) :
    plain (p.block start (t :: rest)) = p.fault start .unterminatedBlock := by
  rw [block, if_neg (by simp [hk]), if_pos hk]
  rfl

theorem block_semicolon (hk : t.kind = .mark .semicolon) (start : Token) :
    plain (p.block start (t :: rest)) = plain (p.block start rest) := by
  rw [block, if_neg (by simp [hk]), if_neg (by simp [hk]), if_pos hk]
  exact plain_widen _ _

theorem block_statement (hclose : t.kind ≠ .mark .closeBracket) (hfinish : t.kind ≠ .finish)
    (hsemi : t.kind ≠ .mark .semicolon) (start : Token) : plain (p.block start (t :: rest)) =
      plain (p.expression (t :: rest) loosest) >>= fun x =>
        if (current x.2).kind = .mark .closeBracket ∨ (current x.2).kind = .finish then
          plain (p.block start x.2) >>= fun more => .ok (x.1 :: more.1, more.2)
        else
          plain (p.expect .semicolon x.2) >>= fun next =>
            plain (p.block start next.2) >>= fun more => .ok (x.1 :: more.1, more.2) := by
  rw [block, if_neg hclose, if_neg hfinish, if_neg hsemi]
  refine plain_bind fun x => ?_
  dsimp only
  split
  · exact plain_bind fun more => rfl
  · exact plain_bind fun next => plain_bind fun more => rfl

theorem statements_statement (hfinish : t.kind ≠ .finish) (hsemi : t.kind ≠ .mark .semicolon) :
    p.statements (t :: rest) = plain (p.expression (t :: rest) loosest) >>= fun x =>
      if (current x.2).kind = .finish then .ok [x.1]
      else plain (p.expect .semicolon x.2) >>= fun next =>
        p.statements next.2 >>= fun more => .ok (x.1 :: more) := by
  rw [statements, if_neg hfinish, if_neg hsemi]
  refine bind_eq_plain fun x => ?_
  split
  · rfl
  · exact bind_eq_plain fun next => rfl

end Parser

end TermCalc
