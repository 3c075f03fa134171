import TermCalc.Evaluation.Outcome
import TermCalc.Proofs.Syntax.Recursion
import TermCalc.Registry.Core

/-!
# Reading token by token

The parser once more, as a machine that walks over its tokens: the state is a position, and taking
the token there moves on by one, or not at all at the last token. Each call and each round of a loop
costs fuel, so that it is seen how long the machine runs.

* `Parser.here`, `Parser.nextKind`, `Parser.advance`, `Parser.take`: what the machine does.
* `Parser.walkExpression`, `Parser.walkOperators`, …: the functions of the parser.
* `Walks`: a walk goes as the parser reads, unless its fuel is not enough.
* `Parser.Walked`: that all functions do. `Parser.walked` proves it by induction on the fuel.
-/

namespace TermCalc

namespace Parser

variable (p : Parser) (ts : List Token)

/-! ### The machine -/

/-- The token at the position. -/
def here : Action Nat Token := Action.read fun i => ts.getD i .theEnd

/-- The kind of the token behind it, if there is one. -/
def nextKind : Action Nat (Option TokenKind) := Action.read fun i => ts[i + 1]?.map Token.kind

/-- Move on, but not beyond the last token. -/
def advance : Action Nat Unit := Action.modify fun i => if i + 1 < ts.length then i + 1 else i

/-- Take a mark. -/
def take (m : Mark) : Action Nat Unit := do
  let t ← here ts
  if t.kind = .mark m then advance ts else Action.ofExcept (p.fault t (.expected m t))

mutual

/-- An expression whose operators bind no looser than `depth`. -/
def walkExpression : Nat → Int → Action Nat Tree
  | 0, _ => fun _ => .exhausted
  | fuel + 1, depth => do
    let lhs ← walkPrefix fuel
    walkOperators fuel lhs depth

/-- The infix and postfix operators behind an expression. -/
def walkOperators : Nat → Tree → Int → Action Nat Tree
  | 0, _, _ => fun _ => .exhausted
  | fuel + 1, lhs, depth => do
    let t ← here ts
    if t.spelledByList then Action.fail .listLookedUp
    else
      match p.following? t depth with
      | some op => do
        advance ts
        if op.fixity = .infixed then
          let rhs ← walkExpression fuel (op.precedence - 1)
          let lhs ← Action.ofExcept (p.operatorForm op [lhs, rhs] t)
          walkOperators fuel lhs depth
        else
          let lhs ← Action.ofExcept (p.operatorForm op [lhs] t)
          walkOperators fuel lhs depth
      | none => pure lhs

/-- The application of a prefix operator, or a primary expression. -/
def walkPrefix : Nat → Action Nat Tree
  | 0 => fun _ => .exhausted
  | fuel + 1 => do
    let t ← here ts
    let next ← nextKind ts
    if t.spelledByList then Action.fail .listLookedUp
    else if t.kind = .operator ∧ next = some (.mark .openParen) then
      walkSymbolicCall fuel t (p.operatorAt? .prefixed t)
    else
      match p.operatorAt? .prefixed t with
      | some op =>
        if next = some (.mark .openParen) then walkPrimary fuel
        else do
          advance ts
          let x ← walkExpression fuel op.precedence
          Action.ofExcept (p.operatorForm op [x] t)
      | none => walkPrimary fuel

/-- A symbol before a parenthesis. -/
def walkSymbolicCall : Nat → Token → Option Operator → Action Nat Tree
  | 0, _, _ => fun _ => .exhausted
  | fuel + 1, t, prefixOp => do
    advance ts
    take p ts .openParen
    let operands ← walkArguments fuel .closeParen
    match prefixOp, operands with
    | some op, [first] =>
      let x ← walkOperators fuel first op.precedence
      Action.ofExcept (p.operatorForm op [x] t)
    | _, operands => pure (.form t operands)

/-- A literal, an atom, a call, or something between brackets. -/
def walkPrimary : Nat → Action Nat Tree
  | 0 => fun _ => .exhausted
  | fuel + 1 => do
    let t ← here ts
    match t.kind with
    | .number | .string => do
      advance ts
      pure (.leaf t)
    | .atom => do
      advance ts
      let u ← here ts
      if u.kind = .mark .openParen then walkCall fuel t else pure (.leaf t)
    | .mark .openParen => do
      advance ts
      let x ← walkExpression fuel loosest
      take p ts .closeParen
      pure x
    | .mark .openBrace => do
      advance ts
      let items ← walkArguments fuel .closeBrace
      pure (.form t items)
    | .mark .openBracket => do
      take p ts .openBracket
      let body ← walkBlock fuel t
      pure (.form t body)
    | .finish => Action.ofExcept (p.fault t .unexpectedEnd)
    | _ => Action.ofExcept (p.fault t (.unexpectedToken t))

/-- A call of a name. A bodied operator has its last argument behind the closing parenthesis. -/
def walkCall : Nat → Token → Action Nat Tree
  | 0, _ => fun _ => .exhausted
  | fuel + 1, t => do
    take p ts .openParen
    let operands ← walkArguments fuel .closeParen
    match p.operatorAt? .bodied t with
    | some op =>
      let body ← walkExpression fuel op.precedence
      Action.ofExcept (p.operatorForm op (operands ++ [body]) t)
    | none => pure (.form t operands)

/-- Expressions between commas, up to and with a closing mark. -/
def walkArguments : Nat → Mark → Action Nat (List Tree)
  | 0, _ => fun _ => .exhausted
  | fuel + 1, closing => do
    let t ← here ts
    if t.kind = .mark closing then do
      advance ts
      pure []
    else walkItems fuel closing

/-- At least one expression, commas between them. -/
def walkItems : Nat → Mark → Action Nat (List Tree)
  | 0, _ => fun _ => .exhausted
  | fuel + 1, closing => do
    let x ← walkExpression fuel loosest
    let t ← here ts
    if t.kind = .mark .comma then do
      advance ts
      let more ← walkItems fuel closing
      pure (x :: more)
    else do
      take p ts closing
      pure [x]

/-- The statements of a block, up to and with its closing bracket. -/
def walkBlock : Nat → Token → Action Nat (List Tree)
  | 0, _ => fun _ => .exhausted
  | fuel + 1, start => do
    let t ← here ts
    if t.kind = .mark .closeBracket then do
      advance ts
      pure []
    else if t.kind = .finish then Action.ofExcept (p.fault start .unterminatedBlock)
    else if t.kind = .mark .semicolon then do
      advance ts
      walkBlock fuel start
    else do
      let x ← walkExpression fuel loosest
      let u ← here ts
      if u.kind = .mark .closeBracket ∨ u.kind = .finish then
        let more ← walkBlock fuel start
        pure (x :: more)
      else
        take p ts .semicolon
        let more ← walkBlock fuel start
        pure (x :: more)

end

/-- The statements of a source, up to its end. -/
def walkStatements : Nat → Action Nat (List Tree)
  | 0 => fun _ => .exhausted
  | fuel + 1 => do
    let t ← here ts
    if t.kind = .finish then pure []
    else if t.kind = .mark .semicolon then do
      advance ts
      walkStatements fuel
    else do
      let x ← walkExpression p ts fuel loosest
      let u ← here ts
      if u.kind = .finish then
        let more ← walkStatements fuel
        pure (x :: more)
      else
        take p ts .semicolon
        let more ← walkStatements fuel
        pure (x :: more)

end Parser

/-! ### Walks and readings -/

/-- **A walk that goes as a reading does**: it ends with the same value, at a token, or with the same
failure. It may run out of fuel only if there is not enough. -/
inductive Walks (ts : List Token) (enough : Prop) {α : Type} :
    Outcome Nat α → Except Failure (α × List Token) → Prop
  | value {a : α} {j : Nat} (hj : j < ts.length) :
    Walks ts enough (.value a j) (.ok (a, ts.drop j))
  | failure (e : Failure) {j : Nat} (hj : j < ts.length) : Walks ts enough (.failure e j) (.error e)
  | exhausted (y : Except Failure (α × List Token)) (h : ¬ enough) : Walks ts enough .exhausted y

namespace Walks

variable {α β : Type} {ts : List Token} {enough enough' : Prop}

theorem mono {x : Outcome Nat α} {y : Except Failure (α × List Token)} (h : Walks ts enough x y)
    (hle : enough' → enough) : Walks ts enough' x y := by
  cases h with
  | value hj => exact .value hj
  | failure e hj => exact .failure e hj
  | exhausted _ h => exact .exhausted _ fun h' => h (hle h')

theorem andThen {x : Outcome Nat α} {y : Except Failure (α × List Token)}
    {f : α → Action Nat β} {g : α × List Token → Except Failure (β × List Token)}
    (h : Walks ts enough x y)
    (hf : ∀ a j, j < ts.length → y = .ok (a, ts.drop j) →
      Walks ts enough (f a j) (g (a, ts.drop j))) : Walks ts enough (x.andThen f) (y >>= g) := by
  cases h with
  | value hj => exact hf _ _ hj rfl
  | failure e hj => exact .failure e hj
  | exhausted _ h => exact .exhausted _ h

theorem ofExcept (x : Except Failure α) {i : Nat} (hi : i < ts.length) :
    Walks ts enough (Action.ofExcept x i) (x >>= fun a => .ok (a, ts.drop i)) := by
  cases x with
  | ok a => exact .value hi
  | error e => exact .failure e hi

/-- A walk with enough fuel that goes on to its end. -/
theorem ends {x : Outcome Nat α} {y : Except Failure (α × List Token)} {f : α → Action Nat β}
    {g : α × List Token → Except Failure β} (h : Walks ts enough x y) (henough : enough)
    (hf : ∀ a j, j < ts.length → y = .ok (a, ts.drop j) →
      ∃ k < ts.length, f a j = Action.ofExcept (g (a, ts.drop j)) k) :
    ∃ k < ts.length, x.andThen f = Action.ofExcept (y >>= g) k := by
  cases h with
  | value hj => exact hf _ _ hj rfl
  | failure e hj => exact ⟨_, hj, rfl⟩
  | exhausted _ h => exact absurd henough h

/-- What is decided at a position, and gone on from there. -/
theorem ofExcept_bind {x : Except Failure α} {i : Nat} {f : α → Action Nat β}
    {g : α → Except Failure (β × List Token)} (hi : i < ts.length)
    (hf : ∀ a, Walks ts enough (f a i) (g a)) :
    Walks ts enough ((Action.ofExcept x >>= f) i) (x >>= g) := by
  cases x with
  | ok a => exact hf a
  | error e => exact .failure e hi

end Walks

namespace Parser

open Rest (plain length_lt_of_plain)

variable {p : Parser} {ts : List Token} {i : Nat} {t : Token} {rest : List Token}

/-- The last token is an end. -/
def Ended (ts : List Token) : Prop := ∃ t ∈ ts.getLast?, t.kind = .finish

/-! ### Steps -/

theorem exists_drop (hi : i < ts.length) : ∃ t rest, ts.drop i = t :: rest :=
  ⟨_, _, List.drop_eq_getElem_cons hi⟩

theorem lt_of_drop (h : ts.drop i = t :: rest) : i < ts.length := by
  have hlen := congrArg List.length h
  simp only [List.length_drop, List.length_cons] at hlen
  omega

theorem drop_of_drop (h : ts.drop i = t :: rest) : ts.drop (i + 1) = rest := by
  rw [← List.tail_drop, h, List.tail_cons]

theorem getElem?_of_drop (h : ts.drop i = t :: rest) : ts[i]? = some t := by
  rw [← List.head?_drop, h, List.head?_cons]

theorem here_bind {α : Type} (h : ts.drop i = t :: rest) (f : Token → Action Nat α) :
    (here ts >>= f) i = f t i := by
  rw [Action.bind_apply, here, Action.read, List.getD_eq_getElem?_getD, getElem?_of_drop h]
  rfl

theorem nextKind_bind {α : Type} (h : ts.drop i = t :: rest)
    (f : Option TokenKind → Action Nat α) :
    (nextKind ts >>= f) i = f (rest.head?.map Token.kind) i := by
  rw [Action.bind_apply, nextKind, Action.read, ← List.head?_drop, drop_of_drop h]
  rfl

/-- Behind a token that is no end there is another. -/
theorem ne_nil_of_drop (hend : Ended ts) (h : ts.drop i = t :: rest) (ht : t.kind ≠ .finish) :
    rest ≠ [] := by
  rintro rfl
  obtain ⟨last, hlast, hfinish⟩ := hend
  have hdrop : (ts.drop i).getLast? = ts.getLast? := by
    rw [List.getLast?_drop]
    have hi := lt_of_drop h
    rw [if_neg (by omega)]
  rw [h, List.getLast?_singleton] at hdrop
  rw [← hdrop] at hlast
  cases hlast
  exact ht hfinish

/-- **To move on from a token that is no end** is to go to the token behind it. -/
theorem advance_bind {α : Type} (hend : Ended ts) (h : ts.drop i = t :: rest)
    (ht : t.kind ≠ .finish) : i + 1 < ts.length ∧ ts.drop (i + 1) = rest ∧
      ∀ f : Unit → Action Nat α, (advance ts >>= f) i = f () (i + 1) := by
  have hlength : i + 1 < ts.length := by
    have hpos := List.length_pos_iff.2 (ne_nil_of_drop hend h ht)
    have hlen := congrArg List.length h
    simp only [List.length_drop, List.length_cons] at hlen
    omega
  refine ⟨hlength, drop_of_drop h, fun f => ?_⟩
  rw [Action.bind_apply, advance, Action.modify, if_pos hlength]
  rfl

/-- **A mark is taken** where the parser expects it. -/
theorem walks_take {enough : Prop} (hend : Ended ts) (hi : i < ts.length) (m : Mark) :
    Walks ts enough (take p ts m i) (plain (p.expect m (ts.drop i))) := by
  obtain ⟨t, rest, h⟩ := exists_drop hi
  rw [h, expect_plain, take, here_bind h]
  by_cases ht : t.kind = .mark m
  · obtain ⟨hlt, hdrop, hadvance⟩ := advance_bind (α := Unit) hend h (by simp [ht])
    rw [if_pos ht, if_pos ht, ← bind_pure (advance ts), hadvance, ← hdrop]
    exact .value hlt
  · rw [if_neg ht, if_neg ht]
    exact .failure _ hi

/-! ### The walk -/

/-- **That every function walks as the parser reads**, with some fuel: where `n` tokens are left, six
times as much is enough, and a little more for the calls made before the next one is taken. -/
structure Walked (p : Parser) (ts : List Token) (fuel : Nat) : Prop where
  expression : ∀ depth i, i < ts.length → Walks ts (6 * (ts.length - i) + 3 ≤ fuel)
    (walkExpression p ts fuel depth i) (plain (p.expression (ts.drop i) depth))
  operators : ∀ lhs depth i, i < ts.length → Walks ts (6 * (ts.length - i) + 2 ≤ fuel)
    (walkOperators p ts fuel lhs depth i) (plain (p.operators lhs (ts.drop i) depth))
  operand : ∀ i, i < ts.length → Walks ts (6 * (ts.length - i) + 2 ≤ fuel)
    (walkPrefix p ts fuel i) (plain (p.operand (ts.drop i)))
  symbolicCall : ∀ t u inner prefixOp i, ts.drop i = t :: u :: inner → t.kind = .operator →
    u.kind = .mark .openParen → Walks ts (6 * (ts.length - i) + 1 ≤ fuel)
      (walkSymbolicCall p ts fuel t prefixOp i)
      (plain (p.arguments .closeParen inner) >>= fun x => p.symbolForm prefixOp t x.1 x.2)
  primary : ∀ t rest i, ts.drop i = t :: rest → Walks ts (6 * (ts.length - i) + 1 ≤ fuel)
    (walkPrimary p ts fuel i) (plain (p.primary t rest))
  call : ∀ t u inner i, ts.drop i = u :: inner → u.kind = .mark .openParen →
    Walks ts (6 * (ts.length - i) ≤ fuel) (walkCall p ts fuel t i) (plain (p.call t inner))
  arguments : ∀ closing i, i < ts.length → Walks ts (6 * (ts.length - i) + 5 ≤ fuel)
    (walkArguments p ts fuel closing i) (plain (p.arguments closing (ts.drop i)))
  items : ∀ closing i, i < ts.length → Walks ts (6 * (ts.length - i) + 4 ≤ fuel)
    (walkItems p ts fuel closing i) (plain (p.argumentList closing (ts.drop i)))
  block : ∀ start i, i < ts.length → Walks ts (6 * (ts.length - i) + 4 ≤ fuel)
    (walkBlock p ts fuel start i) (plain (p.block start (ts.drop i)))

section Step

variable {fuel : Nat}

/-- What is left behind a part that was read is less. -/
theorem left_lt {α : Type} {x : Except Failure (Rest α (ts.drop i).length)} {a : α} {j : Nat}
    (h : plain x = .ok (a, ts.drop j)) : ts.length - j < ts.length - i := by
  have hlt := length_lt_of_plain h
  rwa [List.length_drop, List.length_drop] at hlt

variable (ih : Walked p ts fuel)
include ih

theorem walk_expression (depth : Int) (hi : i < ts.length) :
    Walks ts (6 * (ts.length - i) + 3 ≤ fuel + 1) (walkExpression p ts (fuel + 1) depth i)
      (plain (p.expression (ts.drop i) depth)) := by
  rw [expression_plain]
  refine .andThen ((ih.operand i hi).mono (by omega)) fun lhs j hj hx => ?_
  have := left_lt hx
  exact (ih.operators lhs depth j hj).mono (by omega)

variable (hend : Ended ts)
include hend

theorem walk_operators (lhs : Tree) (depth : Int) (hi : i < ts.length) :
    Walks ts (6 * (ts.length - i) + 2 ≤ fuel + 1) (walkOperators p ts (fuel + 1) lhs depth i)
      (plain (p.operators lhs (ts.drop i) depth)) := by
  obtain ⟨t, rest, h⟩ := exists_drop hi
  rw [walkOperators, here_bind h, h]
  split
  · rename_i hs
    rw [p.operators_list hs]
    exact .failure _ hi
  · rename_i hs
    have hs := Bool.eq_false_iff.2 hs
    cases hop : p.following? t depth with
    | none =>
      rw [p.operators_stop hs hop, ← h]
      exact .value hi
    | some op =>
      obtain ⟨fixity, hat⟩ := operatorAt?_of_following? hop
      obtain ⟨hlt, hdrop, hadvance⟩ := advance_bind (α := Tree) hend h (ne_finish_of_operatorAt? hat)
      simp only [hadvance]
      by_cases hf : op.fixity = .infixed
      · rw [if_pos hf, p.operators_infixed hs hop hf, ← hdrop]
        refine .andThen ((ih.expression _ _ hlt).mono (by omega)) fun rhs j hj hx => ?_
        have := left_lt hx
        exact .ofExcept_bind hj fun lhs => (ih.operators lhs depth j hj).mono (by omega)
      · rw [if_neg hf, p.operators_postfixed hs hop hf, ← hdrop]
        exact .ofExcept_bind hlt fun lhs => (ih.operators lhs depth _ hlt).mono (by omega)

theorem walk_operand (hi : i < ts.length) :
    Walks ts (6 * (ts.length - i) + 2 ≤ fuel + 1) (walkPrefix p ts (fuel + 1) i)
      (plain (p.operand (ts.drop i))) := by
  obtain ⟨t, rest, h⟩ := exists_drop hi
  rw [walkPrefix, here_bind h, nextKind_bind h, h]
  split
  · rename_i hs
    rw [p.operand_list hs]
    exact .failure _ hi
  · rename_i hs
    have hs := Bool.eq_false_iff.2 hs
    have hnext : rest.head?.map Token.kind = some (.mark .openParen) ↔
        (current rest).kind = .mark .openParen := by
      cases rest <;> simp [current, Token.theEnd, Token.ofEnd]
    simp only [hnext]
    split
    · rename_i hcall
      obtain ⟨u, inner, rfl, hu⟩ := cons_of_current hcall.2
      rw [p.operand_symbol hs hcall.1 hu]
      exact (ih.symbolicCall t u inner _ i h hcall.1 hu).mono (by omega)
    · rename_i hcall
      have hprimary := (ih.primary t rest i h).mono
        (show 6 * (ts.length - i) + 2 ≤ fuel + 1 → _ by omega)
      have hcall' : t.kind = .operator → (current rest).kind ≠ .mark .openParen :=
        fun hk hu => hcall ⟨hk, hu⟩
      cases hop : p.operatorAt? .prefixed t with
      | none =>
        rw [p.operand_eq_primary hs hcall' fun _ => hop]
        exact hprimary
      | some op =>
        by_cases hu : (current rest).kind = .mark .openParen
        · simp only [if_pos hu]
          rw [p.operand_eq_primary hs hcall' fun hnot => absurd hu hnot]
          exact hprimary
        · obtain ⟨hlt, hdrop, hadvance⟩ :=
            advance_bind (α := Tree) hend h (ne_finish_of_operatorAt? hop)
          simp only [if_neg hu, hadvance]
          rw [p.operand_prefixed hs hop hu, ← hdrop]
          refine .andThen ((ih.expression _ _ hlt).mono (by omega)) fun x j hj hx => ?_
          exact .ofExcept _ hj

theorem walk_symbolicCall {u : Token} {inner : List Token} (prefixOp : Option Operator)
    (h : ts.drop i = t :: u :: inner) (hk : t.kind = .operator) (hu : u.kind = .mark .openParen) :
    Walks ts (6 * (ts.length - i) + 1 ≤ fuel + 1) (walkSymbolicCall p ts (fuel + 1) t prefixOp i)
      (plain (p.arguments .closeParen inner) >>= fun x => p.symbolForm prefixOp t x.1 x.2) := by
  obtain ⟨hlt, hdrop, hadvance⟩ := advance_bind (α := Tree) hend h (by simp [hk])
  obtain ⟨hlt', hdrop', hadvance'⟩ := advance_bind (α := Tree) hend hdrop (by simp [hu])
  rw [walkSymbolicCall, hadvance, take, bind_assoc, here_bind hdrop, if_pos hu, hadvance', ← hdrop']
  refine .andThen ((ih.arguments _ _ hlt').mono (by omega)) fun operands j hj hx => ?_
  have := left_lt hx
  unfold symbolForm
  match prefixOp, operands with
  | some op, [first] =>
    refine .andThen ((ih.operators first _ j hj).mono (by omega)) fun x k hk hx => ?_
    exact .ofExcept _ hk
  | none, _ | some _, [] | some _, _ :: _ :: _ => exact .value hj

theorem walk_primary (h : ts.drop i = t :: rest) :
    Walks ts (6 * (ts.length - i) + 1 ≤ fuel + 1) (walkPrimary p ts (fuel + 1) i)
      (plain (p.primary t rest)) := by
  have hi := lt_of_drop h
  have hstep (hk : t.kind ≠ .finish) := advance_bind (α := Tree) hend h hk
  rw [walkPrimary, here_bind h]
  cases hk : t.kind with
  | number | string =>
    obtain ⟨hlt, hdrop, hadvance⟩ := hstep (by simp [hk])
    simp only [hadvance]
    rw [p.primary_literal (by simp [hk]), ← hdrop]
    exact .value hlt
  | atom =>
    obtain ⟨hlt, hdrop, hadvance⟩ := hstep (by simp [hk])
    obtain ⟨u, inner, h'⟩ := exists_drop hlt
    obtain rfl := hdrop.symm.trans h'
    simp only [hadvance, here_bind h']
    split
    · rename_i hu
      rw [p.primary_call hk hu]
      exact (ih.call t u inner _ h' hu).mono (by omega)
    · rename_i hu
      rw [p.primary_atom hk (show (current (u :: inner)).kind ≠ _ from hu), ← h']
      exact .value hlt
  | operator =>
    rw [p.primary_unexpected (by simp [hk])]
    exact .failure _ hi
  | finish =>
    rw [p.primary_finish hk]
    exact .failure _ hi
  | mark m =>
    obtain ⟨hlt, hdrop, hadvance⟩ := hstep (by simp [hk])
    cases m with
    | openParen =>
      simp only [hadvance]
      rw [p.primary_parens hk, ← hdrop]
      refine .andThen ((ih.expression _ _ hlt).mono (by omega)) fun x j hj _ => ?_
      exact .andThen (walks_take hend hj .closeParen) fun _ k hk _ => .value hk
    | openBrace =>
      simp only [hadvance]
      rw [p.primary_braces hk, ← hdrop]
      refine .andThen ((ih.arguments _ _ hlt).mono (by omega)) fun items j hj _ => ?_
      exact .value hj
    | openBracket =>
      simp only [take, bind_assoc, here_bind h, if_pos hk, hadvance]
      rw [p.primary_brackets hk, ← hdrop]
      refine .andThen ((ih.block t _ hlt).mono (by omega)) fun body j hj _ => ?_
      exact .value hj
    | closeParen | closeBrace | closeBracket | comma | semicolon =>
      rw [p.primary_unexpected (by simp [hk])]
      exact .failure _ hi

theorem walk_call {u : Token} {inner : List Token} (t : Token) (h : ts.drop i = u :: inner)
    (hu : u.kind = .mark .openParen) :
    Walks ts (6 * (ts.length - i) ≤ fuel + 1) (walkCall p ts (fuel + 1) t i)
      (plain (p.call t inner)) := by
  obtain ⟨hlt, hdrop, hadvance⟩ := advance_bind (α := Tree) hend h (by simp [hu])
  rw [walkCall, take, bind_assoc, here_bind h, if_pos hu, hadvance, ← hdrop, call_plain]
  refine .andThen ((ih.arguments _ _ hlt).mono (by omega)) fun operands j hj hx => ?_
  have := left_lt hx
  dsimp only
  cases p.operatorAt? .bodied t with
  | none => exact .value hj
  | some op =>
    refine .andThen ((ih.expression _ j hj).mono (by omega)) fun body k hk hx => ?_
    exact .ofExcept _ hk

theorem walk_arguments (closing : Mark) (hi : i < ts.length) :
    Walks ts (6 * (ts.length - i) + 5 ≤ fuel + 1) (walkArguments p ts (fuel + 1) closing i)
      (plain (p.arguments closing (ts.drop i))) := by
  obtain ⟨t, rest, h⟩ := exists_drop hi
  rw [walkArguments, here_bind h]
  split
  · rename_i ht
    obtain ⟨hlt, hdrop, hadvance⟩ := advance_bind (α := List Tree) hend h (by simp [ht])
    rw [hadvance, h, p.arguments_none ht, ← hdrop]
    exact .value hlt
  · rename_i ht
    rw [p.arguments_some (by rw [h]; exact ht)]
    exact (ih.items closing i hi).mono (by omega)

theorem walk_items (closing : Mark) (hi : i < ts.length) :
    Walks ts (6 * (ts.length - i) + 4 ≤ fuel + 1) (walkItems p ts (fuel + 1) closing i)
      (plain (p.argumentList closing (ts.drop i))) := by
  rw [argumentList_plain]
  refine .andThen ((ih.expression _ i hi).mono (by omega)) fun x j hj hx => ?_
  have := left_lt hx
  obtain ⟨t, rest, h⟩ := exists_drop hj
  simp only [here_bind h]
  split
  · rename_i ht
    obtain ⟨hlt, hdrop, hadvance⟩ := advance_bind (α := List Tree) hend h (by simp [ht])
    rw [hadvance, h, after?_cons ht, ← hdrop]
    exact .andThen ((ih.items closing _ hlt).mono (by omega)) fun more k hk _ => .value hk
  · rename_i ht
    have hcomma : Mark.comma.after? (ts.drop j) = none := Mark.after?_eq_none.2 (by rw [h]; exact ht)
    rw [hcomma]
    exact .andThen (walks_take hend hj closing) fun _ k hk _ => .value hk

theorem walk_block (start : Token) (hi : i < ts.length) :
    Walks ts (6 * (ts.length - i) + 4 ≤ fuel + 1) (walkBlock p ts (fuel + 1) start i)
      (plain (p.block start (ts.drop i))) := by
  obtain ⟨t, rest, h⟩ := exists_drop hi
  rw [walkBlock, here_bind h]
  split
  · rename_i ht
    obtain ⟨hlt, hdrop, hadvance⟩ := advance_bind (α := List Tree) hend h (by simp [ht])
    rw [hadvance, h, p.block_close ht, ← hdrop]
    exact .value hlt
  rename_i hclose
  split
  · rename_i ht
    rw [h, p.block_end ht]
    exact .failure _ hi
  rename_i hfinish
  split
  · rename_i ht
    obtain ⟨hlt, hdrop, hadvance⟩ := advance_bind (α := List Tree) hend h (by simp [ht])
    rw [hadvance, h, p.block_semicolon ht, ← hdrop]
    exact (ih.block start _ hlt).mono (by omega)
  rename_i hsemi
  rw [h, p.block_statement hclose hfinish hsemi, ← h]
  refine .andThen ((ih.expression _ i hi).mono (by omega)) fun x j hj hx => ?_
  have := left_lt hx
  obtain ⟨u, rest', h'⟩ := exists_drop hj
  have hu : current (ts.drop j) = u := by rw [h']; rfl
  simp only [here_bind h', hu]
  split
  · exact .andThen ((ih.block start j hj).mono (by omega)) fun more k hk _ => .value hk
  · refine .andThen (walks_take hend hj .semicolon) fun _ k hk hx => ?_
    have := left_lt hx
    exact .andThen ((ih.block start k hk).mono (by omega)) fun more l hl _ => .value hl

end Step

/-- **Every function walks as the parser reads.** -/
theorem walked (p : Parser) (hend : Ended ts) (fuel : Nat) : Walked p ts fuel := by
  induction fuel with
  | zero =>
    exact ⟨fun _ _ _ => .exhausted _ (by omega), fun _ _ _ _ => .exhausted _ (by omega),
      fun _ _ => .exhausted _ (by omega), fun _ _ _ _ _ _ _ _ => .exhausted _ (by omega),
      fun _ _ _ _ => .exhausted _ (by omega),
      fun _ _ _ _ h _ => .exhausted _ (by have := lt_of_drop h; omega),
      fun _ _ _ => .exhausted _ (by omega), fun _ _ _ => .exhausted _ (by omega),
      fun _ _ _ => .exhausted _ (by omega)⟩
  | succ fuel ih =>
    exact
      { expression := fun depth _ hi => walk_expression ih depth hi
        operators := fun lhs depth _ hi => walk_operators ih hend lhs depth hi
        operand := fun _ hi => walk_operand ih hend hi
        symbolicCall := fun _ _ _ prefixOp _ h hk hu => walk_symbolicCall ih hend prefixOp h hk hu
        primary := fun _ _ _ h => walk_primary ih hend h
        call := fun t _ _ _ h hu => walk_call ih hend t h hu
        arguments := fun closing _ hi => walk_arguments ih hend closing hi
        items := fun closing _ hi => walk_items ih hend closing hi
        block := fun start _ hi => walk_block ih hend start hi }

/-- Statements are walked as the parser reads them, and the walk ends. -/
theorem walk_statements (p : Parser) (hend : Ended ts) (fuel : Nat) :
    ∀ i < ts.length, 6 * (ts.length - i) + 4 ≤ fuel → ∃ j < ts.length,
      walkStatements p ts fuel i = Action.ofExcept (p.statements (ts.drop i)) j := by
  induction fuel with
  | zero => intro i hi hfuel; omega
  | succ fuel ih =>
    intro i hi hfuel
    obtain ⟨t, rest, h⟩ := exists_drop hi
    rw [walkStatements, here_bind h]
    split
    · rename_i hfinish
      rw [h, statements, if_pos hfinish]
      exact ⟨i, hi, rfl⟩
    rename_i hfinish
    split
    · rename_i hsemi
      obtain ⟨hlt, hdrop, hadvance⟩ := advance_bind (α := List Tree) hend h hfinish
      rw [hadvance, h, statements_of_semicolon hsemi, ← hdrop]
      exact ih _ hlt (by omega)
    rename_i hsemi
    rw [h, p.statements_statement hfinish hsemi, ← h]
    refine ((walked p hend fuel).expression loosest i hi).ends (by omega) fun x j hj hx => ?_
    have := left_lt hx
    obtain ⟨u, rest', h'⟩ := exists_drop hj
    have hu : current (ts.drop j) = u := by rw [h']; rfl
    simp only [here_bind h', hu]
    split
    · rename_i hfinish'
      obtain ⟨k, hk, hwalk⟩ := ih j hj (by omega)
      rw [statements_finish (by rw [hu]; exact hfinish')] at hwalk
      refine ⟨k, hk, ?_⟩
      rw [Action.bind_apply, hwalk]
      rfl
    · refine (walks_take hend hj .semicolon).ends trivial fun _ k hk hx => ?_
      have := left_lt hx
      obtain ⟨l, hl, hwalk⟩ := ih k hk (by omega)
      refine ⟨l, hl, ?_⟩
      rw [Action.bind_apply, hwalk]
      cases p.statements (ts.drop k) <;> rfl

/-- **The statements of tokens that have an end** are walked as the parser reads them. -/
theorem walk_parseTokens (p : Parser) (hend : Ended ts) {fuel : Nat}
    (hfuel : 6 * ts.length + 4 ≤ fuel) : ∃ j < ts.length,
      walkStatements p ts fuel 0 = Action.ofExcept (p.parseTokens ts) j := by
  obtain ⟨last, hlast, hfinish⟩ := hend
  have hmem : last ∈ ts := List.mem_of_getLast? hlast
  have hsupply : supply ts = ts := if_pos (List.any_eq_true.2 ⟨last, hmem, by simp [hfinish]⟩)
  rw [parseTokens, hsupply, ← List.drop_zero (l := ts)]
  exact walk_statements p ⟨last, hlast, hfinish⟩ fuel 0 (List.length_pos_of_mem hmem) hfuel

/-! ### Progress -/

/-- **A walk that gets to a position**: it ends there or later, though at a token, with a value, or
at a token with a failure. It runs out of fuel only if there is not enough. -/
def Reaches (ts : List Token) (enough : Prop) (k : Nat) {α : Type} : Outcome Nat α → Prop
  | .value _ j => k ≤ j ∧ j < ts.length
  | .failure _ j => j < ts.length
  | .exhausted => ¬ enough

section Reaching

variable {α β : Type} {enough : Prop} {k n : Nat}

/-- What goes as a reading goes gets behind the tokens that were read. -/
theorem reaches_of_walks {x : Outcome Nat α} {y : Except Failure (Rest α n)}
    (h : Walks ts enough x (plain y)) (hn : n + k ≤ ts.length + 1) : Reaches ts enough k x := by
  generalize hy : plain y = z at h
  cases h with
  | value hj =>
    have hlt := length_lt_of_plain hy
    rw [List.length_drop] at hlt
    exact ⟨by omega, hj⟩
  | failure e hj => exact hj
  | exhausted _ h => exact h

theorem reaches_andThen {x : Outcome Nat α} {f : α → Action Nat β} (h : Reaches ts enough k x)
    {l : Nat} (hf : ∀ a j, k ≤ j → j < ts.length → Reaches ts enough l (f a j)) :
    Reaches ts enough l (x.andThen f) := by
  cases x with
  | value a j => exact hf a j h.1 h.2
  | failure e j => exact h
  | exhausted => exact h

theorem reaches_ofExcept (x : Except Failure α) (hk : k ≤ i) (hi : i < ts.length) :
    Reaches ts enough k (Action.ofExcept x i) := by
  cases x with
  | ok a => exact ⟨hk, hi⟩
  | error e => exact hi

end Reaching

/-- A call of a symbol takes a token wherever it is made. -/
theorem reaches_walkSymbolicCall (p : Parser) (hend : Ended ts) (fuel : Nat) (t : Token)
    (prefixOp : Option Operator) (hi : i < ts.length) :
    Reaches ts (6 * (ts.length - i) + 6 ≤ fuel) (i + 1)
      (walkSymbolicCall p ts fuel t prefixOp i) := by
  cases fuel with
  | zero => exact fun h => by omega
  | succ fuel =>
    have hwalked := walked p hend fuel
    have hadvance : Reaches ts (6 * (ts.length - i) + 6 ≤ fuel + 1) i (advance ts i) := by
      show i ≤ (if i + 1 < ts.length then i + 1 else i) ∧
        (if i + 1 < ts.length then i + 1 else i) < ts.length
      split <;> omega
    rw [walkSymbolicCall]
    refine reaches_andThen hadvance fun _ j hij hj => ?_
    have htake : Reaches ts (6 * (ts.length - i) + 6 ≤ fuel + 1) (j + 1) (take p ts .openParen j) :=
      reaches_of_walks (walks_take hend hj .openParen) (by rw [List.length_drop]; omega)
    refine reaches_andThen htake fun _ k hjk hk => ?_
    have harguments := reaches_of_walks (k := k + 1) ((hwalked.arguments .closeParen k hk).mono
      (show 6 * (ts.length - i) + 6 ≤ fuel + 1 → _ by omega)) (by rw [List.length_drop]; omega)
    refine reaches_andThen harguments fun operands l hkl hl => ?_
    match prefixOp, operands with
    | some op, [first] =>
      have hoperators := reaches_of_walks (k := l)
        ((hwalked.operators first op.precedence l hl).mono
          (show 6 * (ts.length - i) + 6 ≤ fuel + 1 → _ by omega))
        (by rw [List.length_drop]; omega)
      exact reaches_andThen hoperators fun x m hlm hm => reaches_ofExcept _ (by omega) hm
    | none, _ | some _, [] | some _, _ :: _ :: _ => exact ⟨by omega, hl⟩

/-- **The parser always ends**, and every call of it takes a token: reading a list of tokens that
ends with an end needs no more fuel than six times its length and a little, whatever operators there
are, and goes as the parser reads. Wherever expressions, operands, primary expressions and calls of
symbols are read from, they end behind a token that was taken, and no position is beyond the last
token. -/
theorem parse_ends (p : Parser) (hend : Ended ts) :
    (∀ fuel, 6 * ts.length + 4 ≤ fuel →
      ∃ j < ts.length, walkStatements p ts fuel 0 = Action.ofExcept (p.parseTokens ts) j) ∧
    ∀ fuel, ∀ i < ts.length,
      (∀ depth, Reaches ts (6 * (ts.length - i) + 3 ≤ fuel) (i + 1)
        (walkExpression p ts fuel depth i)) ∧
      Reaches ts (6 * (ts.length - i) + 2 ≤ fuel) (i + 1) (walkPrefix p ts fuel i) ∧
      Reaches ts (6 * (ts.length - i) + 1 ≤ fuel) (i + 1) (walkPrimary p ts fuel i) ∧
      ∀ t prefixOp, Reaches ts (6 * (ts.length - i) + 6 ≤ fuel) (i + 1)
        (walkSymbolicCall p ts fuel t prefixOp i) := by
  refine ⟨fun fuel hfuel => walk_parseTokens p hend hfuel,
    fun fuel i hi => ⟨fun depth => ?_, ?_, ?_, fun t prefixOp => ?_⟩⟩
  · exact reaches_of_walks ((walked p hend fuel).expression depth i hi)
      (by rw [List.length_drop]; omega)
  · exact reaches_of_walks ((walked p hend fuel).operand i hi) (by rw [List.length_drop]; omega)
  · obtain ⟨t, rest, h⟩ := exists_drop hi
    have hlen := congrArg List.length h
    rw [List.length_drop, List.length_cons] at hlen
    exact reaches_of_walks ((walked p hend fuel).primary t rest i h) (by omega)
  · exact reaches_walkSymbolicCall p hend fuel t prefixOp hi

/-- The tokens of `-a * (b - 2)!`. -/
def productTokens : List Token :=
  [⟨.operator, .str "-", ⟨1, 1⟩⟩, ⟨.atom, .str "a", ⟨1, 2⟩⟩, ⟨.operator, .str "*", ⟨1, 4⟩⟩,
    .ofMark .openParen ⟨1, 6⟩, ⟨.atom, .str "b", ⟨1, 7⟩⟩, ⟨.operator, .str "-", ⟨1, 9⟩⟩,
    ⟨.number, .num (.int 2), ⟨1, 11⟩⟩, .ofMark .closeParen ⟨1, 12⟩, ⟨.operator, .str "!", ⟨1, 13⟩⟩,
    .ofEnd ⟨1, 14⟩]

-- Nothing here is to be found out by running a walk.
attribute [local irreducible] coreRegistry

/-- A chain of prefix, infix and postfix operators over the core table, the brackets in it, and the
chain between them. -/
theorem parse_ends_product :
    Ended productTokens ∧
      (∃ j < 10, walkStatements ⟨coreRegistry, ""⟩ productTokens 64 0 =
        Action.ofExcept (parseTokens ⟨coreRegistry, ""⟩ productTokens) j) ∧
      Reaches productTokens (6 * (10 - 0) + 3 ≤ 63) 1
        (walkExpression ⟨coreRegistry, ""⟩ productTokens 63 loosest 0) ∧
      Reaches productTokens (6 * (10 - 3) + 1 ≤ 43) 4
        (walkPrimary ⟨coreRegistry, ""⟩ productTokens 43 3) ∧
      Reaches productTokens (6 * (10 - 4) + 3 ≤ 39) 5
        (walkExpression ⟨coreRegistry, ""⟩ productTokens 39 loosest 4) := by
  have hend : Ended productTokens := ⟨_, rfl, rfl⟩
  have hlength : productTokens.length = 10 := by decide
  have hends := parse_ends ⟨coreRegistry, ""⟩ hend
  rw [hlength] at hends
  have hwhole := (hends.2 63 0 (by decide)).1 loosest
  have hbrackets := (hends.2 43 3 (by decide)).2.2.1
  have hinner := (hends.2 39 4 (by decide)).1 loosest
  exact ⟨hend, hends.1 64 (by decide), hwhole, hbrackets, hinner⟩

end Parser

end TermCalc
