import Mathlib.Data.List.Induction
import TermCalc.Proofs.Syntax.Nodes
import TermCalc.Proofs.Syntax.Spelling

/-!
# Chains of infix operators

Operands with infix operators between them can be grouped in many ways. Precedence allows just one
of them, and that is the one that the parser reads.

* `Chain`: operands with operators between them.
* `Tree.Binary`, `Tree.Spans`: a binary tree by its leaves and inner nodes, and by its chain.
* `Parser.Grouped`: what precedence asks of a tree. Operators associate to the left.
* `Parser.exists_grouped`: a chain can be grouped, link by link.
* `Parser.Grouped.parseTokens`: **a tree that is grouped so is what the parser reads.**
* `Parser.parseTokens_chain`: hence there is no other.
-/

namespace TermCalc

/-! ### Chains -/

/-- **A chain**: an operand, and operators with an operand behind each. -/
structure Chain where
  first : Token
  links : List (Token × Token)

namespace Chain

/-- The operands in order. -/
def operands (c : Chain) : List Token := c.first :: c.links.map Prod.snd

/-- The operators in order. -/
def operators (c : Chain) : List Token := c.links.map Prod.fst

/-- The tokens behind the first operand. -/
def tail (c : Chain) : List Token := c.links.flatMap fun link => [link.1, link.2]

/-- **The tokens of a chain**: operands and operators by turns. -/
def tokens (c : Chain) : List Token := c.first :: c.tail

/-- An operand alone. -/
def single (a : Token) : Chain := ⟨a, []⟩

/-- Two chains with an operator between them. -/
def join (c : Chain) (o : Token) (e : Chain) : Chain :=
  ⟨c.first, c.links ++ (o, e.first) :: e.links⟩

variable {c e f : Chain} {o u : Token}

@[simp] theorem first_join : (c.join o e).first = c.first := rfl

@[simp] theorem operands_join : (c.join o e).operands = c.operands ++ e.operands := by
  simp [operands, join]

@[simp] theorem operators_join : (c.join o e).operators = c.operators ++ o :: e.operators := by
  simp [operators, join]

@[simp] theorem tail_join : (c.join o e).tail = c.tail ++ o :: e.tokens := by
  simp [tail, tokens, join]

theorem join_assoc : (c.join o e).join u f = c.join o (e.join u f) := by
  simp [join]

/-- A chain is determined by its operands and operators. -/
theorem ext_iff_operands : c.operands = e.operands ∧ c.operators = e.operators ↔ c = e := by
  refine ⟨fun ⟨ha, ho⟩ => ?_, fun h => h ▸ ⟨rfl, rfl⟩⟩
  obtain ⟨first, links⟩ := c
  obtain ⟨first', links'⟩ := e
  obtain ⟨rfl, ha⟩ := List.cons.inj ha
  congr
  rw [← List.zip_unzip links, ← List.zip_unzip links', List.unzip_eq_map, List.unzip_eq_map]
  exact congrArg₂ List.zip ho ha

end Chain

/-! ### Binary trees -/

namespace Tree

/-- **A binary tree**, by its leaves and its inner nodes, both from left to right. -/
inductive Binary : Tree → List Token → List Token → Prop
  | leaf (a : Token) : Binary (.leaf a) [a] []
  | node {o : Token} {l r : Tree} {as bs os us : List Token} :
      Binary l as os → Binary r bs us → Binary (.form o [l, r]) (as ++ bs) (os ++ o :: us)

/-- **A binary tree over a chain.** -/
inductive Spans : Tree → Chain → Prop
  | leaf (a : Token) : Spans (.leaf a) (.single a)
  | node {o : Token} {l r : Tree} {c e : Chain} :
      Spans l c → Spans r e → Spans (.form o [l, r]) (c.join o e)

variable {x : Tree} {c : Chain}

theorem Spans.binary (h : x.Spans c) : x.Binary c.operands c.operators := by
  induction h with
  | leaf a => exact .leaf a
  | node _ _ ihl ihr =>
    rw [Chain.operands_join, Chain.operators_join]
    exact .node ihl ihr

theorem Binary.exists_chain {as os : List Token} (h : x.Binary as os) :
    ∃ c : Chain, x.Spans c ∧ c.operands = as ∧ c.operators = os := by
  induction h with
  | leaf a => exact ⟨.single a, .leaf a, rfl, rfl⟩
  | @node o _ _ _ _ _ _ _ _ ihl ihr =>
    obtain ⟨c, hc, rfl, rfl⟩ := ihl
    obtain ⟨e, he, rfl, rfl⟩ := ihr
    exact ⟨c.join o e, .node hc he, Chain.operands_join, Chain.operators_join⟩

/-- A chain leaves no choice but how it is grouped. -/
theorem binary_iff_spans : x.Binary c.operands c.operators ↔ x.Spans c := by
  refine ⟨fun h => ?_, Spans.binary⟩
  obtain ⟨e, he, hoperands, hoperators⟩ := h.exists_chain
  exact Chain.ext_iff_operands.1 ⟨hoperands, hoperators⟩ ▸ he

/-- **What is asked of the root** of a tree, which nothing is of a leaf. -/
def AtRoot (P : Token → Prop) : Tree → Prop
  | leaf _ => True
  | form t _ => P t

theorem AtRoot.mono {P Q : Token → Prop} (h : x.AtRoot P) (hPQ : ∀ t, P t → Q t) : x.AtRoot Q := by
  cases x with
  | leaf => trivial
  | form t args => exact hPQ t h

theorem Spans.atRoot {P : Token → Prop} (h : x.Spans c) (hP : ∀ o ∈ c.operators, P o) :
    x.AtRoot P := by
  cases h with
  | leaf => trivial
  | node => exact hP _ (by simp)

end Tree

namespace Parser

variable (p : Parser)

/-- How loosely a token binds between operands. -/
def looseness (o : Token) : Int := Registry.precedenceOf (p.operatorAt? .infixed o)

/-- **A tree that is grouped by precedence**: the left operand of each operator binds no looser than
the operator, and the right one binds tighter. -/
inductive Grouped : Tree → Prop
  | leaf (a : Token) : Grouped (.leaf a)
  | node {o : Token} {l r : Tree} : Grouped l → Grouped r →
      l.AtRoot (fun u => p.looseness u ≤ p.looseness o) →
      r.AtRoot (fun u => p.looseness u < p.looseness o) → Grouped (.form o [l, r])

/-- **A token that is an operand by itself**: a literal, or a name that can be looked up and is no
prefix operator. -/
def IsOperand (a : Token) : Prop :=
  a.kind = .number ∨ a.kind = .string ∨
    a.kind = .atom ∧ a.spelledByList = false ∧ p.operatorAt? .prefixed a = none

/-- **A token that goes between operands**: an infix operator that an expression may hold and that
names a builtin, and no postfix operator. -/
def IsInfix (o : Token) : Prop :=
  p.operatorAt? .postfixed o = none ∧ ∃ op, p.operatorAt? .infixed o = some op ∧
    op.precedence ≤ loosest ∧ p.registry.contains op.name = true

variable {p} {c : Chain} {x : Tree}

/-! ### Every chain can be grouped -/

/-- **A link more.** It takes the whole tree for its left operand, or goes into the right operand at
the root; so the root is the one it was, or the new operator. -/
theorem Grouped.exists_join (h : p.Grouped x) (hc : x.Spans c) (o a : Token) :
    ∃ y, y.Spans (c.join o (.single a)) ∧ p.Grouped y ∧
      ∀ P : Token → Prop, P o → x.AtRoot P → y.AtRoot P := by
  induction h generalizing c with
  | leaf b =>
    refine ⟨.form o [.leaf b, .leaf a], .node hc (.leaf a), ?_, fun _ hP _ => hP⟩
    exact .node (.leaf b) (.leaf a) trivial trivial
  | @node q l r hl hr hleft hright _ ih =>
    by_cases hle : p.looseness q ≤ p.looseness o
    · refine ⟨.form o [.form q [l, r], .leaf a], .node hc (.leaf a), ?_, fun _ hP _ => hP⟩
      exact .node (.node hl hr hleft hright) (.leaf a) hle trivial
    · cases hc with
      | node hcl hcr =>
        obtain ⟨y, hy, hgrouped, hroot⟩ := ih hcr
        rw [Chain.join_assoc]
        refine ⟨.form q [l, y], .node hcl hy, ?_, fun _ _ hP => hP⟩
        exact .node hl hgrouped hleft (hroot _ (by omega) hright)

/-- **Every chain can be grouped**, whatever its operators. -/
theorem exists_grouped (p : Parser) (c : Chain) : ∃ x, x.Spans c ∧ p.Grouped x := by
  obtain ⟨first, links⟩ := c
  induction links using List.reverseRecOn with
  | nil => exact ⟨.leaf first, .leaf first, .leaf first⟩
  | append_singleton links link ih =>
    obtain ⟨x, hx, hgrouped⟩ := ih
    obtain ⟨y, hy, hgrouped, -⟩ := hgrouped.exists_join hx link.1 link.2
    exact ⟨y, hy, hgrouped⟩

/-! ### What is grouped is read -/

theorem IsInfix.kind_ne {o : Token} (h : p.IsInfix o) (m : Mark) : o.kind ≠ .mark m := by
  obtain ⟨-, op, hop, -⟩ := h
  rcases kind_of_operatorAt? hop with hk | hk <;> simp [hk]

theorem IsInfix.spelledByList_eq {o : Token} (h : p.IsInfix o) : o.spelledByList = false := by
  obtain ⟨-, op, hop, -⟩ := h
  exact spelledByList_of_operatorAt? hop

/-- An infix operator goes on with an expression just if it binds no looser than the depth. -/
theorem IsInfix.following?_eq {o : Token} (h : p.IsInfix o) : ∃ op,
    op.fixity = .infixed ∧ op.precedence = p.looseness o ∧ p.registry.contains op.name = true ∧
      ∀ d, p.following? o d = if p.looseness o ≤ d then some op else none := by
  obtain ⟨hpost, op, hop, -, hc⟩ := h
  obtain ⟨s, -, hs⟩ := Option.bind_eq_some_iff.1 hop
  have hlooseness : op.precedence = p.looseness o := by rw [looseness, hop]; rfl
  refine ⟨op, (Registry.operator?_eq_some hs).2.1, hlooseness, hc, fun d => ?_⟩
  simp [following?, hop, hpost, Option.filter_some, hlooseness]

theorem IsInfix.stops {o : Token} (h : p.IsInfix o) {d : Int} (hd : d < p.looseness o)
    (ts : List Token) : p.Stops d (o :: ts) := by
  obtain ⟨op, -, -, -, hfollowing⟩ := h.following?_eq
  refine ⟨h.spelledByList_eq, ?_⟩
  rw [current, List.headD_cons, hfollowing, if_neg (by omega)]

/-- An operand is read as a leaf, unless it is called. -/
theorem IsOperand.reads {a : Token} (h : p.IsOperand a) {ts : List Token}
    (hts : (current ts).kind ≠ .mark .openParen) : Reads p .operand (a :: ts) [.leaf a] ts := by
  rcases h with hk | hk | ⟨hk, hs, hop⟩
  · exact .literal (.inl hk)
  · exact .literal (.inr hk)
  · exact .name hs hk hop hts

section

variable (hoperands : ∀ a ∈ c.operands, p.IsOperand a) (hoperators : ∀ o ∈ c.operators, p.IsInfix o)
  {d : Int} {y : Tree} {ts rest : List Token} (hts : (current ts).kind ≠ .mark .openParen)
include hoperands hoperators hts

/-- A chain is read if the operators behind its first operand are. -/
theorem reads_of_tail (h : Reads p (.operators (.leaf c.first) d) (c.tail ++ ts) [y] rest) :
    Reads p (.expression d) (c.tokens ++ ts) [y] rest := by
  refine .expression ((hoperands c.first (by simp [Chain.operands])).reads ?_) h
  obtain ⟨first, links⟩ := c
  cases links with
  | nil => exact hts
  | cons link links => exact (hoperators link.1 (by simp [Chain.operators])).kind_ne _

/-- **A tree that is grouped is read from its chain.** Behind the first operand stand the operators
that build the tree, and then whatever goes on with the whole of it. -/
theorem Grouped.reads_tail (h : p.Grouped x) (hx : x.Spans c)
    (hd : x.AtRoot fun o => p.looseness o ≤ d)
    (hstops : x.AtRoot fun o => p.Stops (p.looseness o - 1) ts)
    (hmore : Reads p (.operators x d) ts [y] rest) :
    Reads p (.operators (.leaf c.first) d) (c.tail ++ ts) [y] rest := by
  -- on the way down to the left, more and more of the chain goes on with the tree
  induction h generalizing c d y ts rest with
  | leaf a =>
    cases hx
    exact hmore
  | @node o l r hl hr hleft hright ihl ihr =>
    cases hx with
    | @node _ _ _ cl cr hxl hxr =>
      simp only [Chain.operands_join, Chain.operators_join, List.forall_mem_append,
        List.forall_mem_cons] at hoperands hoperators
      obtain ⟨hol, hor⟩ := hoperands
      obtain ⟨hil, ho, hir⟩ := hoperators
      obtain ⟨op, hfixity, hprecedence, hnamed, hfollowing⟩ := ho.following?_eq
      have hrhs : Reads p (.expression (op.precedence - 1)) (cr.tokens ++ ts) [r] ts := by
        rw [hprecedence]
        have hdepth : r.AtRoot fun u => p.looseness u ≤ p.looseness o - 1 :=
          hright.mono fun u hu => by omega
        have hbehind : r.AtRoot fun u => p.Stops (p.looseness u - 1) ts :=
          hright.mono fun u hu => ⟨hstops.1, following?_mono hstops.2 (by omega)⟩
        exact reads_of_tail hor hir hts (ihr hor hir hts hxr hdepth hbehind (.stop hstops))
      rw [Chain.first_join, Chain.tail_join, List.append_assoc]
      refine ihl hol hil (ho.kind_ne _) hxl (hleft.mono fun u hu => Int.le_trans hu hd) ?_ ?_
      · exact hleft.mono fun u hu => ho.stops (by omega) _
      · exact .infixed ho.spelledByList_eq ((hfollowing d).trans (if_pos hd)) hfixity hnamed hrhs
          hmore

end

/-- **A tree that is grouped is what the parser reads.** -/
theorem Grouped.parseTokens (h : p.Grouped x) (hx : x.Spans c)
    (hoperands : ∀ a ∈ c.operands, p.IsOperand a) (hoperators : ∀ o ∈ c.operators, p.IsInfix o)
    {last : Token} (hlast : last.kind = .finish) :
    p.parseTokens (c.tokens ++ [last]) = .ok [x] := by
  have hends : last.Ends := .inl hlast
  have hloosest : x.AtRoot fun o => p.looseness o ≤ loosest := hx.atRoot fun o ho => by
    obtain ⟨-, op, hop, hle, -⟩ := hoperators o ho
    rwa [looseness, hop]
  have hstops : x.AtRoot fun o => p.Stops (p.looseness o - 1) [last] :=
    hx.atRoot fun o _ => hends.stops _ []
  have htail := h.reads_tail hoperands hoperators (hends.ne_openParen []) hx hloosest hstops
    (.stop (hends.stops loosest []))
  rw [Parser.parseTokens, supply_eq (t := last) (by simp) hlast]
  exact statements_of_expression hlast
    (reads_of_tail hoperands hoperators (hends.ne_openParen []) htail)

/-- **Infix operators are read by precedence.** A chain of operands and infix operators is read as
one statement: the binary tree over it in which the left operand of each operator binds no looser
than the operator, and the right one tighter. There is just one such tree. -/
theorem parseTokens_chain (hoperands : ∀ a ∈ c.operands, p.IsOperand a)
    (hoperators : ∀ o ∈ c.operators, p.IsInfix o) {last : Token} (hlast : last.kind = .finish) :
    ∃ x, p.parseTokens (c.tokens ++ [last]) = .ok [x] ∧
      ∀ y : Tree, y.Binary c.operands c.operators ∧ p.Grouped y ↔ y = x := by
  have hparse {y : Tree} (hy : y.Spans c) (hgrouped : p.Grouped y) :=
    hgrouped.parseTokens hy hoperands hoperators hlast
  obtain ⟨x, hx, hgrouped⟩ := exists_grouped p c
  refine ⟨x, hparse hx hgrouped, fun y => ⟨fun ⟨hy, hgrouped'⟩ => ?_, ?_⟩⟩
  · have heq := (hparse (Tree.binary_iff_spans.1 hy) hgrouped').symm.trans (hparse hx hgrouped)
    exact (List.cons.inj (Except.ok.inj heq)).1
  · rintro rfl
    exact ⟨hx.binary, hgrouped⟩

attribute [local irreducible] coreRegistry

theorem isInfix_of_mem {op : Operator} (hm : op ∈ coreRegistry.operators)
    (hf : op.fixity = .infixed) {t : Token} (ht : t.spelling? = some op.name) :
    (Parser.mk coreRegistry "").IsInfix t ∧
      (Parser.mk coreRegistry "").looseness t = op.precedence := by
  have hop : (Parser.mk coreRegistry "").operatorAt? .infixed t = some op := by
    rw [operatorAt?_of_spelling ht, ← hf, CoreTable.operator?_of_mem hm]
  refine ⟨⟨?_, op, hop, (CoreTable.precedence_bounds hm).2, CoreTable.contains_of_mem hm⟩, ?_⟩
  · rw [operatorAt?_of_spelling ht, CoreTable.operator?_postfixed_of_infixed hm hf]
  · rw [looseness, hop]
    rfl

/-- The chain of `1 - 2 * 3 - 4`. -/
def differences : Chain :=
  ⟨⟨.number, .num (.int 1), ⟨1, 1⟩⟩,
    [(⟨.operator, .str "-", ⟨1, 3⟩⟩, ⟨.number, .num (.int 2), ⟨1, 5⟩⟩),
     (⟨.operator, .str "*", ⟨1, 7⟩⟩, ⟨.number, .num (.int 3), ⟨1, 9⟩⟩),
     (⟨.operator, .str "-", ⟨1, 11⟩⟩, ⟨.number, .num (.int 4), ⟨1, 13⟩⟩)]⟩

/-- The product goes into the first difference, and that into the second. -/
theorem parseTokens_chain_differences :
    (∀ a ∈ differences.operands, (Parser.mk coreRegistry "").IsOperand a) ∧
      (∀ o ∈ differences.operators, (Parser.mk coreRegistry "").IsInfix o) ∧
      ∃ x, (Parser.mk coreRegistry "").parseTokens (differences.tokens ++ [.ofEnd ⟨1, 14⟩]) =
          .ok [x] ∧
        (∀ y : Tree, y.Binary differences.operands differences.operators ∧
          (Parser.mk coreRegistry "").Grouped y ↔ y = x) ∧
        x = .form ⟨.operator, .str "-", ⟨1, 11⟩⟩
          [.form ⟨.operator, .str "-", ⟨1, 3⟩⟩ [.leaf ⟨.number, .num (.int 1), ⟨1, 1⟩⟩,
            .form ⟨.operator, .str "*", ⟨1, 7⟩⟩ [.leaf ⟨.number, .num (.int 2), ⟨1, 5⟩⟩,
              .leaf ⟨.number, .num (.int 3), ⟨1, 9⟩⟩]],
            .leaf ⟨.number, .num (.int 4), ⟨1, 13⟩⟩] := by
  have hminus {pos : Pos} := @isInfix_of_mem ⟨.infixed, 70, "-", 6⟩
    (by rw [CoreTable.operators_eq]; decide) rfl ⟨.operator, .str "-", pos⟩ rfl
  have htimes {pos : Pos} := @isInfix_of_mem ⟨.infixed, 40, "*", 3⟩
    (by rw [CoreTable.operators_eq]; decide) rfl ⟨.operator, .str "*", pos⟩ rfl
  have hoperands : ∀ a ∈ differences.operands, (Parser.mk coreRegistry "").IsOperand a := by
    simp [differences, Chain.operands, IsOperand]
  have hoperators : ∀ o ∈ differences.operators, (Parser.mk coreRegistry "").IsInfix o := by
    simp [differences, Chain.operators, hminus.1, htimes.1]
  have hend : (Token.ofEnd ⟨1, 14⟩).kind = .finish := rfl
  obtain ⟨x, hx, hiff⟩ := parseTokens_chain hoperands hoperators hend
  refine ⟨hoperands, hoperators, x, hx, hiff, ((hiff _).1 ⟨?_, ?_⟩).symm⟩
  · exact (Tree.Spans.node (.node (.leaf _) (.node (.leaf _) (.leaf _))) (.leaf _)).binary
  · refine .node (.node (.leaf _) ?_ trivial ?_) (.leaf _) ?_ trivial
    · exact .node (.leaf _) (.leaf _) trivial trivial
    · simp only [Tree.AtRoot, hminus.2, htimes.2]
      decide
    · simp only [Tree.AtRoot, hminus.2]
      decide

end Parser

end TermCalc
