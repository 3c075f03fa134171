import Mathlib.Data.List.Forall2
import TermCalc.Proofs.Registry.Table
import TermCalc.Proofs.Syntax.Grammar

/-!
# Nodes and tokens

The parser loses nothing and makes nothing up: the nodes of what it returns, at every depth, are the
tokens that it was given, less parentheses, commas, semicolons and closing marks.

* `Tree.tokens`, `Token.isHead`: the tokens that are the nodes of a tree, and those that can be.
* `Parser.balanced_of_reads`: **every rule of the syntax keeps the balance** of the tokens ahead and
  those in trees.
* `Parser.formed_of_reads`: leaves are literals and atoms, and the tokens at the head of forms are
  names, symbols, braces and brackets.
* `Node`, `Tree.nodes`, `Term.nodes`: the nodes of a tree and of the expression that it denotes.
* `Parser.nodes_of_parseTokens`: **nodes and tokens correspond, one to one.**
-/

namespace TermCalc

/-! ### The tokens of a tree -/

namespace Tree

mutual

/-- The tokens that are the nodes of a tree, from the root down. -/
def tokens : Tree → List Token
  | leaf t => [t]
  | form t args => t :: tokensAll args

/-- The tokens that are the nodes of trees. -/
def tokensAll : List Tree → List Token
  | [] => []
  | t :: ts => tokens t ++ tokensAll ts

end

@[simp] theorem tokens_leaf (t : Token) : (leaf t).tokens = [t] := by rw [tokens]

@[simp] theorem tokens_form (t : Token) (args : List Tree) :
    (form t args).tokens = t :: tokensAll args := by rw [tokens]

@[simp] theorem tokensAll_nil : tokensAll [] = [] := by rw [tokensAll]

@[simp] theorem tokensAll_cons (t : Tree) (ts : List Tree) :
    tokensAll (t :: ts) = t.tokens ++ tokensAll ts := by rw [tokensAll]

@[simp] theorem tokensAll_append (ts us : List Tree) :
    tokensAll (ts ++ us) = tokensAll ts ++ tokensAll us := by
  induction ts with
  | nil => rfl
  | cons t ts ih => simp [ih]

theorem count_tokensAll_nil (a : Token) : (tokensAll []).count a = 0 := by rw [tokensAll_nil]; rfl

theorem count_tokensAll_cons (a : Token) (t : Tree) (ts : List Tree) :
    (tokensAll (t :: ts)).count a = t.tokens.count a + (tokensAll ts).count a := by
  rw [tokensAll_cons, List.count_append]

theorem count_tokens_form (a t : Token) (args : List Tree) :
    (form t args).tokens.count a = [t].count a + (tokensAll args).count a := by
  rw [tokens_form, ← List.singleton_append, List.count_append]

end Tree

/-- **The kinds of tokens that have nodes**: literals, names, symbols, opening braces and
brackets. -/
def TokenKind.isHead : TokenKind → Bool
  | number | string | atom | operator | mark .openBrace | mark .openBracket => true
  | _ => false

/-- Whether a token has a node. -/
def Token.isHead (t : Token) : Bool := t.kind.isHead

/-- The tokens ahead that have nodes. -/
def heads (ts : List Token) : List Token := ts.filter Token.isHead

theorem count_heads_of_isHead {t : Token} {k : TokenKind} (hk : t.kind = k)
    (h : k.isHead = true) (a : Token) (ts : List Token) :
    (heads (t :: ts)).count a = [t].count a + (heads ts).count a := by
  have ht : t.isHead = true := by rw [Token.isHead, hk, h]
  rw [heads, List.filter_cons_of_pos ht, ← List.singleton_append, List.count_append, heads]

theorem count_heads_of_not {t : Token} {k : TokenKind} (hk : t.kind = k) (h : k.isHead = false)
    (a : Token) (ts : List Token) : (heads (t :: ts)).count a = (heads ts).count a := by
  have ht : ¬ t.isHead = true := by rw [Token.isHead, hk, h]; exact Bool.false_ne_true
  rw [heads, List.filter_cons_of_neg ht, heads]

/-! ### What the rules take -/

/-- What has been read of a phrase before it. -/
def Phrase.given : Phrase → List Tree
  | .operators lhs _ => [lhs]
  | _ => []

/-- That what closes a phrase has no node of its own. -/
def Phrase.closed : Phrase → Bool
  | .arguments closing | .items closing => !(TokenKind.mark closing).isHead
  | _ => true

namespace Parser

variable {p : Parser}

/-- That some tokens have been taken off others, and that the end was not among them. -/
def Takes (ts rest : List Token) : Prop := ∃ us, ts = us ++ rest ∧ ∀ u ∈ us, u.kind ≠ .finish

namespace Takes

theorem refl (ts : List Token) : Takes ts ts := ⟨[], rfl, by simp⟩

theorem trans {ts mid rest : List Token} (h : Takes ts mid) (h' : Takes mid rest) :
    Takes ts rest := by
  obtain ⟨us, rfl, hus⟩ := h
  obtain ⟨vs, rfl, hvs⟩ := h'
  exact ⟨us ++ vs, by rw [List.append_assoc], List.forall_mem_append.2 ⟨hus, hvs⟩⟩

theorem token {t : Token} (h : t.kind ≠ .finish) {ts rest : List Token} (hts : Takes ts rest) :
    Takes (t :: ts) rest := by
  obtain ⟨us, rfl, hus⟩ := hts
  exact ⟨t :: us, rfl, List.forall_mem_cons.2 ⟨h, hus⟩⟩

theorem mark {m : Mark} {t : Token} (h : t.kind = .mark m) {ts rest : List Token}
    (hts : Takes ts rest) : Takes (t :: ts) rest := token (by simp [h]) hts

theorem spelled {t : Token} (h : t.kind = .atom ∨ t.kind = .operator) {ts rest : List Token}
    (hts : Takes ts rest) : Takes (t :: ts) rest :=
  token (by rcases h with h | h <;> simp [h]) hts

end Takes

/-- **Reading takes tokens, but never the end.** -/
theorem takes_of_reads {f : Phrase} {ts rest : List Token} {xs : List Tree}
    (h : Reads p f ts xs rest) : Takes ts rest := by
  induction h with
  | stop | finish => exact .refl _
  | expression _ _ ih₁ ih₂ => exact ih₁.trans ih₂
  | infixed _ hop _ _ _ _ ih₁ ih₂ =>
    obtain ⟨_, hop⟩ := operatorAt?_of_following? hop
    exact .spelled (kind_of_operatorAt? hop) (ih₁.trans ih₂)
  | postfixed _ hop _ _ _ ih =>
    obtain ⟨_, hop⟩ := operatorAt?_of_following? hop
    exact .spelled (kind_of_operatorAt? hop) ih
  | symbolPrefix _ hk hu _ _ _ _ ih₁ ih₂ => exact .spelled (.inr hk) (.mark hu (ih₁.trans ih₂))
  | symbolCall _ hk hu _ _ ih => exact .spelled (.inr hk) (.mark hu ih)
  | prefixed _ hop _ _ _ ih => exact .spelled (kind_of_operatorAt? hop) ih
  | literal hk => exact .token (by rcases hk with hk | hk <;> simp [hk]) (.refl _)
  | name _ hk _ _ => exact .spelled (.inl hk) (.refl _)
  | call _ hk hu _ _ ih => exact .spelled (.inl hk) (.mark hu ih)
  | bodied _ hk hu _ _ _ _ ih₁ ih₂ => exact .spelled (.inl hk) (.mark hu (ih₁.trans ih₂))
  | parens hk hu _ ih => exact .mark hk (ih.trans (.mark hu (.refl _)))
  | braces hk _ ih | brackets hk _ ih | skipInBlock hk _ ih | skip hk _ ih => exact .mark hk ih
  | noArguments hk | endBlock hk => exact .mark hk (.refl _)
  | someArguments _ _ ih => exact ih
  | lastItem _ hk _ ih => exact ih.trans (.mark hk (.refl _))
  | item hk _ _ ih₁ ih₂ => exact ih₁.trans (.mark hk ih₂)
  | blockStatement _ _ _ _ _ _ ih₁ ih₂ | statement _ _ _ _ _ ih₁ ih₂ => exact ih₁.trans ih₂

/-- **The balance of a phrase**: each token occurs as often before it as behind it, in trees and
ahead. -/
def Balanced (f : Phrase) (ts : List Token) (xs : List Tree) (rest : List Token) : Prop :=
  ∀ a, (Tree.tokensAll f.given).count a + (heads ts).count a =
    (Tree.tokensAll xs).count a + (heads rest).count a

theorem isHead_of_operatorAt? {fixity : Fixity} {t : Token} {op : Operator}
    (h : p.operatorAt? fixity t = some op) : t.kind.isHead = true := by
  rcases kind_of_operatorAt? h with hk | hk <;> rw [hk] <;> rfl

/-- **Every rule keeps the balance.** -/
theorem balanced_of_reads {f : Phrase} {ts rest : List Token} {xs : List Tree}
    (h : Reads p f ts xs rest) : f.closed = true → Balanced f ts xs rest := by
  induction h with
  | stop | finish => exact fun _ a => rfl
  | expression _ _ ih₁ ih₂ =>
    intro _ a
    have h₁ := ih₁ rfl a
    have h₂ := ih₂ rfl a
    simp only [Phrase.given] at h₁ h₂ ⊢
    omega
  | infixed _ hop _ _ _ _ ih₁ ih₂ =>
    intro _ a
    obtain ⟨_, hop⟩ := operatorAt?_of_following? hop
    have h₁ := ih₁ rfl a
    have h₂ := ih₂ rfl a
    simp only [Phrase.given, Tree.count_tokensAll_nil, Tree.count_tokensAll_cons,
      Tree.count_tokens_form, count_heads_of_isHead rfl (isHead_of_operatorAt? hop)] at h₁ h₂ ⊢
    omega
  | postfixed _ hop _ _ _ ih =>
    intro _ a
    obtain ⟨_, hop⟩ := operatorAt?_of_following? hop
    have h := ih rfl a
    simp only [Phrase.given, Tree.count_tokensAll_nil, Tree.count_tokensAll_cons,
      Tree.count_tokens_form, count_heads_of_isHead rfl (isHead_of_operatorAt? hop)] at h ⊢
    omega
  | symbolPrefix _ hk hu _ _ _ _ ih₁ ih₂ =>
    intro _ a
    have h₁ := ih₁ rfl a
    have h₂ := ih₂ rfl a
    simp only [Phrase.given, Tree.count_tokensAll_nil, Tree.count_tokensAll_cons,
      Tree.count_tokens_form, count_heads_of_isHead hk rfl, count_heads_of_not hu rfl] at h₁ h₂ ⊢
    omega
  | symbolCall _ hk hu _ _ ih | call _ hk hu _ _ ih =>
    intro _ a
    have h := ih rfl a
    simp only [Phrase.given, Tree.count_tokensAll_nil, Tree.count_tokensAll_cons,
      Tree.count_tokens_form, count_heads_of_isHead hk rfl, count_heads_of_not hu rfl] at h ⊢
    omega
  | prefixed _ hop _ _ _ ih =>
    intro _ a
    have h := ih rfl a
    simp only [Phrase.given, Tree.count_tokensAll_nil, Tree.count_tokensAll_cons,
      Tree.count_tokens_form, count_heads_of_isHead rfl (isHead_of_operatorAt? hop)] at h ⊢
    omega
  | @literal t ts hk =>
    intro _ a
    have hhead : t.kind.isHead = true := by rcases hk with hk | hk <;> rw [hk] <;> rfl
    simp only [Phrase.given, Tree.count_tokensAll_nil, Tree.count_tokensAll_cons, Tree.tokens_leaf,
      count_heads_of_isHead rfl hhead]
    omega
  | name _ hk _ _ =>
    intro _ a
    simp only [Phrase.given, Tree.count_tokensAll_nil, Tree.count_tokensAll_cons, Tree.tokens_leaf,
      count_heads_of_isHead hk rfl]
    omega
  | bodied _ hk hu _ _ _ _ ih₁ ih₂ =>
    intro _ a
    have h₁ := ih₁ rfl a
    have h₂ := ih₂ rfl a
    simp only [Phrase.given, Tree.count_tokensAll_nil, Tree.count_tokensAll_cons,
      Tree.count_tokens_form, Tree.tokensAll_append, List.count_append,
      count_heads_of_isHead hk rfl, count_heads_of_not hu rfl] at h₁ h₂ ⊢
    omega
  | parens hk hu _ ih =>
    intro _ a
    have h := ih rfl a
    simp only [Phrase.given, count_heads_of_not hk rfl, count_heads_of_not hu rfl] at h ⊢
    exact h
  | braces hk _ ih | brackets hk _ ih =>
    intro _ a
    have h := ih rfl a
    simp only [Phrase.given, Tree.count_tokensAll_nil, Tree.count_tokensAll_cons,
      Tree.count_tokens_form, count_heads_of_isHead hk rfl] at h ⊢
    omega
  | noArguments hk =>
    intro hclosed a
    simp only [Phrase.given, count_heads_of_not hk (by simpa [Phrase.closed] using hclosed)]
  | endBlock hk =>
    intro _ a
    simp only [Phrase.given, count_heads_of_not hk rfl]
  | someArguments _ _ ih => exact ih
  | lastItem _ hk _ ih =>
    intro hclosed a
    have h := ih rfl a
    simp only [Phrase.given,
      count_heads_of_not hk (by simpa [Phrase.closed] using hclosed)] at h ⊢
    exact h
  | item hk _ _ ih₁ ih₂ =>
    intro hclosed a
    have h₁ := ih₁ rfl a
    have h₂ := ih₂ hclosed a
    simp only [Phrase.given, Tree.count_tokensAll_cons, count_heads_of_not hk rfl] at h₁ h₂ ⊢
    omega
  | skipInBlock hk _ ih | skip hk _ ih =>
    intro _ a
    have h := ih rfl a
    simp only [Phrase.given, count_heads_of_not hk rfl] at h ⊢
    exact h
  | blockStatement _ _ _ _ _ _ ih₁ ih₂ | statement _ _ _ _ _ ih₁ ih₂ =>
    intro _ a
    have h₁ := ih₁ rfl a
    have h₂ := ih₂ rfl a
    simp only [Phrase.given, Tree.count_tokensAll_cons] at h₁ h₂ ⊢
    omega

end Parser

/-! ### What stands where -/

/-- **A tree in form**: its leaves are literals and atoms, and its forms start with names, symbols,
braces or brackets. -/
inductive Tree.Formed : Tree → Prop
  | leaf {t : Token} : t.kind = .number ∨ t.kind = .string ∨ t.kind = .atom → Formed (.leaf t)
  | form {t : Token} {args : List Tree} :
      t.kind = .atom ∨ t.kind = .operator ∨ t.kind = .mark .openBrace ∨
        t.kind = .mark .openBracket →
      (∀ a ∈ args, Formed a) → Formed (.form t args)

theorem Tree.Formed.spelled {t : Token} {args : List Tree}
    (hk : t.kind = .atom ∨ t.kind = .operator) (h : ∀ a ∈ args, a.Formed) :
    (Tree.form t args).Formed :=
  .form (hk.imp_right .inl) h

/-- **What is read is in form**, if what was given is. -/
theorem Parser.formed_of_reads {p : Parser} {f : Phrase} {ts rest : List Token} {xs : List Tree}
    (h : Reads p f ts xs rest) : (∀ x ∈ f.given, x.Formed) → ∀ x ∈ xs, x.Formed := by
  have hnone : ∀ x ∈ ([] : List Tree), x.Formed := fun _ hx => by cases hx
  induction h with
  | stop => exact id
  | expression _ _ ih₁ ih₂ => exact fun _ => ih₂ (ih₁ hnone)
  | infixed _ hop _ _ _ _ ih₁ ih₂ =>
    intro hl
    obtain ⟨_, hop⟩ := operatorAt?_of_following? hop
    refine ih₂ (List.forall_mem_singleton.2 (.spelled (kind_of_operatorAt? hop) ?_))
    exact List.forall_mem_cons.2 ⟨List.forall_mem_singleton.1 hl, ih₁ hnone⟩
  | postfixed _ hop _ _ _ ih =>
    intro hl
    obtain ⟨_, hop⟩ := operatorAt?_of_following? hop
    exact ih (List.forall_mem_singleton.2 (.spelled (kind_of_operatorAt? hop) hl))
  | symbolPrefix _ hk _ _ _ _ _ ih₁ ih₂ =>
    exact fun _ => List.forall_mem_singleton.2 (.spelled (.inr hk) (ih₂ (ih₁ hnone)))
  | symbolCall _ hk _ _ _ ih =>
    exact fun _ => List.forall_mem_singleton.2 (.spelled (.inr hk) (ih hnone))
  | prefixed _ hop _ _ _ ih =>
    exact fun _ => List.forall_mem_singleton.2 (.spelled (kind_of_operatorAt? hop) (ih hnone))
  | literal hk => exact fun _ => List.forall_mem_singleton.2 (.leaf (hk.imp_right .inl))
  | name _ hk _ _ => exact fun _ => List.forall_mem_singleton.2 (.leaf (.inr (.inr hk)))
  | call _ hk _ _ _ ih =>
    exact fun _ => List.forall_mem_singleton.2 (.spelled (.inl hk) (ih hnone))
  | bodied _ hk _ _ _ _ _ ih₁ ih₂ =>
    exact fun _ => List.forall_mem_singleton.2 (.spelled (.inl hk)
      (List.forall_mem_append.2 ⟨ih₁ hnone, ih₂ hnone⟩))
  | parens _ _ _ ih | someArguments _ _ ih | lastItem _ _ _ ih | skipInBlock _ _ ih | skip _ _ ih =>
    exact fun _ => ih hnone
  | braces hk _ ih =>
    exact fun _ => List.forall_mem_singleton.2 (.form (.inr (.inr (.inl hk))) (ih hnone))
  | brackets hk _ ih =>
    exact fun _ => List.forall_mem_singleton.2 (.form (.inr (.inr (.inr hk))) (ih hnone))
  | noArguments | endBlock | finish => exact fun _ => hnone
  | item _ _ _ ih₁ ih₂ | blockStatement _ _ _ _ _ _ ih₁ ih₂ | statement _ _ _ _ _ ih₁ ih₂ =>
    exact fun _ => List.forall_mem_cons.2 ⟨List.forall_mem_singleton.1 (ih₁ hnone), ih₂ hnone⟩

/-! ### Nodes -/

/-- The kinds of nodes. -/
inductive NodeKind where
  | number
  | string
  | atom
  | form
  deriving DecidableEq

/-- **A node**: its kind, its value or operator, and its place. -/
structure Node where
  kind : NodeKind
  content : Term
  pos : Pos

namespace Tree

/-- The kind of the node that a token is by itself. -/
def leafKind (t : Token) : NodeKind :=
  match t.kind with
  | .number => .number
  | .string => .string
  | _ => .atom

mutual

/-- **The nodes of a tree**, from the root down. -/
def nodes : Tree → List Node
  | leaf t => [⟨leafKind t, t.value, t.pos⟩]
  | form t args => ⟨.form, t.head, t.pos⟩ :: nodesAll args

/-- The nodes of trees. -/
def nodesAll : List Tree → List Node
  | [] => []
  | t :: ts => nodes t ++ nodesAll ts

end

end Tree

namespace Term

mutual

/-- **The nodes of an expression**, from the root down. -/
def nodes : Term → List Node
  | numeral n pos => [⟨.number, .num n, pos⟩]
  | text s pos => [⟨.string, .str s, pos⟩]
  | atom name pos => [⟨.atom, .str name, pos⟩]
  | form name args pos => ⟨.form, .str name, pos⟩ :: nodesAll args
  | _ => []

/-- The nodes of expressions. -/
def nodesAll : List Term → List Node
  | [] => []
  | t :: ts => nodes t ++ nodesAll ts

end

end Term

/-- **A node stands for a token**: it is in the place of the token. A literal or an atom has the
value of a token of its kind. A form has the value of a name or symbol as its operator, or is a list
from a brace or a block from a bracket. -/
def Node.StandsFor (n : Node) (t : Token) : Prop :=
  n.pos = t.pos ∧
    match n.kind with
    | .number => t.kind = .number ∧ n.content = t.value
    | .string => t.kind = .string ∧ n.content = t.value
    | .atom => t.kind = .atom ∧ n.content = t.value
    | .form => (t.kind = .atom ∨ t.kind = .operator) ∧ n.content = t.value ∨
        t.kind = .mark .openBrace ∧ n.content = .str "List" ∨
        t.kind = .mark .openBracket ∧ n.content = .str "Prog"

/-- A token with a value of its kind, as every token of a text has. -/
def Token.Typed (t : Token) : Prop :=
  match t.kind with
  | .number => ∃ n, t.value = .num n
  | .string | .atom | .operator => ∃ s, t.value = .str s
  | .mark _ | .finish => True

namespace Tree

mutual

theorem Formed.standFor {x : Tree} (h : x.Formed) :
    List.Forall₂ Node.StandsFor x.nodes x.tokens := by
  cases h with
  | @leaf t hk =>
    rw [nodes, tokens]
    refine .cons ⟨rfl, ?_⟩ .nil
    rcases hk with hk | hk | hk <;> simp only [leafKind, hk, and_self]
  | @form t args hk hargs =>
    rw [nodes, tokens]
    refine .cons ⟨rfl, ?_⟩ (standFor_all hargs)
    rcases hk with hk | hk | hk | hk <;> simp [Token.head, hk]

theorem standFor_all {xs : List Tree} (h : ∀ x ∈ xs, x.Formed) :
    List.Forall₂ Node.StandsFor (nodesAll xs) (tokensAll xs) := by
  match xs with
  | [] => rw [nodesAll, tokensAll]; exact .nil
  | x :: xs =>
    rw [nodesAll, tokensAll]
    have hx := (h x (by simp)).standFor
    exact List.rel_append hx (standFor_all fun y hy => h y (by simp [hy]))

end

mutual

/-- The expression that a tree in form denotes has its nodes, if its tokens are typed. -/
theorem Formed.nodes_term {x : Tree} (h : x.Formed) (ht : ∀ t ∈ x.tokens, t.Typed) :
    x.term.nodes = x.nodes := by
  cases h with
  | @leaf t hk =>
    have htyped := ht t (by simp)
    rcases hk with hk | hk | hk <;> simp only [Token.Typed, hk] at htyped <;>
      obtain ⟨v, hv⟩ := htyped <;> simp [term, Token.term, nodes, leafKind, hk, hv, Term.nodes]
  | @form t args hk hargs =>
    have htyped := ht t (by simp)
    have hname : t.head = .str t.operatorName := by
      rcases hk with hk | hk | hk | hk <;> simp only [Token.Typed, hk] at htyped <;>
        first
        | obtain ⟨v, hv⟩ := htyped; simp only [Token.operatorName, Token.head, hk, hv]
        | simp only [Token.operatorName, Token.head, hk]
    rw [term, Term.nodes, nodes, hname, nodesAll_terms hargs fun u hu => ht u (by simp [hu])]

theorem nodesAll_terms {xs : List Tree} (h : ∀ x ∈ xs, x.Formed)
    (ht : ∀ t ∈ tokensAll xs, t.Typed) : Term.nodesAll (terms xs) = nodesAll xs := by
  match xs with
  | [] => rfl
  | x :: xs =>
    rw [terms, Term.nodesAll, nodesAll, (h x (by simp)).nodes_term fun t hx => ht t (by simp [hx]),
      nodesAll_terms (fun y hy => h y (by simp [hy])) fun t hx => ht t (by simp [hx])]

end

end Tree

/-! ### The statements of a source -/

namespace Parser

variable {p : Parser} {body : List Token} {last : Token}

/-- Statements are read up to the end. -/
theorem finish_of_statements {f : Phrase} {ts rest : List Token} {xs : List Tree}
    (h : Reads p f ts xs rest) (hf : f = .statements) : (current rest).kind = .finish := by
  induction h with
  | finish hk => exact hk
  | skip _ _ ih => exact ih rfl
  | statement _ _ _ _ _ _ ih => exact ih rfl
  | _ => cases hf

/-- Where the only end is the last token, all but it is taken. -/
theorem Takes.rest_eq {rest : List Token} (h : Takes (body ++ [last]) rest)
    (hbody : ∀ t ∈ body, t.kind ≠ .finish) (hlast : last.kind = .finish)
    (hend : (current rest).kind = .finish) : rest = [last] := by
  obtain ⟨us, hsplit, hus⟩ := h
  rcases List.append_eq_append_iff.1 hsplit with ⟨vs, rfl, hvs⟩ | ⟨vs, rfl, rfl⟩
  · cases vs with
    | nil => exact hvs.symm
    | cons v vs =>
      obtain ⟨rfl, -⟩ := List.cons.inj hvs
      exact absurd hlast (hus last (by simp))
  · cases vs with
    | nil => rfl
    | cons v vs => exact absurd hend (hbody v (by simp))

theorem supply_eq {ts : List Token} {t : Token} (ht : t ∈ ts) (hk : t.kind = .finish) :
    supply ts = ts :=
  if_pos (List.any_eq_true.2 ⟨t, ht, by simp [hk]⟩)

/-- The trees of all statements are in form, and have the nodes of all tokens. -/
theorem perm_of_parseTokens (hbody : ∀ t ∈ body, t.kind ≠ .finish) (hlast : last.kind = .finish)
    {trees : List Tree} (h : p.parseTokens (body ++ [last]) = .ok trees) :
    (∀ x ∈ trees, x.Formed) ∧ (Tree.tokensAll trees).Perm (body.filter Token.isHead) := by
  rw [parseTokens, supply_eq (t := last) (by simp) hlast] at h
  obtain ⟨rest, hread⟩ := statements_eq_ok_iff.1 h
  refine ⟨formed_of_reads hread fun _ hx => (by cases hx), List.perm_iff_count.2 fun a => ?_⟩
  have hbalance := balanced_of_reads hread rfl a
  simp only [(takes_of_reads hread).rest_eq hbody hlast (finish_of_statements hread rfl),
    Phrase.given, Tree.count_tokensAll_nil, Nat.zero_add] at hbalance
  have hnot : last.isHead = false := by rw [Token.isHead, hlast]; rfl
  simpa [heads, hnot] using hbalance.symm

/-- **Nodes and tokens correspond, one to one.** Where the only end is the last token, the nodes of
all statements stand for the tokens that can have nodes, each for one of them; and these are the
nodes of the expressions that are read, if the tokens have values of their kinds. -/
theorem nodes_of_parseTokens (hbody : ∀ t ∈ body, t.kind ≠ .finish) (hlast : last.kind = .finish)
    {trees : List Tree} (h : p.parseTokens (body ++ [last]) = .ok trees) :
    ∃ us, us.Perm (body.filter Token.isHead) ∧
      List.Forall₂ Node.StandsFor (Tree.nodesAll trees) us ∧
      ((∀ t ∈ body, t.Typed) → Term.nodesAll (Tree.terms trees) = Tree.nodesAll trees) := by
  obtain ⟨hformed, hperm⟩ := perm_of_parseTokens hbody hlast h
  refine ⟨Tree.tokensAll trees, hperm, Tree.standFor_all hformed, fun htyped => ?_⟩
  exact Tree.nodesAll_terms hformed fun t ht =>
    htyped t (List.mem_of_mem_filter (hperm.mem_iff.1 ht))

attribute [local irreducible] coreRegistry

/-- The tokens of a sum, `a + 1`. -/
def sumTokens : List Token :=
  [⟨.atom, .str "a", ⟨1, 2⟩⟩, ⟨.operator, .str "+", ⟨1, 4⟩⟩, ⟨.number, .num (.int 1), ⟨1, 6⟩⟩]

/-- The same in braces, `{a + 1}`. -/
def sumInBraces : List Token :=
  ⟨.mark .openBrace, .str "\x7b", ⟨1, 1⟩⟩ ::
    (sumTokens ++ [⟨.mark .closeBrace, .str "\x7d", ⟨1, 7⟩⟩])

theorem parseTokens_sumInBraces : (Parser.mk coreRegistry "").parseTokens
    (sumInBraces ++ [.ofEnd ⟨1, 8⟩]) = .ok [.form ⟨.mark .openBrace, .str "\x7b", ⟨1, 1⟩⟩
      [.form ⟨.operator, .str "+", ⟨1, 4⟩⟩ [.leaf ⟨.atom, .str "a", ⟨1, 2⟩⟩,
        .leaf ⟨.number, .num (.int 1), ⟨1, 6⟩⟩]]] := by
  have hmem : (⟨.infixed, 70, "+", 5⟩ : Operator) ∈ coreRegistry.operators := by
    rw [CoreTable.operators_eq]; decide
  have hop : (Parser.mk coreRegistry "").following? ⟨.operator, .str "+", ⟨1, 4⟩⟩ loosest =
      some ⟨.infixed, 70, "+", 5⟩ := by
    rw [following?, operatorAt?_of_spelling rfl, CoreTable.operator?_of_mem hmem]
    rfl
  have hplain : coreRegistry.operator? .prefixed "a" = none :=
    CoreTable.operator?_prefixed_of_isName (by decide) (by decide)
  have hname : (Parser.mk coreRegistry "").operatorAt? .prefixed ⟨.atom, .str "a", ⟨1, 2⟩⟩ = none :=
    (operatorAt?_of_spelling rfl).trans hplain
  have hsum : Reads ⟨coreRegistry, ""⟩ (.expression loosest)
      (sumTokens ++ [⟨.mark .closeBrace, .str "\x7d", ⟨1, 7⟩⟩, .ofEnd ⟨1, 8⟩])
      [.form ⟨.operator, .str "+", ⟨1, 4⟩⟩ [.leaf ⟨.atom, .str "a", ⟨1, 2⟩⟩,
        .leaf ⟨.number, .num (.int 1), ⟨1, 6⟩⟩]]
      [⟨.mark .closeBrace, .str "\x7d", ⟨1, 7⟩⟩, .ofEnd ⟨1, 8⟩] :=
    .expression (.name rfl rfl hname (by decide)) (.infixed rfl hop rfl
      (CoreTable.contains_of_mem hmem) (.expression (.literal (.inl rfl)) (.stop ⟨rfl, rfl⟩))
      (.stop ⟨rfl, rfl⟩))
  have hbraces : Reads ⟨coreRegistry, ""⟩ (.expression loosest) (sumInBraces ++ [.ofEnd ⟨1, 8⟩])
      [.form ⟨.mark .openBrace, .str "\x7b", ⟨1, 1⟩⟩ [_]] [.ofEnd ⟨1, 8⟩] :=
    .expression (.braces rfl (.someArguments (by decide) (.lastItem (by decide) rfl hsum)))
      (.stop ⟨rfl, rfl⟩)
  rw [parseTokens, supply_eq (t := .ofEnd ⟨1, 8⟩) (by simp) rfl]
  exact statements_eq_ok_iff.2 ⟨[.ofEnd ⟨1, 8⟩],
    .statement (by decide) (by decide) hbraces (.inl rfl) (.finish rfl)⟩

theorem nodes_of_parseTokens_braces : ∃ trees,
    (Parser.mk coreRegistry "").parseTokens (sumInBraces ++ [.ofEnd ⟨1, 8⟩]) = .ok trees ∧
      ∃ us, us.Perm (sumInBraces.filter Token.isHead) ∧
        List.Forall₂ Node.StandsFor (Tree.nodesAll trees) us ∧
        ((∀ t ∈ sumInBraces, t.Typed) → Term.nodesAll (Tree.terms trees) = Tree.nodesAll trees) :=
  ⟨_, parseTokens_sumInBraces,
    nodes_of_parseTokens (by decide) rfl parseTokens_sumInBraces⟩

end Parser

end TermCalc
