import TermCalc.Token.Basic

/-!
# Trees of tokens

What reading tokens gives. Each node of a tree is a token: by itself, or at the head of a form. The
parentheses, commas, semicolons and closing marks of a source have no node.

* `Token.head`: what a form is a form of, by the token at its head.
* `Token.term`: what a token stands for by itself.
* `Tree`, `Tree.term`, `Tree.terms`: the expression that a tree denotes.
-/

namespace TermCalc

namespace Token

/-- **What a form is a form of**: braces make a list and brackets a block, and every other token at
the head of a form names its operator. -/
def head (t : Token) : Term :=
  match t.kind with
  | .mark .openBrace => .str "List"
  | .mark .openBracket => .str "Prog"
  | _ => t.value

/-- The name of the operator of a form. -/
def operatorName (t : Token) : String :=
  match t.head with
  | .str name => name
  | other => other.shown

/-- **What a token stands for by itself.** One whose value is not of its kind stands for that value
alone, which is no expression. -/
def term (t : Token) : Term :=
  match t.kind, t.value with
  | .number, .num n => .numeral n t.pos
  | .string, .str s => .text s t.pos
  | .atom, .str name => .atom name t.pos
  | _, value => value

end Token

/-- **A tree of tokens.** -/
inductive Tree where
  | leaf (t : Token)
  | form (t : Token) (args : List Tree)

namespace Tree

mutual

/-- **The expression that a tree denotes.** It stands where its token does. -/
def term : Tree → Term
  | leaf t => t.term
  | form t args => .form t.operatorName (terms args) t.pos

/-- The expressions that trees denote. -/
def terms : List Tree → List Term
  | [] => []
  | t :: ts => term t :: terms ts

end

end Tree

end TermCalc
