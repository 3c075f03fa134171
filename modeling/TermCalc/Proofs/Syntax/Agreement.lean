import TermCalc.Proofs.Registry.Agreement
import TermCalc.Proofs.Syntax.Lexing
import TermCalc.Proofs.Syntax.Appending
import TermCalc.Proofs.Syntax.Walking
import TermCalc.Term.Printer

/-!
# Reading and printing with registries that agree

A source is cut into tokens, read and printed with no more of a registry than what it finds, so
that registries that find the same read and print alike.

* `symbolLength_congr`, `Lexer.tokens_congr`: which spellings are known decides, in any order.
* `Parser.walkAlike`: what two parsers do alike, by the recursion of the walk over the tokens.
* `Parser.parseTokens_agree`: **the same trees.**
* `Registry.printAt_agree`, `Registry.textOf_agree`: **the same text.**
-/

namespace TermCalc

/-! ### Tokens -/

section Known

variable {known known' : List String}

theorem longestKnown_congr (h : ∀ s, s ∈ known ↔ s ∈ known') (run : List Char) :
    longestKnown known run = longestKnown known' run := by
  have hmem (n : Nat) : n ∈ (known.filter (startsRun run)).map String.length ↔
      n ∈ (known'.filter (startsRun run)).map String.length := by
    simp only [List.mem_map, List.mem_filter, h]
  unfold longestKnown
  ext n
  rw [List.max?_eq_some_iff, List.max?_eq_some_iff]
  simp only [hmem]

/-- **How long a symbol is** does not depend on the order of the spellings. -/
theorem symbolLength_congr (h : ∀ s, s ∈ known ↔ s ∈ known') (run : List Char) :
    symbolLength known run = symbolLength known' run := by
  have hempty : known.isEmpty = known'.isEmpty := by
    rw [Bool.eq_iff_iff, List.isEmpty_iff, List.isEmpty_iff, List.eq_nil_iff_forall_not_mem,
      List.eq_nil_iff_forall_not_mem]
    simp only [h]
  have hcontains : known.contains (String.ofList run) = known'.contains (String.ofList run) := by
    rw [Bool.eq_iff_iff, List.contains_iff_mem, List.contains_iff_mem, h]
  rw [symbolLength, symbolLength, hempty, hcontains, longestKnown_congr h]

end Known

namespace Lexer

variable {l : Lexer} {known : List String}

/-- Blanks and comments are skipped whatever is known. -/
theorem skipBlank_known (c : Cursor) : skipBlank { l with known } c = l.skipBlank c := by
  have hcomment (c : Cursor) : skipComment { l with known } c = l.skipComment c := rfl
  fun_induction skipBlank l c with
  | case1 c ha => exact skipBlank_of_end ha
  | case2 c ch rest ha hb ih => rw [skipBlank_of_blank ha hb, ih]
  | case3 c ch rest ha hb hs c' hc ih =>
    rw [skipBlank_of_comment ha (Bool.eq_false_iff.2 hb) hs ((hcomment c).trans hc), ih]
  | case4 c ch rest ha hb hs stop hc =>
    exact skipBlank_of_stop ha (Bool.eq_false_iff.2 hb) hs ((hcomment c).trans hc)
  | case5 c ch rest ha hb hs =>
    exact skipBlank_of_neither ha (Bool.eq_false_iff.2 hb) (Bool.eq_false_iff.2 hs)

section

variable (h : ∀ s, s ∈ known ↔ s ∈ l.known)
include h

theorem nextToken_congr (c : Cursor) : nextToken { l with known } c = l.nextToken c := by
  have hread (c : Cursor) : readOperator { l with known } c = l.readOperator c := by
    simp only [readOperator, symbolLength_congr h]
  have hhere (c : Cursor) : tokenHere { l with known } c = l.tokenHere c := by
    unfold tokenHere
    simp only [hread]
    rfl
  simp only [nextToken, skipBlank_known, hhere]

theorem scan_known (c : Cursor) : scan { l with known } c = l.scan c := by
  fun_induction scan l c with
  | case1 c stop hn => rw [scan_eq, nextToken_congr h, hn]
  | case2 c t c' hn ht =>
    rw [scan_eq, nextToken_congr h, hn]
    exact if_pos ht
  | case3 c t c' hn ht rest ih => rw [scan_of_token ((nextToken_congr h c).trans hn) ht, ih]

/-- **The tokens of a source** do not depend on the order of the spellings that are known. -/
theorem tokens_congr (source : String) : tokens { l with known } source = l.tokens source := by
  simp only [tokens, tokensFrom, scan_known h]

end

theorem tokens_agree {r r' : Registry} (h : r.Agrees r') (file source : String) :
    tokens ⟨file, r.operatorNames⟩ source = tokens ⟨file, r'.operatorNames⟩ source :=
  tokens_congr (l := ⟨file, r'.operatorNames⟩) h.mem_operatorNames source

end Lexer

/-! ### Trees -/

namespace Parser

variable {r r' : Registry} {file : String} (h : r.Agrees r')
include h

theorem operatorAt?_agrees (file : String) (fixity : Fixity) (t : Token) :
    (operatorAt? ⟨r, file⟩ fixity t).map Operator.unnumbered =
      (operatorAt? ⟨r', file⟩ fixity t).map Operator.unnumbered := by
  unfold operatorAt?
  cases t.spelling? with
  | none => rfl
  | some name => exact h.operator fixity name

theorem following?_agrees (file : String) (t : Token) (depth : Int) :
    (following? ⟨r, file⟩ t depth).map Operator.unnumbered =
      (following? ⟨r', file⟩ t depth).map Operator.unnumbered := by
  have hmap (x y : Option Operator) : (x.or y).map Operator.unnumbered =
      (x.map Operator.unnumbered).or (y.map Operator.unnumbered) := by cases x <;> rfl
  have hfilter (x : Option Operator) :
      (x.filter (·.precedence ≤ depth)).map Operator.unnumbered =
        (x.map Operator.unnumbered).filter (·.precedence ≤ depth) := by
    cases x with
    | none => rfl
    | some op =>
      rw [Option.map_some, Option.filter_some, Option.filter_some]
      exact apply_ite (Option.map Operator.unnumbered) _ _ _
  simp only [following?, hmap, hfilter, operatorAt?_agrees h]

theorem operatorForm_agrees {op op' : Operator} (hop : op.unnumbered = op'.unnumbered)
    (operands : List Tree) (t : Token) :
    operatorForm ⟨r, file⟩ op operands t = operatorForm ⟨r', file⟩ op' operands t := by
  obtain ⟨hfixity, -, hname⟩ := Operator.unnumbered_eq_iff.1 hop
  simp only [operatorForm, fault, hfixity, hname, h.contains]

/-- **What two parsers do alike**, token by token. -/
structure WalkAlike (r r' : Registry) (file : String) (ts : List Token) (fuel : Nat) : Prop where
  expression : walkExpression ⟨r, file⟩ ts fuel = walkExpression ⟨r', file⟩ ts fuel
  operators : walkOperators ⟨r, file⟩ ts fuel = walkOperators ⟨r', file⟩ ts fuel
  operand : walkPrefix ⟨r, file⟩ ts fuel = walkPrefix ⟨r', file⟩ ts fuel
  symbolicCall : ∀ t op op', op.map Operator.unnumbered = op'.map Operator.unnumbered →
    walkSymbolicCall ⟨r, file⟩ ts fuel t op = walkSymbolicCall ⟨r', file⟩ ts fuel t op'
  primary : walkPrimary ⟨r, file⟩ ts fuel = walkPrimary ⟨r', file⟩ ts fuel
  call : walkCall ⟨r, file⟩ ts fuel = walkCall ⟨r', file⟩ ts fuel
  arguments : walkArguments ⟨r, file⟩ ts fuel = walkArguments ⟨r', file⟩ ts fuel
  items : walkItems ⟨r, file⟩ ts fuel = walkItems ⟨r', file⟩ ts fuel
  block : walkBlock ⟨r, file⟩ ts fuel = walkBlock ⟨r', file⟩ ts fuel

theorem walkAlike (file : String) (ts : List Token) (fuel : Nat) :
    WalkAlike r r' file ts fuel := by
  induction fuel with
  | zero =>
    exact ⟨by funext; rfl, by funext; rfl, rfl, fun _ _ _ _ => rfl, rfl, by funext; rfl,
      by funext; rfl, by funext; rfl, by funext; rfl⟩
  | succ fuel ih =>
    refine ⟨?_, ?_, ?_, ?_, ?_, ?_, ?_, ?_, ?_⟩
    · funext depth
      simp only [walkExpression, ih.operand, ih.operators]
    · funext lhs depth
      simp only [walkOperators, ih.expression, ih.operators]
      refine bind_congr fun t => ?_
      rcases cases_of_map_eq (following?_agrees h file t depth) with
        ⟨hop, hop'⟩ | ⟨op, op', hop, hop', heq⟩
      · rw [hop, hop']
      · obtain ⟨hfixity, hprecedence, -⟩ := Operator.unnumbered_eq_iff.1 heq
        simp only [hop, hop', operatorForm_agrees h heq, hfixity, hprecedence]
    · simp only [walkPrefix, ih.expression, ih.primary]
      refine bind_congr fun t => bind_congr fun next => ?_
      have hagree := operatorAt?_agrees h file .prefixed t
      rw [ih.symbolicCall t _ _ hagree]
      rcases cases_of_map_eq hagree with ⟨hop, hop'⟩ | ⟨op, op', hop, hop', heq⟩
      · rw [hop, hop']
      · simp only [hop, hop', operatorForm_agrees h heq, (Operator.unnumbered_eq_iff.1 heq).2.1]
    · intro t op op' hagree
      simp only [walkSymbolicCall, ih.arguments, ih.operators]
      refine bind_congr fun _ => bind_congr fun _ => bind_congr fun operands => ?_
      rcases cases_of_map_eq hagree with ⟨rfl, rfl⟩ | ⟨op, op', rfl, rfl, heq⟩
      · rfl
      · rcases operands with _ | ⟨first, _ | ⟨second, others⟩⟩
        · rfl
        · simp only [operatorForm_agrees h heq, (Operator.unnumbered_eq_iff.1 heq).2.1]
        · rfl
    · simp only [walkPrimary, ih.expression, ih.call, ih.arguments, ih.block]
      rfl
    · funext t
      simp only [walkCall, ih.arguments, ih.expression]
      refine bind_congr fun _ => bind_congr fun operands => ?_
      rcases cases_of_map_eq (operatorAt?_agrees h file .bodied t) with
        ⟨hop, hop'⟩ | ⟨op, op', hop, hop', heq⟩
      · rw [hop, hop']
      · simp only [hop, hop', operatorForm_agrees h heq, (Operator.unnumbered_eq_iff.1 heq).2.1]
    · funext closing
      simp only [walkArguments, ih.items]
    · funext closing
      simp only [walkItems, ih.expression, ih.items]
      rfl
    · funext start
      simp only [walkBlock, ih.expression, ih.block]
      rfl

theorem walkStatements_agree (file : String) (ts : List Token) (fuel : Nat) :
    walkStatements ⟨r, file⟩ ts fuel = walkStatements ⟨r', file⟩ ts fuel := by
  induction fuel with
  | zero => rfl
  | succ fuel ih =>
    simp only [walkStatements, ih, (walkAlike h file ts fuel).expression]
    rfl

omit h in
theorem ended_of_tokens {l : Lexer} {source : String} {ts : List Token}
    (ht : l.tokens source = .ok ts) : Ended ts := by
  obtain ⟨body, pos, rfl, -⟩ := Lexer.exists_body_of_tokens ht
  exact ⟨.ofEnd pos, List.getLast?_concat, rfl⟩

/-- **The same trees** are read from tokens that have an end. -/
theorem parseTokens_agree (file : String) {ts : List Token} (hend : Ended ts) :
    parseTokens ⟨r, file⟩ ts = parseTokens ⟨r', file⟩ ts := by
  obtain ⟨j, -, hwalk⟩ := walk_parseTokens ⟨r, file⟩ hend (Nat.le_refl _)
  obtain ⟨j', -, hwalk'⟩ := walk_parseTokens ⟨r', file⟩ hend (Nat.le_refl _)
  rw [walkStatements_agree h, hwalk'] at hwalk
  cases hp : parseTokens ⟨r, file⟩ ts <;> cases hp' : parseTokens ⟨r', file⟩ ts <;>
    rw [hp, hp'] at hwalk <;> cases hwalk <;> rfl

end Parser

/-! ### Text -/

namespace Registry

variable {r r' : Registry}

theorem precedence_agree (h : r.Agrees r') (t : Term) : r.precedence t = r'.precedence t := by
  cases t with
  | form name args pos => exact h.precedenceOf name args.length
  | numeral n pos =>
    unfold precedence
    rcases cases_of_map_eq (h.operator .prefixed "-") with ⟨hop, hop'⟩ | ⟨op, op', hop, hop', heq⟩
    · simp only [hop, hop']
    · simp only [hop, hop', precedenceOf, Option.map_some, (Operator.unnumbered_eq_iff.1 heq).2.1]
  | _ => rfl

theorem printPrefixed_agree {τ : Type} [Output τ] {op op' : Operator}
    (heq : op.unnumbered = op'.unnumbered)
    (operand : Printed Buffer) (s : τ) :
    printPrefixed op operand s = printPrefixed op' operand s := by
  simp only [printPrefixed, (Operator.unnumbered_eq_iff.1 heq).2.2]

mutual

/-- **An expression has the same text.** -/
theorem printAt_agree {τ : Type} [Output τ] (h : r.Agrees r') (d : Int) (t : Term) (s : τ) :
    r.printAt d t s = r'.printAt d t s := by
  rw [printAt, printAt, precedence_agree h]
  cases t with
  | form name args pos =>
    simp only [printList_agree h args]
    congr 1
    funext s
    split
    · rfl
    · rcases cases_of_map_eq (h.operatorOf? name args.length) with
        ⟨hop, hop'⟩ | ⟨op, op', hop, hop', heq⟩
      · rw [hop, hop']
      · obtain ⟨hfixity, hprecedence, hname⟩ := Operator.unnumbered_eq_iff.1 heq
        rw [hop, hop']
        dsimp only
        have hbodied := printBodied_agree h op'.precedence true args
          (Output.put (Output.write s op'.name) '(')
        rw [hfixity, hprecedence, hname]
        generalize op'.fixity = fixity
        match fixity, args with
        | .infixed, [lhs, rhs] =>
          have hrhs : r.printAt (op'.precedence - 1) rhs =
              r'.printAt (σ := τ) (op'.precedence - 1) rhs :=
            funext fun s => printAt_agree h (op'.precedence - 1) rhs s
          simp only [printAt_agree h op'.precedence lhs, hrhs]
        | .prefixed, [a] => simp only [printAt_agree h op'.precedence a, printPrefixed_agree heq]
        | .postfixed, [a] => simp only [printAt_agree h op'.precedence a]
        | .bodied, _ | .infixed, [] | .infixed, [_] | .infixed, _ :: _ :: _ :: _ | .prefixed, []
        | .prefixed, _ :: _ :: _ | .postfixed, [] | .postfixed, _ :: _ :: _ => exact hbodied
  | _ => rfl

theorem printList_agree {τ : Type} [Output τ] (h : r.Agrees r') (ts : List Term) (s : τ) :
    r.printList ts s = r'.printList ts s := by
  match ts with
  | [] => rfl
  | [t] => simp only [printList, printAt_agree h loosest t]
  | t :: u :: rest =>
    have ih : r.printList (u :: rest) = r'.printList (σ := τ) (u :: rest) :=
      funext fun s => printList_agree h (u :: rest) s
    rw [printList, printList, printAt_agree h loosest t, ih]

theorem printBodied_agree {τ : Type} [Output τ] (h : r.Agrees r') (d : Int) (first : Bool)
    (ts : List Term) (s : τ) :
    r.printBodied d first ts s = r'.printBodied d first ts s := by
  match ts with
  | [] => rfl
  | [t] => simp only [printBodied, printAt_agree h d t]
  | t :: u :: rest =>
    have ih : r.printBodied d false (u :: rest) = r'.printBodied (σ := τ) d false (u :: rest) :=
      funext fun s => printBodied_agree h d false (u :: rest) s
    rw [printBodied, printBodied, printAt_agree h loosest t, ih]

end

theorem print_agree {τ : Type} [Output τ] (h : r.Agrees r') (t : Term) (s : τ) :
    r.print t s = r'.print t s :=
  printAt_agree h loosest t s

theorem textOf_agree (h : r.Agrees r') (t : Term) : r.textOf t = r'.textOf t := by
  simp only [textOf, print_agree h]

end Registry

end TermCalc
