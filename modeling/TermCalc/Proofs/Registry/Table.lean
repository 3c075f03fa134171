import TermCalc.Registry.Core
import TermCalc.Term.Printer
import TermCalc.Token.Lexer

/-!
# Tables of operators

What reading and printing rely on in a table of operators, and that the core table is such a table.
The facts of the core table are read off its list of operators here and nowhere else.

* `isName`, `isSymbol`: the spellings that the lexer takes for one name or one symbol.
* `Registry.operatorOf?_eq_some`, `Registry.operatorOf?_eq_none`: what it means that a form is
  written with an operator, or with none.
* `Registry.Regular`, `Registry.NamesBodied`: tables whose operators can be written, and whose forms
  can.
* `CoreTable`: the facts of the core table.
-/

namespace TermCalc

/-- Whether a text is one name. -/
def isName (s : String) : Bool :=
  match s.toList with
  | [] => false
  | c :: cs => isNameStart c && cs.all isNameChar

/-- Whether a text is one symbol where some spellings are known. -/
def isSymbol (known : List String) (s : String) : Bool :=
  !s.toList.isEmpty && s.toList.all isOperatorChar &&
    symbolLength known s.toList == s.toList.length && !startsComment s.toList

namespace Registry

variable {r : Registry} {name : String} {n : Nat} {op : Operator}

theorem operator?_eq_some {fixity : Fixity} (h : r.operator? fixity name = some op) :
    op ∈ r.operators ∧ op.fixity = fixity ∧ op.name = name := by
  have hp := List.find?_some h
  simp only [Bool.and_eq_true, beq_iff_eq] at hp
  exact ⟨List.mem_of_find?_eq_some h, hp⟩

/-- A form is written with an operator of its name that takes as many operands. -/
theorem operatorOf?_eq_some (h : r.operatorOf? name n = some op) :
    op ∈ r.operators ∧ op.name = name ∧
      (op.fixity = .infixed ∧ n = 2 ∨ op.fixity = .prefixed ∧ n = 1 ∨
        op.fixity = .postfixed ∧ n = 1 ∧ r.operator? .prefixed name = none ∨
        op.fixity = .bodied ∧ 1 ≤ n) := by
  unfold operatorOf? at h
  simp only [Option.or_eq_some_iff, Option.ite_none_right_eq_some] at h
  rcases h with ⟨hn, h⟩ | ⟨-, h | ⟨-, hn, h⟩⟩
  · obtain ⟨hm, hf, hname⟩ := operator?_eq_some h
    exact ⟨hm, hname, .inl ⟨hf, hn⟩⟩
  · obtain ⟨hn, h | ⟨hnone, h⟩⟩ := h
    · obtain ⟨hm, hf, hname⟩ := operator?_eq_some h
      exact ⟨hm, hname, .inr (.inl ⟨hf, hn⟩)⟩
    · obtain ⟨hm, hf, hname⟩ := operator?_eq_some h
      exact ⟨hm, hname, .inr (.inr (.inl ⟨hf, hn, hnone⟩))⟩
  · obtain ⟨hm, hf, hname⟩ := operator?_eq_some h
    exact ⟨hm, hname, .inr (.inr (.inr ⟨hf, hn⟩))⟩

theorem operatorOf?_eq_none (h : r.operatorOf? name n = none) :
    (n = 1 → r.operator? .prefixed name = none) ∧
      (1 ≤ n → r.operator? .bodied name = none) := by
  unfold operatorOf? at h
  simp only [Option.or_eq_none_iff] at h
  obtain ⟨-, hunary, hbodied⟩ := h
  refine ⟨fun hn => ?_, fun hn => ?_⟩
  · rw [if_pos hn, Option.or_eq_none_iff] at hunary
    exact hunary.1
  · rwa [if_pos hn] at hbodied

/-- The operator that a form is written with is the one of its position. -/
theorem operator?_of_operatorOf? (h : r.operatorOf? name n = some op) :
    r.operator? op.fixity name = some op := by
  have hfixity : ∀ fixity, r.operator? fixity name = some op →
      r.operator? op.fixity name = some op := by
    intro fixity hop
    rwa [(operator?_eq_some hop).2.1]
  unfold operatorOf? at h
  simp only [Option.or_eq_some_iff, Option.ite_none_right_eq_some] at h
  rcases h with ⟨-, h⟩ | ⟨-, ⟨-, h | ⟨-, h⟩⟩ | ⟨-, -, h⟩⟩ <;> exact hfixity _ h

theorem operator?_infixed_of_none (h : r.operatorOf? name n = none) (hn : n = 2) :
    r.operator? .infixed name = none := by
  unfold operatorOf? at h
  rw [if_pos hn, Option.or_eq_none_iff] at h
  exact h.1

/-- **A table whose operators can be written**: their precedences are those of expressions, they are
spelled by names or symbols, and none is spelled like a list. -/
structure Regular (r : Registry) : Prop where
  bounds : ∀ op ∈ r.operators, 0 ≤ op.precedence ∧ op.precedence ≤ loosest
  spelled : ∀ op ∈ r.operators, (isName op.name || isSymbol r.operatorNames op.name) = true
  notList : ∀ op ∈ r.operators, op.name ≠ "List"

/-- **A table whose bodied operators are names**, and neither that of lists nor that of blocks,
which are written by brackets. -/
def NamesBodied (r : Registry) : Prop :=
  ∀ op ∈ r.operators, op.fixity = .bodied →
    isName op.name = true ∧ op.name ≠ "List" ∧ op.name ≠ "Prog"

theorem NamesBodied.operator? (hb : r.NamesBodied)
    (hname : isName name = false ∨ name = "List" ∨ name = "Prog") :
    r.operator? .bodied name = none := by
  refine Option.eq_none_iff_forall_ne_some.2 fun op hop => ?_
  obtain ⟨hm, hf, rfl⟩ := operator?_eq_some hop
  obtain ⟨hspelled, hlist, hprog⟩ := hb op hm hf
  rcases hname with h | h | h
  · rw [hspelled] at h
    cases h
  · exact hlist h
  · exact hprog h

end Registry

namespace CoreTable

theorem operators_eq : coreRegistry.operators =
    [⟨.postfixed, 0, "!", 0⟩, ⟨.infixed, 20, "^", 1⟩, ⟨.infixed, 30, "/", 2⟩,
     ⟨.infixed, 40, "*", 3⟩, ⟨.prefixed, 50, "-", 4⟩, ⟨.infixed, 70, "+", 5⟩,
     ⟨.infixed, 70, "-", 6⟩, ⟨.infixed, 90, "<", 7⟩, ⟨.infixed, 90, ">", 8⟩,
     ⟨.infixed, 90, "<=", 9⟩, ⟨.infixed, 90, ">=", 10⟩, ⟨.infixed, 90, "=", 11⟩,
     ⟨.infixed, 90, "!=", 12⟩, ⟨.prefixed, 100, "Not", 13⟩, ⟨.infixed, 1000, "And", 14⟩,
     ⟨.infixed, 1010, "Or", 15⟩, ⟨.infixed, 10000, ":=", 16⟩, ⟨.bodied, loosest, "While", 17⟩] := by
  rfl

theorem operatorNames_eq : coreRegistry.operatorNames =
    ["-", "Not", "^", "/", "*", "+", "<", ">", "<=", ">=", "=", "!=", "And", "Or", ":=", "!",
     "While"] := by
  rw [Registry.operatorNames, operators_eq]
  decide

theorem entries_eq : coreRegistry.entries =
    [⟨"MathAdd", .primitive .add, 2, .fixed, none⟩,
     ⟨"MathSubtract", .primitive .subtract, 2, .fixed, none⟩,
     ⟨"MathMultiply", .primitive .multiply, 2, .fixed, none⟩,
     ⟨"MathDivide", .primitive .divide, 2, .fixed, none⟩,
     ⟨"MathNegate", .primitive .negate, 1, .fixed, none⟩,
     ⟨"MathPower", .primitive .power, 2, .fixed, none⟩,
     ⟨"MathAbs", .primitive .abs, 1, .fixed, none⟩,
     ⟨"Factorial", .primitive .factorial, 1, .fixed, none⟩,
     ⟨"-", .primitive .minus, 1, .atLeast, some 2⟩, ⟨"+", .primitive .add, 2, .fixed, none⟩,
     ⟨"*", .primitive .multiply, 2, .fixed, none⟩, ⟨"/", .primitive .divide, 2, .fixed, none⟩,
     ⟨"^", .primitive .power, 2, .fixed, none⟩, ⟨"!", .primitive .factorial, 1, .fixed, none⟩,
     ⟨"Abs", .primitive .abs, 1, .fixed, none⟩,
     ⟨"LessThan", .primitive .lessThan, 2, .fixed, none⟩,
     ⟨"GreaterThan", .primitive .greaterThan, 2, .fixed, none⟩,
     ⟨"LessOrEqual", .primitive .lessOrEqual, 2, .fixed, none⟩,
     ⟨"GreaterOrEqual", .primitive .greaterOrEqual, 2, .fixed, none⟩,
     ⟨"Equals", .primitive .equals, 2, .fixed, none⟩,
     ⟨"NotEquals", .primitive .notEquals, 2, .fixed, none⟩,
     ⟨"<", .primitive .lessThan, 2, .fixed, none⟩,
     ⟨">", .primitive .greaterThan, 2, .fixed, none⟩,
     ⟨"<=", .primitive .lessOrEqual, 2, .fixed, none⟩,
     ⟨">=", .primitive .greaterOrEqual, 2, .fixed, none⟩,
     ⟨"=", .primitive .equals, 2, .fixed, none⟩, ⟨"!=", .primitive .notEquals, 2, .fixed, none⟩,
     ⟨"And", .primitive .and, 1, .heldAtLeast, none⟩,
     ⟨"Or", .primitive .or, 1, .heldAtLeast, none⟩, ⟨"Not", .primitive .not, 1, .fixed, none⟩,
     ⟨"Length", .primitive .length, 1, .fixed, none⟩,
     ⟨"Concat", .primitive .concat, 0, .atLeast, none⟩,
     ⟨"StringMid", .primitive .stringMid, 3, .fixed, none⟩,
     ⟨"Atom", .primitive .atom, 1, .fixed, none⟩,
     ⟨"String", .primitive .string, 1, .fixed, none⟩,
     ⟨"ConcatStrings", .primitive .concat, 0, .atLeast, none⟩,
     ⟨"WriteString", .primitive .writeString, 1, .fixed, none⟩,
     ⟨"Write", .primitive .write, 1, .atLeast, none⟩,
     ⟨"NewLine", .primitive .newLine, 0, .fixed, none⟩,
     ⟨"List", .primitive .list, 0, .atLeast, none⟩, ⟨"Nth", .primitive .nth, 2, .fixed, none⟩,
     ⟨"Hold", .primitive .hold, 1, .held, none⟩, ⟨"Eval", .primitive .eval, 1, .fixed, none⟩,
     ⟨"Set", .primitive .set, 2, .held, none⟩, ⟨"Prog", .primitive .prog, 0, .heldAtLeast, none⟩,
     ⟨"If", .primitive .ifThen, 2, .heldAtLeast, some 3⟩,
     ⟨"While", .primitive .whileDo, 2, .held, none⟩, ⟨":=", .primitive .set, 2, .held, none⟩] := by
  rfl

theorem lookup_list :
    coreRegistry.lookup "List" = some ⟨"List", .primitive .list, 0, .atLeast, none⟩ := by
  rw [Registry.lookup, entries_eq]
  rfl

theorem lookup_minus :
    coreRegistry.lookup "-" = some ⟨"-", .primitive .minus, 1, .atLeast, some 2⟩ := by
  rw [Registry.lookup, entries_eq]
  rfl

variable {op : Operator}

theorem contains_of_mem (h : op ∈ coreRegistry.operators) :
    coreRegistry.contains op.name = true := by
  rw [Registry.contains, Registry.lookup, entries_eq]
  rw [operators_eq] at h
  revert op
  decide

theorem operator?_of_mem (h : op ∈ coreRegistry.operators) :
    coreRegistry.operator? op.fixity op.name = some op := by
  rw [Registry.operator?]
  rw [operators_eq] at h ⊢
  revert op
  decide

theorem precedence_bounds (h : op ∈ coreRegistry.operators) :
    0 ≤ op.precedence ∧ op.precedence ≤ loosest := by
  rw [operators_eq] at h
  revert op
  decide

/-- An operator behind its first operand never binds as loosely as one before its last. -/
theorem precedence_ne {op' : Operator} (h : op ∈ coreRegistry.operators)
    (hf : op.fixity = .infixed ∨ op.fixity = .postfixed) (h' : op' ∈ coreRegistry.operators)
    (hf' : op'.fixity = .prefixed ∨ op'.fixity = .bodied) : op.precedence ≠ op'.precedence := by
  have hall : ∀ op ∈ coreRegistry.operators, op.fixity = .infixed ∨ op.fixity = .postfixed →
      ∀ op' ∈ coreRegistry.operators, op'.fixity = .prefixed ∨ op'.fixity = .bodied →
        op.precedence ≠ op'.precedence := by
    rw [operators_eq]
    decide
  exact hall op h hf op' h' hf'

theorem operator?_postfixed_of_infixed (h : op ∈ coreRegistry.operators)
    (hf : op.fixity = .infixed) : coreRegistry.operator? .postfixed op.name = none := by
  rw [Registry.operator?]
  rw [operators_eq] at h ⊢
  revert op
  decide

theorem operator?_infixed_of_postfixed (h : op ∈ coreRegistry.operators)
    (hf : op.fixity = .postfixed) : coreRegistry.operator? .infixed op.name = none := by
  rw [Registry.operator?]
  rw [operators_eq] at h ⊢
  revert op
  decide

theorem operator?_bodied_of_prefixed (h : op ∈ coreRegistry.operators)
    (hf : op.fixity = .prefixed) : coreRegistry.operator? .bodied op.name = none := by
  rw [Registry.operator?]
  rw [operators_eq] at h ⊢
  revert op
  decide

theorem name_of_prefixed (h : op ∈ coreRegistry.operators) (hf : op.fixity = .prefixed) :
    op.name = "-" ∨ op.name = "Not" ∧ op.precedence = 100 := by
  rw [operators_eq] at h
  revert op
  decide

theorem operator?_prefixed_of_isName {name : String} (h : isName name = true)
    (hnot : name ≠ "Not") : coreRegistry.operator? .prefixed name = none := by
  cases hop : coreRegistry.operator? .prefixed name with
  | none => rfl
  | some op =>
    obtain ⟨hm, hf, rfl⟩ := Registry.operator?_eq_some hop
    rcases name_of_prefixed hm hf with hminus | ⟨hname, -⟩
    · rw [hminus] at h
      exact absurd h (by decide)
    · exact absurd hname hnot

theorem operator?_prefixed_not : coreRegistry.operator? .prefixed "Not" ≠ none := by
  rw [Registry.operator?, operators_eq]
  decide

theorem operator?_bodied_while : coreRegistry.operator? .bodied "While" ≠ none := by
  rw [Registry.operator?, operators_eq]
  decide

theorem name_of_postfixed (h : op ∈ coreRegistry.operators) (hf : op.fixity = .postfixed) :
    op.name = "!" := by
  rw [operators_eq] at h
  revert op
  decide

theorem precedence_of_postfixed (h : op ∈ coreRegistry.operators) (hf : op.fixity = .postfixed) :
    op.precedence = 0 := by
  rw [operators_eq] at h
  revert op
  decide

theorem precedence_of_infixed (h : op ∈ coreRegistry.operators) (hf : op.fixity = .infixed) :
    0 < op.precedence := by
  rw [operators_eq] at h
  revert op
  decide

theorem name_of_infixed (h : op ∈ coreRegistry.operators) (hf : op.fixity = .infixed) :
    op.name ∉ ["List", "Prog", "While"] := by
  rw [operators_eq] at h
  revert op
  decide

theorem operatorOf?_of_infixed (h : op ∈ coreRegistry.operators) (hf : op.fixity = .infixed) :
    coreRegistry.operatorOf? op.name 2 = some op := by
  have hop := operator?_of_mem h
  rw [hf] at hop
  simp [Registry.operatorOf?, hop]

theorem operatorOf?_factorial :
    coreRegistry.operatorOf? "!" 1 = some ⟨.postfixed, 0, "!", 0⟩ := by rfl

theorem name_of_bodied (h : op ∈ coreRegistry.operators) (hf : op.fixity = .bodied) :
    op.name = "While" := by
  rw [operators_eq] at h
  revert op
  decide

theorem name_ne_not (h : op ∈ coreRegistry.operators)
    (hf : op.fixity = .infixed ∨ op.fixity = .postfixed) : op.name ≠ "Not" := by
  rw [operators_eq] at h
  revert op
  decide

theorem name_ne_list (h : op ∈ coreRegistry.operators) : op.name ≠ "List" := by
  rw [operators_eq] at h
  revert op
  decide

theorem spelling_of_mem (h : op ∈ coreRegistry.operators) :
    (isName op.name || isSymbol coreRegistry.operatorNames op.name) = true := by
  rw [operatorNames_eq]
  rw [operators_eq] at h
  revert op
  decide

theorem isSymbol_of_mem (h : op ∈ coreRegistry.operators) (hname : isName op.name = false) :
    isSymbol coreRegistry.operatorNames op.name = true := by
  simpa [hname] using spelling_of_mem h

theorem regular : coreRegistry.Regular where
  bounds _ h := precedence_bounds h
  spelled _ h := spelling_of_mem h
  notList _ h := name_ne_list h

theorem namesBodied : coreRegistry.NamesBodied := by
  intro op hm hf
  rw [name_of_bodied hm hf]
  decide

end CoreTable

end TermCalc
