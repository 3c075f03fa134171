import TermCalc.Proofs.Registry.History
import TermCalc.Proofs.Syntax.Sources

/-!
# Operators and their operands in printed text

A prefix or postfix operator is written right beside its operand. The lexer takes as many characters
as it can for one name, so the two run together where a name meets a name without a space, and the
printer puts a space only behind a letter or a digit.

* `Lexer.shapes`: the tokens of a text, apart from their places.
* `SimpleOperand`: atoms and calls of atoms. `Registry.Sole`: operators of a single kind.
* `Operator.keepsApart`: whether an operator and its operand stay two. `Operator.applied`: the
  tokens that the two then are.
* `shapes_applied_iff`: **the printed text has the tokens of the operator and of the operand exactly
  where the two are kept apart.** `exists_run_together`: a name that ends in an underscore is not.
-/

namespace TermCalc

/-- **Kinds and values of the tokens of a text**, without the end. -/
def Lexer.shapes (l : Lexer) (source : String) : Except Failure (List (TokenKind × Term)) :=
  (l.tokens source).map fun ts => (ts.map Token.shape).dropLast

/-- An atom that is written as one name. -/
inductive NamedAtom : Term → Prop
  | atom {name : String} {pos : Pos} : isName name = true → NamedAtom (.atom name pos)

/-- **Operands without operators**: atoms, and calls of names over atoms. -/
inductive SimpleOperand (r : Registry) : Term → Prop
  | atom {t : Term} : NamedAtom t → SimpleOperand r t
  | call {name : String} {args : List Term} {pos : Pos} :
      isName name = true → (∀ fixity, r.operator? fixity name = none) →
      (∀ a ∈ args, NamedAtom a) → SimpleOperand r (.form name args pos)

/-- **A prefix or postfix operator that is nothing else.** Nothing is asked about what it calls. -/
structure Registry.Sole (r : Registry) (op : Operator) : Prop where
  unary : op.fixity = .prefixed ∨ op.fixity = .postfixed
  found : r.operator? op.fixity op.name = some op
  alone : ∀ fixity, fixity ≠ op.fixity → r.operator? fixity op.name = none
  spelled : isSpelling op.name = true
  bounds : 0 ≤ op.precedence ∧ op.precedence ≤ loosest

namespace Term

/-- Whether an expression is an atom. -/
def isAtom : Term → Bool
  | atom .. => true
  | _ => false

/-- Whether an expression is written in braces. -/
def isBraced : Term → Bool
  | form name _ _ => name == "List"
  | _ => false

end Term

namespace Operator

/-- The token of an operator. -/
def shape (op : Operator) : TokenKind × Term :=
  (if isName op.name then .atom else .operator, .str op.name)

/-- The tokens of an operator and its operand, in the order of the text. -/
def applied (op : Operator) (operand : List (TokenKind × Term)) : List (TokenKind × Term) :=
  if op.fixity = .prefixed then op.shape :: operand else operand ++ [op.shape]

/-- **Whether an operator is kept apart from its operand.** A form named like a list has no operator
in its text. A symbol always stands apart; a name in front of its operand needs the space that only
a letter or digit gets, or a brace to follow; a name behind needs a bracket in front of it. -/
def keepsApart (op : Operator) (operand : Term) : Bool :=
  op.name != "List" && (!isName op.name ||
    if op.fixity = .prefixed then
      op.name.toList.getLast?.any isAlphanumeric || operand.isBraced
    else !operand.isAtom)

theorem length_applied (op : Operator) (operand : List (TokenKind × Term)) :
    (op.applied operand).length = operand.length + 1 := by
  rw [applied]
  split <;> simp

end Operator

theorem Lexer.shapes_of_standing {l : Lexer} {ps : List Piece} (h : Standing l.known ps) :
    l.shapes (String.ofList (layout ps)) = .ok (ps.filterMap Piece.shape?) := by
  obtain ⟨ts, hts, hshapes⟩ := tokens_of_standing h
  simp [shapes, hts, hshapes, Except.map]

/-! ### Characters of names and of symbols -/

theorem isNameChar_of_isOperatorChar {c : Char} (h : isOperatorChar c = true) :
    isNameChar c = false := by
  have hall : (operatorChars.all fun c => !isNameChar c) = true := by decide
  simpa using List.all_eq_true.1 hall c (by simpa [isOperatorChar] using h)

theorem isOperatorChar_of_isNameStart {c : Char} (h : isNameStart c = true) :
    isOperatorChar c = false := by
  by_contra hop
  have hstart := (isOperatorChar_spec (by simpa using hop)).2.2.2.2
  rw [h] at hstart
  cases hstart

/-- Two names without a space are one. -/
theorem isName_append {s t : String} (hs : isName s = true) (ht : isName t = true) :
    isName (s ++ t) = true := by
  obtain ⟨c, cs, hcs, hstart, hall⟩ := isName_spec hs
  obtain ⟨d, ds, hds, -, hall'⟩ := isName_spec ht
  have hmore : (cs ++ d :: ds).all isNameChar = true := by
    rw [List.all_append, Bool.and_eq_true]
    exact ⟨List.all_eq_true.2 fun x hx => hall x (by simp [hx]), List.all_eq_true.2 hall'⟩
  rw [isName, String.toList_append, hcs, hds, List.cons_append]
  simp only [hstart, hmore, Bool.and_self]

/-! ### The text of an operand -/

section Operand

variable {r : Registry} {known : List String} {x : Term} {ps : List Piece}

/-- Pieces that stand before anything: their last one is a bracket. -/
def Closed (known : List String) (ps : List Piece) : Prop :=
  ∀ rest, Standing known rest → Standing known (ps ++ rest)

/-- **How a simple operand is laid out**: a name, a name with arguments, or braces. -/
inductive Laid (known : List String) : Term → List Piece → Prop
  | atom {name : String} {pos : Pos} : isName name = true →
      Laid known (.atom name pos) [.word name]
  | call {name : String} {args : List Term} {pos : Pos} {ps : List Piece} : isName name = true →
      name ≠ "List" → Closed known ps →
      Laid known (.form name args pos) (.word name :: .mark .openParen :: ps)
  | braces {args : List Term} {pos : Pos} {ps : List Piece} : Closed known ps →
      Laid known (.form "List" args pos) (.mark .openBrace :: ps)

/-- What is laid out stands before anything that does not go on with the name of an atom. -/
theorem Laid.standing (h : Laid known x ps) {rest : List Piece} (hrest : Standing known rest)
    (hnext : x.isAtom = true → (layout rest).head?.all (!isNameChar ·) = true) :
    Standing known (ps ++ rest) := by
  cases h with
  | atom hname => exact ⟨.inl ⟨hname, hnext rfl⟩, hrest⟩
  | call hname _ hclosed => exact ⟨.inl ⟨hname, rfl⟩, trivial, hclosed rest hrest⟩
  | braces hclosed => exact ⟨trivial, hclosed rest hrest⟩

theorem Laid.standing_self (h : Laid known x ps) : Standing known ps := by
  have hnil : Standing known (ps ++ []) := h.standing trivial fun _ => rfl
  rwa [List.append_nil] at hnil

/-- What is laid out starts with a name or a brace. -/
theorem Laid.head (h : Laid known x ps) :
    ∃ c cs, layout ps = c :: cs ∧ isOperatorChar c = false ∧
      (x.isBraced = true → isNameChar c = false) := by
  cases h with
  | atom hname =>
    obtain ⟨c, cs, hcs, hstart, -⟩ := isName_spec hname
    refine ⟨c, cs, by simp [Piece.chars, hcs], isOperatorChar_of_isNameStart hstart, ?_⟩
    exact fun hbraced => by cases hbraced
  | @call name _ _ qs hname hlist _ =>
    obtain ⟨c, cs, hcs, hstart, -⟩ := isName_spec hname
    refine ⟨c, cs ++ '(' :: layout qs, by simp [Piece.chars, hcs, Mark.char],
      isOperatorChar_of_isNameStart hstart, ?_⟩
    exact fun hbraced => absurd (by simpa [Term.isBraced] using hbraced) hlist
  | braces => exact ⟨_, _, rfl, by decide, fun _ => by decide⟩

/-- What is laid out without braces starts with a name, and stands as well with a longer one. -/
theorem Laid.exists_name (h : Laid known x ps) (hbraced : x.isBraced = false) :
    ∃ n qs, ps = .word n :: qs ∧ isName n = true ∧
      ∀ m, isName m = true → Standing known (.word m :: qs) := by
  cases h with
  | @atom name _ hname => exact ⟨name, [], rfl, hname, fun m hm => ⟨.inl ⟨hm, rfl⟩, trivial⟩⟩
  | @call name _ _ qs hname _ hclosed =>
    have hqs : Standing known qs := by simpa using hclosed [] trivial
    exact ⟨name, _, rfl, hname, fun m hm => ⟨.inl ⟨hm, rfl⟩, trivial, hqs⟩⟩
  | braces => cases hbraced

theorem NamedAtom.prints {a : Term} (h : NamedAtom a) : ∃ ps, Prints r loosest a ps ∧
    ∀ rest, Standing known rest → Closes (layout rest).head? → Standing known (ps ++ rest) := by
  obtain @⟨name, pos, hname⟩ := h
  refine ⟨[.word name], prints_atom (by decide), fun rest hrest hclose => ?_⟩
  exact ⟨.inl ⟨hname, hclose.spec.1⟩, hrest⟩

/-- **Every simple operand is laid out**, and the printer writes just that, at every depth. -/
theorem SimpleOperand.laid (h : SimpleOperand r x) :
    ∃ ps, Laid r.operatorNames x ps ∧ ∀ d, 0 ≤ d → Prints r d x ps := by
  cases h with
  | atom h =>
    obtain ⟨hname⟩ := h
    exact ⟨_, .atom hname, fun d hd => prints_atom hd⟩
  | @call name args pos hname hnone hargs =>
    obtain ⟨xs, rfl, hxs⟩ := exists_pairs fun a ha => (hargs a ha).prints
    have hop : r.operatorOf? name xs.length = none := by simp [Registry.operatorOf?, hnone]
    have hprints : ∀ a ∈ xs, Prints r loosest a.1 a.2 := fun a ha => (hxs a ha).1
    have hclosed : ∀ m, m.char ∈ [')', '\x7d'] →
        Closed r.operatorNames (commas (xs.map Prod.snd) ++ [.mark m]) := by
      intro m hm rest hrest
      rw [List.append_assoc]
      refine standing_commas (fun a ha => (hxs a ha).2) ⟨trivial, hrest⟩ ?_
      simp only [List.mem_cons, List.not_mem_nil, or_false] at hm
      rcases hm with hm | hm <;> simp [Closes, Piece.chars, hm]
    by_cases hlist : name = "List"
    · subst hlist
      refine ⟨_, .braces (hclosed .closeBrace (by decide)), fun d hd => prints_braces ?_ hprints⟩
      rwa [precedence_of_none (by simpa using hop)]
    · exact ⟨_, .call hname hlist (hclosed .closeParen (by decide)),
        fun d hd => prints_call hd hlist hop hprints⟩

end Operand

/-! ### The text of an operator and its operand -/

section Application

variable {r : Registry} {op : Operator} {x : Term} {ps : List Piece} {pos : Pos}

/-- **The pieces of an application.** They stand, and they are the tokens of the operator and of the
operand exactly where the two are kept apart. -/
structure Application (r : Registry) (op : Operator) (x : Term) (pos : Pos) (ps qs : List Piece) :
    Prop where
  text : r.textOf (.form op.name [x] pos) = .ok (String.ofList (layout qs))
  standing : Standing r.operatorNames qs
  shapes : qs.filterMap Piece.shape? = op.applied (ps.filterMap Piece.shape?) ↔
    op.keepsApart x = true

/-- Where there are too many or too few tokens the two are not kept apart. -/
theorem shapes_iff_of_length {qs : List Piece} (hkeeps : op.keepsApart x = false)
    (hlength : (qs.filterMap Piece.shape?).length ≠ (ps.filterMap Piece.shape?).length + 1) :
    qs.filterMap Piece.shape? = op.applied (ps.filterMap Piece.shape?) ↔
      op.keepsApart x = true := by
  rw [hkeeps]
  refine ⟨fun h => absurd ?_ hlength, fun h => by cases h⟩
  rw [h, op.length_applied]

namespace Registry.Sole

variable (h : r.Sole op)

include h

theorem operatorOf?_eq : r.operatorOf? op.name 1 = some op := by
  have hfound := h.found
  rcases h.unary with hf | hf
  · rw [hf] at hfound
    simp [operatorOf?, hfound]
  · have hnone := h.alone .prefixed (by simp [hf])
    rw [hf] at hfound
    simp [operatorOf?, hfound, hnone]

theorem spelled_eq : (isName op.name || isSymbol r.operatorNames op.name) = true :=
  spelled_of_known h.spelled (mem_operatorNames.2 ⟨op, (operator?_eq_some h.found).1, rfl⟩)

theorem isSymbol_eq (hname : isName op.name = false) :
    isSymbol r.operatorNames op.name = true := by
  simpa [hname] using h.spelled_eq

/-- A symbol starts with an operator character, which goes on with no name. -/
theorem head_of_symbol (hname : isName op.name = false) (rest : List Char) :
    (op.name.toList ++ rest).head?.all (!isNameChar ·) = true := by
  obtain ⟨c, cs, hcs, hall, -⟩ := isSymbol_spec (h.isSymbol_eq hname)
  simp [hcs, isNameChar_of_isOperatorChar (hall c (by simp))]

/-- Forms named like lists are written in braces, whatever the operator. -/
theorem application_braced (hname : op.name = "List") (hx : Laid r.operatorNames x ps)
    (hps : ∀ d, 0 ≤ d → Prints r d x ps) :
    Application r op x pos ps (.mark .openBrace :: (ps ++ [.mark .closeBrace])) := by
  have hop := h.operatorOf?_eq
  rw [hname] at hop
  have hp : r.precedence (.form "List" ([(x, ps)].map Prod.fst) pos) ≤ loosest := by
    have hle := h.bounds.2
    rwa [precedence_form hop]
  have hprints := prints_braces hp (by simpa using hps loosest (by decide))
  have hkeeps : op.keepsApart x = false := by simp [Operator.keepsApart, hname]
  refine ⟨?_, ⟨trivial, hx.standing ⟨trivial, trivial⟩ fun _ => rfl⟩, ?_⟩
  · rw [hname]
    simpa [commas] using hprints.textOf
  · exact shapes_iff_of_length hkeeps (by simp [Piece.shape?])

theorem application_prefixed (hf : op.fixity = .prefixed) (hlist : op.name ≠ "List")
    (hx : Laid r.operatorNames x ps) (hps : ∀ d, 0 ≤ d → Prints r d x ps) :
    ∃ qs, Application r op x pos ps qs := by
  obtain ⟨last, hlast⟩ := exists_getLast? h.spelled_eq
  obtain ⟨c, cs, hcs, hop, hbrace⟩ := hx.head
  have hprints : Prints r loosest (.form op.name [x] pos)
      (.word op.name :: (gap op.name ps ++ ps)) :=
    prints_prefixed h.operatorOf?_eq hf h.bounds.2 hlist hlast (hps _ h.bounds.1)
  have htext := hprints.textOf
  have hself := hx.standing_self
  have hspace : Registry.needsSpace last (layout ps) = isAlphanumeric last := by
    simp [Registry.needsSpace, hcs, hop]
  have hkeeps : op.keepsApart x =
      (!isName op.name || (isAlphanumeric last || x.isBraced)) := by
    simp [Operator.keepsApart, hlist, hf, hlast]
  have hshapes : op.applied (ps.filterMap Piece.shape?) =
      op.shape :: ps.filterMap Piece.shape? := by rw [Operator.applied, if_pos hf]
  by_cases halnum : isAlphanumeric last = true
  · -- the space stands between the two
    have hgap : gap op.name ps = [.space] := by simp [gap, hlast, hspace, halnum]
    rw [hgap] at htext
    refine ⟨_, htext, ⟨Piece.stands_word h.spelled_eq ?_, trivial, hself⟩, ?_⟩
    · simp [Piece.chars]; decide
    · rw [hshapes, hkeeps]
      simp [List.filterMap_cons, Piece.shape?, Operator.shape, halnum]
  · have hgap : gap op.name ps = [] := by simp [gap, hlast, hspace, halnum]
    rw [hgap] at htext
    by_cases hname : isName op.name = true
    · cases hbraced : x.isBraced with
      | true =>
        refine ⟨_, htext, ⟨.inl ⟨hname, ?_⟩, hself⟩, ?_⟩
        · simp [hcs, hbrace hbraced]
        · rw [hshapes, hkeeps, hbraced]
          simp [Piece.shape?, Operator.shape]
      | false =>
        -- the two names are one
        obtain ⟨n, qs, rfl, hn, hstands⟩ := hx.exists_name hbraced
        have hfused : layout (.word op.name :: ([] ++ .word n :: qs)) =
            layout (.word (op.name ++ n) :: qs) := by simp [Piece.chars]
        rw [hfused] at htext
        refine ⟨_, htext, hstands _ (isName_append hname hn), shapes_iff_of_length ?_ ?_⟩
        · simp [hkeeps, hname, halnum, hbraced]
        · simp [Piece.shape?]
    · have hname : isName op.name = false := by simpa using hname
      refine ⟨_, htext, ⟨.inr ⟨h.isSymbol_eq hname, .inl ?_⟩, hself⟩, ?_⟩
      · simp [hcs, hop]
      · rw [hshapes, hkeeps, hname]
        simp [Piece.shape?, Operator.shape]

theorem application_postfixed (hf : op.fixity = .postfixed) (hlist : op.name ≠ "List")
    (hx : Laid r.operatorNames x ps) (hps : ∀ d, 0 ≤ d → Prints r d x ps) :
    ∃ qs, Application r op x pos ps qs := by
  have hprints : Prints r loosest (.form op.name [x] pos) (ps ++ [.word op.name]) :=
    prints_postfixed h.operatorOf?_eq hf h.bounds.2 hlist (hps _ h.bounds.1)
  have htext := hprints.textOf
  have hword : Standing r.operatorNames [.word op.name] :=
    ⟨Piece.stands_word h.spelled_eq rfl, trivial⟩
  have hkeeps : op.keepsApart x = (!isName op.name || !x.isAtom) := by
    simp [Operator.keepsApart, hlist, hf]
  have hshapes : op.applied (ps.filterMap Piece.shape?) =
      ps.filterMap Piece.shape? ++ [op.shape] := by
    rw [Operator.applied, if_neg (by simp [hf])]
  by_cases happart : isName op.name = true ∧ x.isAtom = true
  · -- the two names are one
    obtain ⟨hname, hatom⟩ := happart
    cases hx with
    | @atom n _ hn =>
      have hfused : layout ([.word n] ++ [.word op.name]) = layout [.word (n ++ op.name)] := by
        simp [Piece.chars]
      rw [hfused] at htext
      refine ⟨_, htext, ⟨.inl ⟨isName_append hn hname, rfl⟩, trivial⟩, shapes_iff_of_length ?_ ?_⟩
      · rw [hkeeps, hname, hatom]
        rfl
      · simp [Piece.shape?]
    | call => cases hatom
    | braces => cases hatom
  · refine ⟨_, htext, hx.standing hword fun hatom => ?_, ?_⟩
    · have hname : isName op.name = false := by simpa [hatom] using happart
      simpa [Piece.chars] using h.head_of_symbol hname []
    · have htrue : op.keepsApart x = true := by
        rw [hkeeps, ← Bool.not_and, Bool.not_eq_true', Bool.and_eq_false_iff]
        by_cases hname : isName op.name = true <;> simp_all
      rw [hshapes, htrue]
      simp [Piece.shape?, Operator.shape]

end Registry.Sole

end Application

/-- **Printed text has the tokens of an operator and of its operand exactly where the two are kept
apart.** Where they are not, the printer still writes a text, and the lexer still reads it. -/
theorem shapes_applied_iff {r : Registry} {op : Operator} {x : Term} (hop : r.Sole op)
    (hx : SimpleOperand r x) (file : String) (pos : Pos) :
    ∃ text operand xs ys, r.textOf (.form op.name [x] pos) = .ok text ∧
      r.textOf x = .ok operand ∧
      (Lexer.mk file r.operatorNames).shapes text = .ok xs ∧
      (Lexer.mk file r.operatorNames).shapes operand = .ok ys ∧
      (xs = op.applied ys ↔ op.keepsApart x = true) := by
  obtain ⟨ps, hlaid, hps⟩ := hx.laid
  have happlication : ∃ qs, Application r op x pos ps qs := by
    by_cases hlist : op.name = "List"
    · exact ⟨_, hop.application_braced hlist hlaid hps⟩
    · rcases hop.unary with hf | hf
      · exact hop.application_prefixed hf hlist hlaid hps
      · exact hop.application_postfixed hf hlist hlaid hps
  obtain ⟨qs, happly⟩ := happlication
  exact ⟨_, _, _, _, happly.text, (hps loosest (by decide)).textOf,
    Lexer.shapes_of_standing happly.standing, Lexer.shapes_of_standing hlaid.standing_self,
    happly.shapes⟩

/-- A factorial of a call. -/
theorem shapes_applied_iff_factorial :
    coreRegistry.Sole ⟨.postfixed, 0, "!", 0⟩ ∧
      SimpleOperand coreRegistry (.form "f" [.atom "a" .none] .none) ∧
      ∃ text operand xs ys,
        coreRegistry.textOf (.form "!" [.form "f" [.atom "a" .none] .none] .none) = .ok text ∧
        coreRegistry.textOf (.form "f" [.atom "a" .none] .none) = .ok operand ∧
        (Lexer.mk "" coreRegistry.operatorNames).shapes text = .ok xs ∧
        (Lexer.mk "" coreRegistry.operatorNames).shapes operand = .ok ys ∧
        xs = ys ++ [(.operator, .str "!")] := by
  have hmem : (⟨.postfixed, 0, "!", 0⟩ : Operator) ∈ coreRegistry.operators := by
    rw [CoreTable.operators_eq]
    decide
  have hop : coreRegistry.Sole ⟨.postfixed, 0, "!", 0⟩ := by
    refine ⟨.inr rfl, CoreTable.operator?_of_mem hmem, ?_, by decide, by decide⟩
    simp only [Registry.operator?, CoreTable.operators_eq]
    rintro (_ | _ | _ | _) hne <;> first | exact absurd rfl hne | decide
  have hx : SimpleOperand coreRegistry (.form "f" [.atom "a" .none] .none) := by
    refine .call (by decide) ?_ fun a ha => ?_
    · simp only [Registry.operator?, CoreTable.operators_eq]
      rintro (_ | _ | _ | _) <;> decide
    · rw [List.mem_singleton.1 ha]
      exact .atom (by decide)
  obtain ⟨text, operand, xs, ys, htext, hoperand, hxs, hys, hiff⟩ :=
    shapes_applied_iff hop hx "" .none
  exact ⟨hop, hx, text, operand, xs, ys, htext, hoperand, hxs, hys, hiff.2 (by decide)⟩

/-! ### A name that ends in an underscore -/

namespace RunTogether

/-- A negation that is spelled with an underscore at its end. -/
def declarations : List Declaration :=
  [.function "builtin_minus" "neg_" 1 .atLeast (some 2), .operator .prefixed 50 "neg_"]

/-- Its operator. -/
abbrev negation : Operator := ⟨.prefixed, 50, "neg_", 0⟩

/-- The table that is built from them. -/
def table : Registry where
  entries := [⟨"neg_", .primitive .minus, 1, .atLeast, some 2⟩]
  operators := [negation]
  frozen := true

/-- **The negation of an atom is printed as one name.** Neither letter nor digit is at the end of
the operator, so there is no space, but underscores go on with names. -/
theorem exists_run_together :
    Registry.build declarations = .ok table ∧ table.contains negation.name = true ∧
      table.Sole negation ∧ SimpleOperand table (.atom "a" .none) ∧
      table.textOf (.form "neg_" [.atom "a" .none] .none) = .ok "neg_a" ∧
      table.textOf (.atom "a" .none) = .ok "a" ∧
      (Lexer.mk "" table.operatorNames).shapes "neg_a" = .ok [(.atom, .str "neg_a")] ∧
      (Lexer.mk "" table.operatorNames).shapes "a" = .ok [(.atom, .str "a")] ∧
      [(.atom, .str "neg_a")] ≠ negation.applied [(.atom, .str "a")] := by
  have hsole : table.Sole negation := by
    refine ⟨.inl rfl, rfl, fun fixity hne => ?_, by decide, by decide⟩
    cases fixity <;> first | exact absurd rfl hne | rfl
  have hatom {d : Int} (hd : 0 ≤ d) : Prints table d (.atom "a" .none) [.word "a"] :=
    prints_atom hd
  have hprints : Prints table loosest (.form "neg_" [.atom "a" .none] .none)
      (.word "neg_" :: (gap "neg_" [.word "a"] ++ [.word "a"])) :=
    prints_prefixed hsole.operatorOf?_eq rfl (by decide) (by decide) rfl (hatom (by decide))
  have hshapes {n : String} (hn : isName n = true) :
      (Lexer.mk "" table.operatorNames).shapes (String.ofList (layout [.word n])) =
        .ok [(.atom, .str n)] := by
    have hstanding : Standing table.operatorNames [.word n] := ⟨.inl ⟨hn, rfl⟩, trivial⟩
    rw [Lexer.shapes_of_standing hstanding]
    simp [Piece.shape?, hn]
  refine ⟨rfl, rfl, hsole, .atom (.atom (by decide)), hprints.textOf,
    (hatom (by decide)).textOf, hshapes (n := "neg_a") (by decide),
    hshapes (n := "a") (by decide), fun happlied => absurd (congrArg List.length happlied) ?_⟩
  rw [negation.length_applied]
  decide

end RunTogether

end TermCalc
