import Mathlib.Data.List.Basic
import TermCalc.Proofs.Registry.Table

/-!
# The layout of printed expressions

How an expression is written, as rules: the pieces of its text in order, apart from the output that
they go to.

* `Piece`, `Piece.chars`, `Piece.shape?`: the pieces of text, the characters of a piece, and the
  token that it should be read as.
* `Writable`: the expressions whose names and literals can be written with a table. `Legible`: those
  for the core table, said outright.
* `Written`: the rules, for every depth. `Writable.written`: every writable expression is written
  somehow.
* `Written.printAt`, `Prints.textOf`: **the printer writes just the pieces of the rules.**
-/

namespace TermCalc

/-- **A piece of printed text.** -/
inductive Piece where
  | space
  | mark (m : Mark)
  /-- A name or a symbol. -/
  | word (s : String)
  | digits (n : Nat)
  | quote (s : String)

namespace Piece

/-- The characters of a piece. -/
def chars : Piece → List Char
  | space => [' ']
  | mark m => [m.char]
  | word s => s.toList
  | digits n => Nat.toDigits 10 n
  | quote s => '"' :: s.toList.flatMap (fun c => (stringEscape c).toList) ++ ['"']

/-- Kind and value of the token that a piece is. -/
def shape? : Piece → Option (TokenKind × Term)
  | space => none
  | mark m => some (.mark m, .str (String.singleton m.char))
  | word s => some (if isName s then .atom else .operator, .str s)
  | digits n => some (.number, .num (.int n))
  | quote s => some (.string, .str s)

end Piece

/-- The text of pieces. -/
def layout (ps : List Piece) : List Char := ps.flatMap Piece.chars

@[simp] theorem layout_nil : layout [] = [] := rfl

@[simp] theorem layout_cons (p : Piece) (ps : List Piece) :
    layout (p :: ps) = p.chars ++ layout ps := rfl

@[simp] theorem layout_append (ps qs : List Piece) :
    layout (ps ++ qs) = layout ps ++ layout qs := List.flatMap_append

/-- The pieces of arguments, with commas between them. -/
def commas : List (List Piece) → List Piece
  | [] => []
  | ps :: more => ps ++ more.flatMap (.mark .comma :: .space :: ·)

theorem commas_cons_cons (ps qs : List Piece) (more : List (List Piece)) :
    commas (ps :: qs :: more) = ps ++ .mark .comma :: .space :: commas (qs :: more) := by
  simp [commas]

/-- **The expressions that can be read.** Atoms have names that are no prefix operators, numbers are
integers without a sign and with no more digits than allowed, every form is named by a name or a
symbol, and a bodied operator has its body. -/
inductive Legible : Term → Prop
  | atom {name : String} {pos : Pos} : isName name = true → name ≠ "Not" →
      Legible (.atom name pos)
  | numeral {n : Nat} {pos : Pos} : n < Num.digitBound → Legible (.numeral (.int n) pos)
  | text {s : String} {pos : Pos} : Legible (.text s pos)
  | form {name : String} {args : List Term} {pos : Pos} :
      (isName name || isSymbol coreRegistry.operatorNames name) = true →
      (name = "While" → args ≠ []) → (∀ a ∈ args, Legible a) → Legible (.form name args pos)

/-- **The expressions that can be written** with the operators of a table. -/
inductive Writable (r : Registry) : Term → Prop
  | atom {name : String} {pos : Pos} : isName name = true → r.operator? .prefixed name = none →
      Writable r (.atom name pos)
  | numeral {n : Nat} {pos : Pos} : n < Num.digitBound → Writable r (.numeral (.int n) pos)
  | text {s : String} {pos : Pos} : Writable r (.text s pos)
  | form {name : String} {args : List Term} {pos : Pos} :
      (isName name || isSymbol r.operatorNames name) = true →
      (r.operator? .bodied name ≠ none → args ≠ []) → (∀ a ∈ args, Writable r a) →
      Writable r (.form name args pos)

theorem legible_iff_writable {t : Term} : Legible t ↔ Writable coreRegistry t := by
  constructor
  · intro h
    induction h with
    | atom hname hnot => exact .atom hname (CoreTable.operator?_prefixed_of_isName hname hnot)
    | numeral hn => exact .numeral hn
    | text => exact .text
    | form hname hwhile _ ih =>
      refine .form hname (fun hbodied => ?_) ih
      obtain ⟨op, hop⟩ := Option.ne_none_iff_exists'.1 hbodied
      obtain ⟨hmem, hf, rfl⟩ := Registry.operator?_eq_some hop
      exact hwhile (CoreTable.name_of_bodied hmem hf)
  · intro h
    induction h with
    | atom hname hop =>
      refine .atom hname fun hnot => ?_
      exact CoreTable.operator?_prefixed_not (hnot ▸ hop)
    | numeral hn => exact .numeral hn
    | text => exact .text
    | form hname hbodied _ ih =>
      exact .form hname (fun hwhile => hbodied (hwhile ▸ CoreTable.operator?_bodied_while)) ih

/-- The space behind a prefix operator. -/
def gap (name : String) (operand : List Piece) : List Piece :=
  match name.toList.getLast? with
  | some last => if Registry.needsSpace last (layout operand) then [.space] else []
  | none => []

/-- **How an expression is written at a depth.** Arguments come with their pieces. -/
inductive Written (r : Registry) : Int → Term → List Piece → Prop
  | parens {d : Int} {t : Term} {ps : List Piece} :
      d < r.precedence t → Written r loosest t ps →
      Written r d t (.mark .openParen :: (ps ++ [.mark .closeParen]))
  | atom {d : Int} {name : String} {pos : Pos} :
      0 ≤ d → isName name = true → r.operator? .prefixed name = none →
      Written r d (.atom name pos) [.word name]
  | numeral {d : Int} {n : Nat} {pos : Pos} :
      0 ≤ d → n < Num.digitBound → Written r d (.numeral (.int n) pos) [.digits n]
  | text {d : Int} {s : String} {pos : Pos} : 0 ≤ d → Written r d (.text s pos) [.quote s]
  | list {d : Int} {args : List (Term × List Piece)} {pos : Pos} :
      0 ≤ d → (∀ a ∈ args, Written r loosest a.1 a.2) →
      Written r d (.form "List" (args.map Prod.fst) pos)
        (.mark .openBrace :: (commas (args.map Prod.snd) ++ [.mark .closeBrace]))
  | call {d : Int} {name : String} {args : List (Term × List Piece)} {pos : Pos} :
      0 ≤ d → name ≠ "List" →
      (isName name || isSymbol r.operatorNames name) = true →
      r.operatorOf? name args.length = none →
      r.operator? .bodied name = none → (∀ a ∈ args, Written r loosest a.1 a.2) →
      Written r d (.form name (args.map Prod.fst) pos)
        (.word name :: .mark .openParen :: (commas (args.map Prod.snd) ++ [.mark .closeParen]))
  | infixed {d : Int} {op : Operator} {a b : Term} {ps qs : List Piece} {pos : Pos} :
      r.operatorOf? op.name 2 = some op → op.fixity = .infixed → op.precedence ≤ d →
      Written r op.precedence a ps → Written r (op.precedence - 1) b qs →
      Written r d (.form op.name [a, b] pos) (ps ++ .space :: .word op.name :: .space :: qs)
  | prefixed {d : Int} {op : Operator} {a : Term} {ps : List Piece} {pos : Pos} :
      r.operatorOf? op.name 1 = some op → op.fixity = .prefixed → op.precedence ≤ d →
      Written r op.precedence a ps →
      Written r d (.form op.name [a] pos) (.word op.name :: (gap op.name ps ++ ps))
  | postfixed {d : Int} {op : Operator} {a : Term} {ps : List Piece} {pos : Pos} :
      r.operatorOf? op.name 1 = some op → op.fixity = .postfixed → op.precedence ≤ d →
      Written r op.precedence a ps → Written r d (.form op.name [a] pos) (ps ++ [.word op.name])
  | bodied {d : Int} {op : Operator} {args : List (Term × List Piece)} {body : Term}
      {ps : List Piece} {pos : Pos} :
      r.operatorOf? op.name (args.length + 1) = some op → op.fixity = .bodied →
      op.precedence ≤ d → (∀ a ∈ args, Written r loosest a.1 a.2) →
      Written r op.precedence body ps →
      Written r d (.form op.name (args.map Prod.fst ++ [body]) pos)
        (.word op.name :: .mark .openParen ::
          (commas (args.map Prod.snd) ++ .mark .closeParen :: .space :: ps))

/-! ### Every writable expression is written -/

section Writing

variable {r : Registry}

theorem Registry.Regular.precedence_bounds (hr : r.Regular) (t : Term) :
    r.precedence t ≤ loosest ∧ 0 ≤ r.precedence t := by
  have hop : ∀ op : Option Operator, (∀ o, op = some o → o ∈ r.operators) →
      Registry.precedenceOf op ≤ loosest ∧ 0 ≤ Registry.precedenceOf op := by
    intro op hmem
    cases op with
    | none => decide
    | some op => exact (hr.bounds op (hmem op rfl)).symm
  unfold Registry.precedence
  split
  · split
    · exact hop _ fun o ho => (Registry.operator?_eq_some ho).1
    · decide
  · exact hop _ fun o ho => (Registry.operatorOf?_eq_some ho).1
  · decide

theorem precedence_form {name : String} {args : List Term} {pos : Pos} {op : Operator}
    (h : r.operatorOf? name args.length = some op) :
    r.precedence (.form name args pos) = op.precedence := by
  rw [Registry.precedence, h]
  rfl

/-- What can be written without parentheses around it can be written at every depth. -/
theorem exists_written (hr : r.Regular) {t : Term}
    (h : ∀ d, r.precedence t ≤ d → ∃ ps, Written r d t ps) (d : Int) :
    ∃ ps, Written r d t ps := by
  by_cases hd : d < r.precedence t
  · -- nothing is looser than the loosest depth, at which it stands in the parentheses
    obtain ⟨ps, hps⟩ := h loosest (hr.precedence_bounds t).1
    exact ⟨_, .parens hd hps⟩
  · exact h d (by omega)

/-- What there is for every item of a list, along with the items. -/
theorem exists_pairs {α β : Type} {W : α → β → Prop} {items : List α}
    (h : ∀ a ∈ items, ∃ b, W a b) :
    ∃ xs : List (α × β), xs.map Prod.fst = items ∧ ∀ x ∈ xs, W x.1 x.2 := by
  induction items with
  | nil => exact ⟨[], rfl, by simp⟩
  | cons a items ih =>
    obtain ⟨b, hb⟩ := h a (by simp)
    obtain ⟨xs, rfl, hxs⟩ := ih fun a ha => h a (by simp [ha])
    refine ⟨(a, b) :: xs, rfl, ?_⟩
    simpa using ⟨hb, fun a b hx => hxs (a, b) hx⟩

/-- A form that is written without an operator is not that of a bodied one. -/
theorem operator?_bodied_of_none {name : String} {args : List Term}
    (h : r.operatorOf? name args.length = none)
    (hbody : r.operator? .bodied name ≠ none → args ≠ []) : r.operator? .bodied name = none := by
  by_contra hne
  exact hne ((Registry.operatorOf?_eq_none h).2 (List.length_pos_iff.2 (hbody hne)))

/-- **Every writable expression is written somehow**, at every depth. -/
theorem Writable.written (hr : r.Regular) {t : Term} (h : Writable r t) :
    ∀ d, ∃ ps, Written r d t ps := by
  induction h with
  | atom hname hop => exact exists_written hr fun d hd => ⟨_, .atom hd hname hop⟩
  | @numeral n pos hn =>
    refine exists_written hr fun d hd => ⟨_, .numeral ?_ hn⟩
    have := (hr.precedence_bounds (.numeral (.int n) pos)).2
    omega
  | text => exact exists_written hr fun d hd => ⟨_, .text hd⟩
  | @form name args pos hname hbody _ ih =>
    refine exists_written hr fun d hd => ?_
    have h0 : 0 ≤ d := Int.le_trans (hr.precedence_bounds _).2 hd
    obtain ⟨xs, hxs, hw⟩ := exists_pairs fun a ha => ih a ha loosest
    -- by how the form is written: as a list, as a call, or with an operator
    by_cases hlist : name = "List"
    · subst hxs hlist
      exact ⟨_, .list h0 hw⟩
    · cases hop : r.operatorOf? name args.length with
      | none =>
        subst hxs
        have hbodied := operator?_bodied_of_none hop hbody
        exact ⟨_, .call h0 hlist hname (by simpa using hop) hbodied hw⟩
      | some op =>
        rw [precedence_form hop] at hd
        obtain ⟨hmem, rfl, hcase⟩ := Registry.operatorOf?_eq_some hop
        rcases hcase with ⟨hf, hn⟩ | ⟨hf, hn⟩ | ⟨hf, hn, -⟩ | ⟨hf, hn⟩
        · obtain ⟨a, b, rfl⟩ := List.length_eq_two.1 hn
          obtain ⟨ps, hps⟩ := ih a (by simp) op.precedence
          obtain ⟨qs, hqs⟩ := ih b (by simp) (op.precedence - 1)
          exact ⟨_, .infixed hop hf hd hps hqs⟩
        · obtain ⟨a, rfl⟩ := List.length_eq_one_iff.1 hn
          obtain ⟨ps, hps⟩ := ih a (by simp) op.precedence
          exact ⟨_, .prefixed hop hf hd hps⟩
        · obtain ⟨a, rfl⟩ := List.length_eq_one_iff.1 hn
          obtain ⟨ps, hps⟩ := ih a (by simp) op.precedence
          exact ⟨_, .postfixed hop hf hd hps⟩
        · -- the last argument is the body
          obtain rfl | ⟨init, body, rfl⟩ := List.eq_nil_or_concat' args
          · simp at hn
          · obtain ⟨ps, hps⟩ := ih body (by simp) op.precedence
            have hinit : ∀ a ∈ init, ∃ ps, Written r loosest a ps :=
              fun a ha => ih a (by simp [ha]) loosest
            obtain ⟨ys, rfl, hys⟩ := exists_pairs hinit
            exact ⟨_, .bodied (by simpa using hop) hf hd hys hps⟩

/-- Printed text starts with a token. -/
theorem Written.starts {d : Int} {t : Term} {ps : List Piece} (h : Written r d t ps) :
    ∃ p qs shape, ps = p :: qs ∧ p.shape? = some shape := by
  induction h with
  | infixed _ _ _ _ _ ih =>
    obtain ⟨p, qs, shape, rfl, hs⟩ := ih
    exact ⟨p, _, shape, rfl, hs⟩
  | postfixed _ _ _ _ ih =>
    obtain ⟨p, qs, shape, rfl, hs⟩ := ih
    exact ⟨p, _, shape, rfl, hs⟩
  | _ => exact ⟨_, _, _, rfl, rfl⟩

end Writing

theorem Legible.written {t : Term} (h : Legible t) (d : Int) : ∃ ps, Written coreRegistry d t ps :=
  (legible_iff_writable.1 h).written CoreTable.regular d

/-! ### The printer writes the pieces -/

namespace Buffer

/-- A buffer with more text, every character of it a piece. -/
def add (b : Buffer) (cs : List Char) : Buffer := ⟨b.text ++ String.ofList cs, b.pieces + cs.length⟩

@[simp] theorem add_nil (b : Buffer) : b.add [] = b := by simp [add]

@[simp] theorem add_add (b : Buffer) (cs ds : List Char) :
    (b.add cs).add ds = b.add (cs ++ ds) := by
  simp [add, String.append_assoc, Nat.add_assoc]

@[simp] theorem write_eq_add (b : Buffer) (text : String) :
    Output.write b text = b.add text.toList := by
  simp [add, Output.write, String.length_toList]

@[simp] theorem put_eq_add (b : Buffer) (c : Char) : Output.put b c = b.add [c] := by
  simp only [add, Output.put, List.length_singleton]
  rw [String.push_eq_append, String.singleton_eq_ofList]

theorem writeEscaped_eq_add (b : Buffer) (s : String) :
    writeEscaped b s = b.add (s.toList.flatMap fun c => (stringEscape c).toList) := by
  unfold writeEscaped
  simp only [write_eq_add]
  induction s.toList generalizing b with
  | nil => simp
  | cons c cs ih => simp [ih]

end Buffer

/-! The printer on a buffer, for the forms that the rules tell apart. -/

open Registry

variable {r : Registry}

theorem printAt_parens (hr : r.Regular) {d : Int} {t : Term} (h : d < r.precedence t)
    (s : Buffer) : r.printAt d t s = (r.printAt loosest t (s.add ['('])).put ')' := by
  have hl : ¬loosest < r.precedence t := by have := (hr.precedence_bounds t).1; omega
  rw [Registry.printAt, Registry.printAt, enclosed, if_pos h, if_neg hl, enclosed, if_neg hl]
  simp

theorem enclosed_of_le {depth precedence : Int} (h : precedence ≤ depth)
    (body : Buffer → Printed Buffer) (s : Buffer) : enclosed depth precedence body s = body s := by
  rw [enclosed, if_neg (by omega)]

/-- What printing an argument at a depth adds to a buffer. -/
def Prints (r : Registry) (d : Int) (t : Term) (ps : List Piece) : Prop :=
  ∀ s : Buffer, r.printAt d t s = .done (s.add (layout ps))

theorem printList_of_prints {args : List (Term × List Piece)}
    (h : ∀ a ∈ args, Prints r loosest a.1 a.2) (s : Buffer) :
    r.printList (args.map Prod.fst) s =
      .done (s.add (layout (commas (args.map Prod.snd)))) := by
  induction args generalizing s with
  | nil => simp [Registry.printList, commas]
  | cons a args ih =>
    have ha := h a (by simp)
    cases args with
    | nil => simp [Registry.printList, commas, ha s]
    | cons b args =>
      have hmore := ih fun c hc => h c (by simp [hc])
      have hcons : r.printList ((a :: b :: args).map Prod.fst) s =
          ((r.printAt loosest a.1 s).write ", ").andThen
            (r.printList ((b :: args).map Prod.fst)) := by
        simp only [List.map_cons]
        rw [Registry.printList]
      rw [hcons, ha s]
      simp only [Printed.write, Printed.done_andThen, hmore]
      simp [commas_cons_cons, Piece.chars, Mark.char]

theorem printBodied_behind {d : Int} {args : List (Term × List Piece)} {body : Term}
    {ps : List Piece} (h : ∀ a ∈ args, Prints r loosest a.1 a.2) (hbody : Prints r d body ps)
    (s : Buffer) :
    r.printBodied d false (args.map Prod.fst ++ [body]) s =
      .done (s.add (layout (args.flatMap (fun a => .mark .comma :: .space :: a.2) ++
        .mark .closeParen :: .space :: ps))) := by
  induction args generalizing s with
  | nil => simp [Registry.printBodied, hbody _, Piece.chars, Mark.char]
  | cons a args ih =>
    have hmore := ih fun c hc => h c (by simp [hc])
    -- the printer asks whether more arguments follow, and the body does
    obtain ⟨t, more, hcons⟩ : ∃ t more, args.map Prod.fst ++ [body] = t :: more :=
      List.exists_cons_of_ne_nil (by simp)
    simp only [List.map_cons, List.cons_append, hcons] at hmore ⊢
    rw [Registry.printBodied]
    simp [h a (by simp) _, hmore, Piece.chars, Mark.char]

theorem printBodied_of_prints {d : Int} {args : List (Term × List Piece)} {body : Term}
    {ps : List Piece} (h : ∀ a ∈ args, Prints r loosest a.1 a.2) (hbody : Prints r d body ps)
    (s : Buffer) :
    r.printBodied d true (args.map Prod.fst ++ [body]) s =
      .done (s.add (layout (commas (args.map Prod.snd) ++ .mark .closeParen :: .space :: ps))) := by
  cases args with
  | nil => simp [Registry.printBodied, commas, hbody _, Piece.chars, Mark.char]
  | cons a args =>
    have hargs : ∀ c ∈ args, Prints r loosest c.1 c.2 := fun c hc => h c (by simp [hc])
    have hmore := printBodied_behind hargs hbody
    obtain ⟨t, more, hcons⟩ : ∃ t more, args.map Prod.fst ++ [body] = t :: more :=
      List.exists_cons_of_ne_nil (by simp)
    simp only [List.map_cons, List.cons_append, hcons] at hmore ⊢
    rw [Registry.printBodied]
    simp [h a (by simp) _, hmore, commas, List.flatMap_map]

theorem Registry.Regular.operatorOf?_list (hr : r.Regular) (n : Nat) :
    r.operatorOf? "List" n = none := by
  by_contra hne
  obtain ⟨op, hop⟩ := Option.ne_none_iff_exists'.1 hne
  obtain ⟨hmem, hname, -⟩ := operatorOf?_eq_some hop
  exact hr.notList op hmem hname

theorem prints_atom {d : Int} {name : String} {pos : Pos} (hd : 0 ≤ d) :
    Prints r d (.atom name pos) [.word name] := by
  intro s
  have hp : r.precedence (.atom name pos) ≤ d := hd
  rw [Registry.printAt, enclosed_of_le hp]
  simp [Piece.chars]

theorem prints_text {d : Int} {content : String} {pos : Pos} (hd : 0 ≤ d) :
    Prints r d (.text content pos) [.quote content] := by
  intro s
  have hp : r.precedence (.text content pos) ≤ d := hd
  rw [Registry.printAt, enclosed_of_le hp]
  simp [Buffer.writeEscaped_eq_add, Piece.chars]

/-- Whatever operator may be named so, forms of lists are written in braces. -/
theorem prints_braces {d : Int} {args : List (Term × List Piece)} {pos : Pos}
    (hp : r.precedence (.form "List" (args.map Prod.fst) pos) ≤ d)
    (h : ∀ a ∈ args, Prints r loosest a.1 a.2) : Prints r d (.form "List" (args.map Prod.fst) pos)
      (.mark .openBrace :: (commas (args.map Prod.snd) ++ [.mark .closeBrace])) := by
  intro s
  rw [Registry.printAt, enclosed_of_le hp]
  simp [printList_of_prints h, Printed.put, Piece.chars, Mark.char]

theorem precedence_of_none {name : String} {args : List Term} {pos : Pos}
    (h : r.operatorOf? name args.length = none) : r.precedence (.form name args pos) = 0 := by
  rw [Registry.precedence, h]
  rfl

theorem prints_list (hr : r.Regular) {d : Int} {args : List (Term × List Piece)} {pos : Pos}
    (hd : 0 ≤ d) (h : ∀ a ∈ args, Prints r loosest a.1 a.2) :
    Prints r d (.form "List" (args.map Prod.fst) pos)
      (.mark .openBrace :: (commas (args.map Prod.snd) ++ [.mark .closeBrace])) := by
  have hp : r.precedence (.form "List" (args.map Prod.fst) pos) ≤ d := by
    rwa [precedence_of_none (hr.operatorOf?_list _)]
  exact prints_braces hp h

theorem prints_call {d : Int} {name : String} {args : List (Term × List Piece)} {pos : Pos}
    (hd : 0 ≤ d) (hname : name ≠ "List") (hop : r.operatorOf? name args.length = none)
    (h : ∀ a ∈ args, Prints r loosest a.1 a.2) : Prints r d (.form name (args.map Prod.fst) pos)
      (.word name :: .mark .openParen ::
        (commas (args.map Prod.snd) ++ [.mark .closeParen])) := by
  intro s
  have hop : r.operatorOf? name (args.map Prod.fst).length = none := by simpa using hop
  have hp : r.precedence (.form name (args.map Prod.fst) pos) ≤ d := by
    rwa [precedence_of_none hop]
  rw [Registry.printAt, enclosed_of_le hp]
  simp only [hop, beq_iff_eq, hname, if_false]
  simp [printList_of_prints h, Printed.put, Piece.chars, Mark.char]

/-- What is spelled has a last character. -/
theorem exists_getLast? {known : List String} {s : String}
    (h : (isName s || isSymbol known s) = true) : ∃ last, s.toList.getLast? = some last := by
  cases hs : s.toList with
  | nil => simp [isName, isSymbol, hs] at h
  | cons c cs => exact ⟨_, List.getLast?_cons⟩

theorem printPrefixed_of_prints {op : Operator} {a : Term} {ps : List Piece} {last : Char}
    (hlast : op.name.toList.getLast? = some last) (h : Prints r op.precedence a ps) (s : Buffer) :
    printPrefixed op (r.printAt op.precedence a Buffer.empty) s =
      .done (s.add (layout (.word op.name :: (gap op.name ps ++ ps)))) := by
  have hempty : Buffer.empty.add (layout ps) = ⟨String.ofList (layout ps), (layout ps).length⟩ := by
    simp [Buffer.empty, Buffer.add]
  unfold printPrefixed
  rw [h, hempty]
  by_cases hspace : needsSpace last (layout ps) = true <;>
    simp [Printed.done, gap, hlast, hspace, Piece.chars]

theorem prints_prefixed {d : Int} {op : Operator} {a : Term} {ps : List Piece} {pos : Pos}
    {last : Char} (hop : r.operatorOf? op.name 1 = some op) (hf : op.fixity = .prefixed)
    (hd : op.precedence ≤ d) (hname : op.name ≠ "List")
    (hlast : op.name.toList.getLast? = some last) (h : Prints r op.precedence a ps) :
    Prints r d (.form op.name [a] pos) (.word op.name :: (gap op.name ps ++ ps)) := by
  intro s
  have hp : r.precedence (.form op.name [a] pos) ≤ d := by rwa [precedence_form hop]
  rw [Registry.printAt, enclosed_of_le hp]
  simp only [List.length_cons, List.length_nil, Nat.zero_add, hop, hf, beq_iff_eq, hname, if_false]
  exact printPrefixed_of_prints hlast h s

theorem prints_postfixed {d : Int} {op : Operator} {a : Term} {ps : List Piece} {pos : Pos}
    (hop : r.operatorOf? op.name 1 = some op) (hf : op.fixity = .postfixed)
    (hd : op.precedence ≤ d) (hname : op.name ≠ "List") (h : Prints r op.precedence a ps) :
    Prints r d (.form op.name [a] pos) (ps ++ [.word op.name]) := by
  intro s
  have hp : r.precedence (.form op.name [a] pos) ≤ d := by rwa [precedence_form hop]
  rw [Registry.printAt, enclosed_of_le hp]
  simp only [List.length_cons, List.length_nil, Nat.zero_add, hop, hf, beq_iff_eq, hname, if_false]
  rw [h]
  simp [Printed.write, Piece.chars]

/-- **The printer writes the pieces of the rules.** -/
theorem Written.printAt (hr : r.Regular) {d : Int} {t : Term} {ps : List Piece}
    (h : Written r d t ps) : Prints r d t ps := by
  induction h with
  | parens hd _ ih =>
    intro s
    rw [printAt_parens hr hd, ih]
    simp [Printed.put, Piece.chars, Mark.char]
  | atom hd _ _ => exact prints_atom hd
  | @numeral d n pos hd hn =>
    intro s
    have h0 : ¬(n : Int) < 0 := by omega
    have hp : r.precedence (.numeral (.int n) pos) ≤ d := by
      simpa [Registry.precedence, Num.isNegative, Num.less, h0] using hd
    have hw : (Num.int n).writable = true := by simpa [Num.writable, Num.intWritable] using hn
    rw [Registry.printAt, enclosed_of_le hp]
    simp [hw, Num.text, Num.chars, Num.intText, h0, Piece.chars]
  | text hd => exact prints_text hd
  | list hd _ ih => exact prints_list hr hd ih
  | call hd hname _ hop _ _ ih => exact prints_call hd hname hop ih
  | @infixed d op a b ps qs pos hop hf hd _ _ iha ihb =>
    intro s
    have hp : r.precedence (.form op.name [a, b] pos) ≤ d := by rwa [precedence_form hop]
    have hname := hr.notList op (Registry.operatorOf?_eq_some hop).1
    rw [Registry.printAt, enclosed_of_le hp]
    simp only [List.length_cons, List.length_nil, Nat.zero_add, Nat.reduceAdd, hop, hf,
      beq_iff_eq, hname, if_false]
    rw [iha]
    simp [Printed.write, ihb _, Piece.chars]
  | prefixed hop hf hd _ ih =>
    have hm := (Registry.operatorOf?_eq_some hop).1
    obtain ⟨last, hlast⟩ := exists_getLast? (hr.spelled _ hm)
    exact prints_prefixed hop hf hd (hr.notList _ hm) hlast ih
  | postfixed hop hf hd _ ih =>
    exact prints_postfixed hop hf hd (hr.notList _ (Registry.operatorOf?_eq_some hop).1) ih
  | @bodied d op args body ps pos hop hf hd _ _ ih ihBody =>
    intro s
    have hop : r.operatorOf? op.name (args.map Prod.fst ++ [body]).length = some op := by
      simpa using hop
    have hp : r.precedence (.form op.name (args.map Prod.fst ++ [body]) pos) ≤ d := by
      rwa [precedence_form hop]
    have hname := hr.notList op (Registry.operatorOf?_eq_some hop).1
    rw [Registry.printAt, enclosed_of_le hp]
    simp only [hop, hf, beq_iff_eq, hname, if_false]
    rw [printBodied_of_prints ih ihBody]
    simp [Piece.chars, Mark.char]

theorem Prints.textOf {t : Term} {ps : List Piece} (h : Prints r loosest t ps) :
    r.textOf t = .ok (String.ofList (layout ps)) := by
  unfold Registry.textOf Registry.print
  rw [h]
  simp [Printed.done, Buffer.empty, Buffer.add]

end TermCalc
