import TermCalc.Proofs.Syntax.Spelling

/-!
# Reading printed expressions

What the parser makes of the tokens of a printed expression. The two sides group by different rules:
the printer by precedence alone, the parser by what stands in front of a parenthesis, too. They part
in one place only: `Not` before text that starts with a parenthesis is read as a call, which takes
no more than what is in the parentheses.

* `Uncaptured`: no `Not` of an expression loses a part of its operand so.
* `Follows`: what may stand behind an expression that is printed at a depth.
* `Reread`, `Split`: what the text of an expression is read as, and what the rest of it makes of
  another operand in place of the parentheses that it starts with.
* `Written.rereads`, `Written.parse_layout`: **printed text is read as the same expression just if
  no `Not` is captured.**
-/

namespace TermCalc

open TermCalc.Parser (Reads current)

/-- **Whether the text of an expression at a depth starts with a parenthesis.** -/
def opensParenthesis (d : Int) (t : Term) : Bool :=
  (coreRegistry.printAt d t Buffer.empty).output.text.toList.head? == some '('

/-- **Whether every `Not` of an expression keeps its operand**: text behind it starts with a
parenthesis only where the whole operand is in parentheses. -/
inductive Uncaptured : Term → Prop
  | atom {name : String} {pos : Pos} : Uncaptured (.atom name pos)
  | numeral {n : Num} {pos : Pos} : Uncaptured (.numeral n pos)
  | text {s : String} {pos : Pos} : Uncaptured (.text s pos)
  | form {name : String} {args : List Term} {pos : Pos} :
      (∀ a ∈ args, Uncaptured a) →
      (name = "Not" → ∀ a, args = [a] → opensParenthesis 100 a = true →
        100 < coreRegistry.precedence a) →
      Uncaptured (.form name args pos)

theorem uncaptured_form {name : String} {args : List Term} {pos : Pos} :
    Uncaptured (.form name args pos) ↔ (∀ a ∈ args, Uncaptured a) ∧
      (name = "Not" → ∀ a, args = [a] → opensParenthesis 100 a = true →
        100 < coreRegistry.precedence a) := by
  constructor
  · rintro (_ | _ | _ | ⟨hargs, hnot⟩)
    exact ⟨hargs, hnot⟩
  · exact fun ⟨hargs, hnot⟩ => .form hargs hnot

/-! ### Equality of forms -/

/-- A form is read back if its name is and no `Not` of its arguments is captured. -/
theorem sameStructure_tree_iff {t : Token} {us : List Tree} {name : String} {args : List Term}
    {pos : Pos} (hname : t.operatorName = name)
    (h : List.Forall₂ (fun u a => u.term.sameStructure a = true ↔ Uncaptured a) us args) :
    (Tree.form t us).term.sameStructure (.form name args pos) = true ↔
      ∀ a ∈ args, Uncaptured a := by
  rw [sameStructure_tree hname]
  induction h with
  | nil => simp
  | cons hu _ ih => simp [List.forall₂_cons, hu, ih]

/-! ### What may stand behind an expression -/

/-- The parser of the core table. -/
abbrev coreParser (file : String) : Parser := ⟨coreRegistry, file⟩

variable {file : String}

attribute [local irreducible] coreRegistry

/-- **What may stand behind an expression printed at a depth**: no parenthesis, and no operator that
would go on with a part of the expression. An operator of just that depth goes on with the whole,
and no prefix or bodied operator has the depth of an infix or postfix one. -/
structure Follows (file : String) (d : Int) (ts : List Token) : Prop where
  notOpen : (current ts).kind ≠ .mark .openParen
  plain : (current ts).spelledByList = false
  tighter : ∀ e, e < d → (coreParser file).following? (current ts) e = none
  operand : ∀ op ∈ coreRegistry.operators, op.fixity = .prefixed ∨ op.fixity = .bodied →
    op.precedence ≤ d → (coreParser file).following? (current ts) op.precedence = none

theorem follows_of_stops {d : Int} {ts : List Token} (h : (coreParser file).Stops d ts)
    (hopen : (current ts).kind ≠ .mark .openParen) : Follows file d ts :=
  ⟨hopen, h.1, fun _ he => following?_mono h.2 (Int.le_of_lt he),
    fun _ _ _ hle => following?_mono h.2 hle⟩

theorem follows_of_ends {t : Token} (h : t.Ends) (d : Int) (ts : List Token) :
    Follows file d (t :: ts) := follows_of_stops (h.stops d ts) (h.ne_openParen ts)

/-- An infix or postfix operator goes on with what binds as tightly as it. -/
theorem following?_of_mem {op : Operator} (hm : op ∈ coreRegistry.operators)
    (hf : op.fixity = .infixed ∨ op.fixity = .postfixed) {t : Token} (ht : t.Names op.name)
    (e : Int) :
    (coreParser file).following? t e = if op.precedence ≤ e then some op else none := by
  have hop := CoreTable.operator?_of_mem hm
  rw [Parser.following?, Parser.operatorAt?_of_spelling ht.spelling?_eq,
    Parser.operatorAt?_of_spelling ht.spelling?_eq]
  -- no spelling is that of an infix and of a postfix operator
  rcases hf with hf | hf
  · rw [hf] at hop
    simp [hop, CoreTable.operator?_postfixed_of_infixed hm hf, Option.filter_some]
  · rw [hf] at hop
    simp [hop, CoreTable.operator?_infixed_of_postfixed hm hf, Option.filter_some]

theorem following?_of_le {op : Operator} (hm : op ∈ coreRegistry.operators)
    (hf : op.fixity = .infixed ∨ op.fixity = .postfixed) {t : Token} (ht : t.Names op.name)
    {e : Int} (he : op.precedence ≤ e) : (coreParser file).following? t e = some op := by
  rw [following?_of_mem hm hf ht, if_pos he]

theorem following?_of_lt {op : Operator} (hm : op ∈ coreRegistry.operators)
    (hf : op.fixity = .infixed ∨ op.fixity = .postfixed) {t : Token} (ht : t.Names op.name)
    {e : Int} (he : e < op.precedence) : (coreParser file).following? t e = none := by
  rw [following?_of_mem hm hf ht, if_neg (by omega)]

theorem follows_of_operator {op : Operator} (hm : op ∈ coreRegistry.operators)
    (hf : op.fixity = .infixed ∨ op.fixity = .postfixed) {t : Token} (ht : t.Names op.name)
    (ts : List Token) : Follows file op.precedence (t :: ts) := by
  refine ⟨?_, ht.spelledByList_eq, fun e he => following?_of_lt hm hf ht he, ?_⟩
  · rcases ht.kind_cases with hk | hk <;> simp [current, hk]
  · -- none of these has just the depth of the operator, so each binds more tightly
    intro op' hm' hf' hle
    have hne := CoreTable.precedence_ne hm hf hm' hf'
    exact following?_of_lt hm hf ht (by omega)

/-! ### What the text is read as -/

/-- **What an expression printed at a depth is read as.** -/
structure Reread (file : String) (d : Int) (t : Term) (ts : List Token) (u : Tree) : Prop where
  /-- It is read as itself just if no `Not` is captured. -/
  same : u.term.sameStructure t = true ↔ Uncaptured t
  /-- Its tokens are read at every depth as loose, and what stands behind goes on with it. -/
  reads : ∀ {e : Int} {rest rest' : List Token} {x : Tree}, d ≤ e → Follows file d rest →
    Reads (coreParser file) (.operators u e) rest [x] rest' →
    Reads (coreParser file) (.expression e) (ts ++ rest) [x] rest'

theorem Reread.alone {d e : Int} {t : Term} {ts rest : List Token} {u : Tree}
    (h : Reread file d t ts u) (he : d ≤ e) (hf : Follows file d rest)
    (hs : (coreParser file).Stops e rest) :
    Reads (coreParser file) (.expression e) (ts ++ rest) [u] rest := h.reads he hf (.stop hs)

/-- **Text that starts with a parenthesis**, as what is in the parentheses and the operators behind
it. Any other operand in place of the parentheses would be read with the same operators. -/
structure Split (file : String) (d : Int) (t : Term) (ts : List Token) (u : Tree) where
  opening : Token
  inner : List Token
  closing : Token
  tail : List Token
  first : Tree
  grow : Tree → Tree
  tokens : ts = opening :: (inner ++ closing :: tail)
  opens : opening.kind = .mark .openParen
  closes : closing.kind = .mark .closeParen
  inside : ∀ rest, Reads (coreParser file) (.expression loosest) (inner ++ closing :: rest) [first]
    (closing :: rest)
  whole : u = grow first
  goesOn : ∀ {e : Int} {rest rest' : List Token} {head x : Tree}, d ≤ e → Follows file d rest →
    Reads (coreParser file) (.operators (grow head) e) rest [x] rest' →
    Reads (coreParser file) (.operators head e) (tail ++ rest) [x] rest'
  /-- A looser expression is in the parentheses as a whole. -/
  looser : d < coreRegistry.precedence t → tail = [] ∧ ∀ head, grow head = head
  /-- Of any other the outermost operator stands behind the parentheses. -/
  outermost : coreRegistry.precedence t ≤ d → ∀ head, ∃ name args pos,
    (grow head).term = .form name args pos ∧ name ≠ "Not"

theorem Follows.stops_of_lt {d e : Int} {ts : List Token} (h : Follows file d ts) (he : e < d) :
    (coreParser file).Stops e ts := ⟨h.plain, h.tighter e he⟩

theorem Follows.stops_of_operand {d : Int} {ts : List Token} (h : Follows file d ts) {op : Operator}
    (hm : op ∈ coreRegistry.operators) (hf : op.fixity = .prefixed ∨ op.fixity = .bodied)
    (hd : op.precedence ≤ d) : (coreParser file).Stops op.precedence ts :=
  ⟨h.plain, h.operand op hm hf hd⟩

theorem reads_infixed {op : Operator} (hm : op ∈ coreRegistry.operators)
    (hf : op.fixity = .infixed) {t : Token} (ht : t.Names op.name) {e : Int}
    (he : op.precedence ≤ e) {lhs rhs x : Tree} {ts rest rest' : List Token}
    (hrhs : Reads (coreParser file) (.expression (op.precedence - 1)) ts [rhs] rest)
    (h : Reads (coreParser file) (.operators (.form t [lhs, rhs]) e) rest [x] rest') :
    Reads (coreParser file) (.operators lhs e) (t :: ts) [x] rest' :=
  .infixed ht.spelledByList_eq (following?_of_le hm (.inl hf) ht he) hf
    (CoreTable.contains_of_mem hm) hrhs h

theorem reads_postfixed {op : Operator} (hm : op ∈ coreRegistry.operators)
    (hf : op.fixity = .postfixed) {t : Token} (ht : t.Names op.name) {e : Int}
    (he : op.precedence ≤ e) {lhs x : Tree} {rest rest' : List Token}
    (h : Reads (coreParser file) (.operators (.form t [lhs]) e) rest [x] rest') :
    Reads (coreParser file) (.operators lhs e) (t :: rest) [x] rest' :=
  .postfixed ht.spelledByList_eq (following?_of_le hm (.inr hf) ht he) (by simp [hf])
    (CoreTable.contains_of_mem hm) h

/-- Only an opening parenthesis starts with one. -/
theorem Piece.chars_head {known : List String} {p : Piece} {next : Option Char}
    (h : p.Stands known next) :
    ∃ c cs, p.chars = c :: cs ∧ (c = '(' → p = .mark .openParen) := by
  cases p with
  | space => exact ⟨' ', [], rfl, fun hc => absurd hc (by decide)⟩
  | mark m => exact ⟨m.char, [], rfl, fun hc => by cases m <;> first | rfl | cases hc⟩
  | word s =>
    rcases h with ⟨hs, -⟩ | ⟨hs, -⟩
    · obtain ⟨c, cs, hcs, hc, -⟩ := isName_spec hs
      exact ⟨c, cs, hcs, fun hopen => absurd (not_mem_of_isNameStart hc) (by rw [hopen]; decide)⟩
    · obtain ⟨c, cs, hcs, hall, -⟩ := isSymbol_spec hs
      have hc := (isOperatorChar_spec (hall c (by simp))).2.1
      exact ⟨c, cs, hcs, fun hopen => absurd hc (by rw [hopen]; decide)⟩
  | digits n =>
    obtain ⟨c, cs, hcs, hdigits⟩ := exists_toDigits n
    have hc : isDigit c = true := hdigits c (by simp)
    exact ⟨c, cs, hcs, fun hopen => absurd (not_mem_of_isDigit hc) (by rw [hopen]; decide)⟩
  | quote s => exact ⟨'"', _, rfl, fun hc => absurd hc (by decide)⟩

/-- Printed text starts with a parenthesis just if its pieces do. -/
theorem Written.opensParenthesis_iff {d : Int} {t : Term} {ps : List Piece}
    (h : Written coreRegistry d t ps) :
    opensParenthesis d t = true ↔ ps.head? = some (.mark .openParen) := by
  have hprint := h.printAt CoreTable.regular Buffer.empty
  have hstanding : Standing coreRegistry.operatorNames ps := by
    simpa using h.standing CoreTable.regular CoreTable.separates [] trivial rfl
  rw [opensParenthesis, hprint, beq_iff_eq]
  cases ps with
  | nil => simp [Printed.done, Buffer.empty, Buffer.add]
  | cons p ps =>
    obtain ⟨c, cs, hcs, hopen⟩ := Piece.chars_head hstanding.1
    simp only [Printed.done, Buffer.empty, Buffer.add, layout_cons, hcs]
    constructor
    · intro hc
      have hc : c = '(' := by simpa using hc
      simp [hopen hc]
    · intro hp
      obtain rfl : p = .mark .openParen := by simpa using hp
      cases hcs
      simp [Mark.char]

theorem Split.arguments {d : Int} {t : Term} {ts : List Token} {u : Tree}
    (h : Split file d t ts u) (rest : List Token) :
    Reads (coreParser file) (.arguments .closeParen) (h.inner ++ h.closing :: rest) [h.first]
      rest := by
  have hinside := h.inside rest
  refine .someArguments (fun hk => ?_) (.lastItem (by decide) h.closes hinside)
  simpa using (starts_of_reads hinside).2 _ hk

/-- More tokens behind text that starts with a parenthesis: those of an operator that goes on with
whatever stands before it. -/
def Split.behind {d e : Int} {t a : Term} {ts more : List Token} {u : Tree} {w : Tree → Tree}
    (s : Split file e a ts u) (hed : e ≤ d) (hp : coreRegistry.precedence t ≤ d)
    (hfollows : ∀ rest, Follows file e (more ++ rest))
    (hgo : ∀ {e : Int} {rest rest' : List Token} {lhs x : Tree}, d ≤ e → Follows file d rest →
      Reads (coreParser file) (.operators (w lhs) e) rest [x] rest' →
      Reads (coreParser file) (.operators lhs e) (more ++ rest) [x] rest')
    (hw : ∀ head, ∃ name args pos, (w head).term = .form name args pos ∧ name ≠ "Not") :
    Split file d t (ts ++ more) (w u) where
  opening := s.opening
  inner := s.inner
  closing := s.closing
  tail := s.tail ++ more
  first := s.first
  grow head := w (s.grow head)
  tokens := by simp [s.tokens]
  opens := s.opens
  closes := s.closes
  inside := s.inside
  whole := by rw [← s.whole]
  goesOn he hrest hmore := by
    rw [List.append_assoc]
    exact s.goesOn (by omega) (hfollows _) (hgo he hrest hmore)
  looser hlt := absurd hlt (by omega)
  outermost _ head := hw (s.grow head)

/-- That the pieces of an expression are read as it, split where they start with a parenthesis. -/
def Rereads (file : String) (d : Int) (t : Term) (ps : List Piece) : Prop :=
  ∀ ts, Spells ps ts → ∃ u, Reread file d t ts u ∧
    (ps.head? = some (.mark .openParen) → Nonempty (Split file d t ts u))

theorem Rereads.exists {d : Int} {t : Term} {ps : List Piece} (h : Rereads file d t ps)
    {ts : List Token} (hts : Spells ps ts) : ∃ u, Reread file d t ts u :=
  (h ts hts).imp fun _ hu => hu.1

theorem Rereads.readAs {t : Term} {ps : List Piece} (h : Rereads file loosest t ps) :
    ReadAs (coreParser file) (fun u t => u.term.sameStructure t = true ↔ Uncaptured t) t ps := by
  intro ts hts
  obtain ⟨u, hu⟩ := h.exists hts
  exact ⟨u, hu.same, fun hends =>
    hu.alone (Int.le_refl _) (follows_of_ends hends _ _) (hends.stops _ _)⟩

theorem head?_of_append {p : Piece} {ps qs : List Piece} (hqs : qs.head? ≠ some p)
    (h : (ps ++ qs).head? = some p) : ps.head? = some p := by
  cases ps with
  | nil => exact absurd h hqs
  | cons q ps => exact h

/-- The parentheses around an expression are what its text starts with. -/
theorem rereads_parens {d : Int} {t : Term} {ps : List Piece} (hd : d < coreRegistry.precedence t)
    (ih : Rereads file loosest t ps) :
    Rereads file d t (.mark .openParen :: (ps ++ [.mark .closeParen])) := by
  intro ts hts
  obtain ⟨t₁, ts₁, rfl, hopen, hts₁⟩ := spells_mark hts
  obtain ⟨inner, ts₂, rfl, hinner, hts₂⟩ := spells_append hts₁
  obtain ⟨t₂, ts₃, rfl, hclose, hts₃⟩ := spells_mark hts₂
  obtain rfl := spells_nil hts₃
  obtain ⟨u, hu⟩ := ih.exists hinner
  have hends := Token.ends_of_mark hclose (by decide)
  have hinside : ∀ rest, Reads (coreParser file) (.expression loosest) (inner ++ t₂ :: rest) [u]
      (t₂ :: rest) := fun rest =>
    hu.alone (Int.le_refl _) (follows_of_ends hends _ _) (hends.stops _ _)
  refine ⟨u, ⟨hu.same, fun {e rest rest' x} _ _ hmore => ?_⟩, fun _ => ⟨?_⟩⟩
  · simp only [List.cons_append, List.append_assoc, List.nil_append]
    exact .expression (.parens hopen hclose (hinside rest)) hmore
  · exact {
      opening := t₁, inner := inner, closing := t₂, tail := [], first := u, grow := id
      tokens := rfl, opens := hopen, closes := hclose, inside := hinside, whole := rfl
      goesOn := fun _ _ hmore => hmore
      looser := fun _ => ⟨rfl, fun _ => rfl⟩
      outermost := fun hle => absurd hd (by omega) }

theorem rereads_atom {d : Int} {name : String} {pos : Pos} (hname : isName name = true)
    (hop : coreRegistry.operator? .prefixed name = none) :
    Rereads file d (.atom name pos) [.word name] := by
  intro ts hts
  obtain ⟨t, ts', rfl, ht, hts'⟩ := spells_word hts
  obtain rfl := spells_nil hts'
  have hk := ht.kind_of_isName hname
  refine ⟨.leaf t, ⟨?_, fun {e rest rest' x} _ hrest hmore => ?_⟩, by simp⟩
  · simp [Tree.term, Token.term, hk, ht.value, Term.sameStructure, Term.matches?, Uncaptured.atom]
  · exact .expression (reads_atom ht hname hop hrest.notOpen) hmore

theorem rereads_numeral {d : Int} {n : Nat} {pos : Pos} :
    Rereads file d (.numeral (.int n) pos) [.digits n] := by
  intro ts hts
  obtain ⟨t, ts', rfl, ht, hts'⟩ := spells_cons rfl hts
  obtain rfl := spells_nil hts'
  have hk : t.kind = .number := congrArg Prod.fst ht
  have hv : t.value = .num (.int n) := congrArg Prod.snd ht
  refine ⟨.leaf t, ⟨?_, fun {e rest rest' x} _ _ hmore => ?_⟩, by simp⟩
  · simp [Tree.term, Token.term, hk, hv, Term.sameStructure, Term.matches?, Num.equal,
      Uncaptured.numeral]
  · exact .expression (.literal (.inl hk)) hmore

theorem rereads_text {d : Int} {s : String} {pos : Pos} :
    Rereads file d (.text s pos) [.quote s] := by
  intro ts hts
  obtain ⟨t, ts', rfl, ht, hts'⟩ := spells_cons rfl hts
  obtain rfl := spells_nil hts'
  have hk : t.kind = .string := congrArg Prod.fst ht
  have hv : t.value = .str s := congrArg Prod.snd ht
  refine ⟨.leaf t, ⟨?_, fun {e rest rest' x} _ _ hmore => ?_⟩, by simp⟩
  · simp [Tree.term, Token.term, hk, hv, Term.sameStructure, Term.matches?, Uncaptured.text]
  · exact .expression (.literal (.inr hk)) hmore

theorem rereads_list {d : Int} {args : List (Term × List Piece)} {pos : Pos}
    (ih : ∀ a ∈ args, Rereads file loosest a.1 a.2) :
    Rereads file d (.form "List" (args.map Prod.fst) pos)
      (.mark .openBrace :: (commas (args.map Prod.snd) ++ [.mark .closeBrace])) := by
  intro ts hts
  obtain ⟨t, us, hname, hsame, hreads⟩ := reads_list (fun a ha => (ih a ha).readAs) hts
  refine ⟨.form t us, ⟨?_, fun {e rest rest' x} _ _ hmore => ?_⟩, by simp⟩
  · rw [sameStructure_tree_iff hname hsame, uncaptured_form]
    simp
  · exact .expression (hreads rest).2 hmore

theorem rereads_call {d : Int} {name : String} {args : List (Term × List Piece)} {pos : Pos}
    (hop : coreRegistry.operatorOf? name args.length = none)
    (hbodied : coreRegistry.operator? .bodied name = none)
    (ih : ∀ a ∈ args, Rereads file loosest a.1 a.2) :
    Rereads file d (.form name (args.map Prod.fst) pos)
      (.word name :: .mark .openParen :: (commas (args.map Prod.snd) ++ [.mark .closeParen])) := by
  intro ts hts
  obtain ⟨t, us, hname, hsame, hreads⟩ :=
    reads_call hop hbodied (fun a ha => (ih a ha).readAs) hts
  refine ⟨.form t us, ⟨?_, fun {e rest rest' x} _ _ hmore => ?_⟩, by simp⟩
  · rw [sameStructure_tree_iff hname hsame, uncaptured_form, iff_self_and]
    -- a call of `Not` has not one argument
    intro _ hnot a ha
    rw [hnot] at hop
    have hone : args.length = 1 := by simpa using congrArg List.length ha
    exact absurd ((Registry.operatorOf?_eq_none hop).1 hone) CoreTable.operator?_prefixed_not
  · exact .expression (hreads rest).2 hmore

theorem rereads_infixed {d : Int} {op : Operator} {a b : Term} {ps qs : List Piece} {pos : Pos}
    (hm : op ∈ coreRegistry.operators) (hf : op.fixity = .infixed)
    (hop : coreRegistry.operatorOf? op.name 2 = some op) (hd : op.precedence ≤ d)
    (iha : Rereads file op.precedence a ps) (ihb : Rereads file (op.precedence - 1) b qs) :
    Rereads file d (.form op.name [a, b] pos) (ps ++ .space :: .word op.name :: .space :: qs) := by
  intro ts hts
  obtain ⟨ts₁, ts₂, rfl, hts₁, hts₂⟩ := spells_append hts
  obtain ⟨t, ts₃, rfl, ht, hts₃⟩ := spells_word (spells_space hts₂)
  obtain ⟨ua, hua, hsplit⟩ := iha ts₁ hts₁
  obtain ⟨ub, hub⟩ := ihb.exists (spells_space hts₃)
  have hnot := CoreTable.name_ne_not hm (.inl hf)
  have hfollows : ∀ ts, Follows file op.precedence (t :: ts) := follows_of_operator hm (.inl hf) ht
  -- whatever stands before the operator, it goes on with that
  have hgo : ∀ {e : Int} {rest rest' : List Token} {lhs x : Tree}, d ≤ e → Follows file d rest →
      Reads (coreParser file) (.operators (.form t [lhs, ub]) e) rest [x] rest' →
      Reads (coreParser file) (.operators lhs e) (t :: ts₃ ++ rest) [x] rest' := by
    intro e rest rest' lhs x he hrest hmore
    have hstop := hrest.stops_of_lt (e := op.precedence - 1) (by omega)
    exact reads_infixed hm hf ht (by omega)
      (hub.alone (Int.le_refl _) (follows_of_stops hstop hrest.notOpen) hstop) hmore
  refine ⟨.form t [ua, ub], ⟨?_, fun {e rest rest' x} he hrest hmore => ?_⟩, fun hhead => ?_⟩
  · rw [sameStructure_tree_iff ht.operatorName_eq (.cons hua.same (.cons hub.same .nil)),
      uncaptured_form]
    simp [hnot]
  · rw [List.append_assoc]
    exact hua.reads (by omega) (hfollows _) (hgo he hrest hmore)
  · obtain ⟨s⟩ := hsplit (head?_of_append (by simp) hhead)
    have hp : coreRegistry.precedence (.form op.name [a, b] pos) ≤ d := by rwa [precedence_form hop]
    exact ⟨s.behind (w := fun head => .form t [head, ub]) hd hp (fun _ => hfollows _) hgo
      fun head => ⟨_, _, _, rfl, by rwa [ht.operatorName_eq]⟩⟩

/-- An operand in parentheses, as that of a prefix symbol: the operators behind the parentheses
belong to the operand. -/
theorem rereads_symbolPrefix {d : Int} {op : Operator} {a : Term} {pos : Pos} {t : Token}
    {ts : List Token} {ua : Tree} (hm : op ∈ coreRegistry.operators) (hf : op.fixity = .prefixed)
    (ht : t.Names op.name) (hd : op.precedence ≤ d) (hname : op.name = "-")
    (hua : Reread file op.precedence a ts ua) (s : Split file op.precedence a ts ua) :
    Reread file d (.form op.name [a] pos) (t :: ts) (.form t [ua]) := by
  have hoperator : t.kind = .operator := ht.kind_of_not_isName (by rw [hname]; decide)
  have hop : (coreParser file).operatorAt? .prefixed t = some op := by
    rw [Parser.operatorAt?_of_spelling ht.spelling?_eq, ← hf]
    exact CoreTable.operator?_of_mem hm
  refine ⟨?_, fun {e rest rest' x} he hrest hmore => ?_⟩
  · rw [sameStructure_tree_iff ht.operatorName_eq (.cons hua.same .nil), uncaptured_form]
    simp [hname]
  · have hstop := hrest.stops_of_operand hm (.inl hf) hd
    have hoperand : Reads (coreParser file) (.operators s.first op.precedence) (s.tail ++ rest) [ua]
        rest := by
      refine s.goesOn (Int.le_refl _) (follows_of_stops hstop hrest.notOpen) ?_
      rw [← s.whole]
      exact .stop hstop
    have harguments := s.arguments (s.tail ++ rest)
    simp only [s.tokens, List.cons_append, List.append_assoc]
    exact .expression (.symbolPrefix ht.spelledByList_eq hoperator s.opens hop
      (CoreTable.contains_of_mem hm) harguments hoperand) hmore

/-- An operand in parentheses behind a prefix name: that is a call, and what stands behind the
parentheses goes on with the call. -/
theorem rereads_namePrefix {d : Int} {op : Operator} {a : Term} {pos : Pos} {t : Token}
    {ts : List Token} {ua : Tree} (hm : op ∈ coreRegistry.operators)
    (hf : op.fixity = .prefixed) (ht : t.Names op.name) (hd : op.precedence ≤ d)
    (hname : op.name = "Not") (hprec : op.precedence = 100) (hopens : opensParenthesis 100 a = true)
    (hua : Reread file op.precedence a ts ua) (s : Split file op.precedence a ts ua) :
    Reread file d (.form op.name [a] pos) (t :: ts) (s.grow (.form t [s.first])) := by
  have hk : t.kind = .atom := ht.kind_of_isName (by rw [hname]; decide)
  have hbodied : (coreParser file).operatorAt? .bodied t = none := by
    rw [Parser.operatorAt?_of_spelling ht.spelling?_eq]
    exact CoreTable.operator?_bodied_of_prefixed hm hf
  refine ⟨?_, fun {e rest rest' x} he hrest hmore => ?_⟩
  · by_cases hloose : op.precedence < coreRegistry.precedence a
    · -- the operand is in the parentheses as a whole, and nothing grows behind the call
      obtain ⟨-, hgrow⟩ := s.looser hloose
      have hfirst : s.first = ua := (hgrow s.first).symm.trans s.whole.symm
      rw [hgrow, hfirst, sameStructure_tree_iff ht.operatorName_eq (.cons hua.same .nil),
        uncaptured_form]
      rw [hprec] at hloose
      simp [hloose]
    · -- the outermost operator stands behind the call, so the form is not that of `Not`
      obtain ⟨name, args, pos', hterm, hne⟩ := s.outermost (by omega) (.form t [s.first])
      rw [hterm, Term.sameStructure_form, uncaptured_form]
      constructor
      · rintro ⟨heq, -⟩
        exact absurd (heq.trans hname) hne
      · rintro ⟨-, hkeeps⟩
        exact absurd (hkeeps hname a rfl hopens) (by omega)
  · have hstop := hrest.stops_of_operand hm (.inl hf) hd
    have harguments := s.arguments (s.tail ++ rest)
    simp only [s.tokens, List.cons_append, List.append_assoc]
    exact .expression (.call ht.spelledByList_eq hk s.opens hbodied harguments)
      (s.goesOn (by omega) (follows_of_stops hstop hrest.notOpen) hmore)

theorem rereads_prefixed {d : Int} {op : Operator} {a : Term} {ps : List Piece} {pos : Pos}
    (hm : op ∈ coreRegistry.operators) (hf : op.fixity = .prefixed) (hd : op.precedence ≤ d)
    (hw : Written coreRegistry op.precedence a ps) (ih : Rereads file op.precedence a ps) :
    Rereads file d (.form op.name [a] pos) (.word op.name :: (gap op.name ps ++ ps)) := by
  intro ts hts
  obtain ⟨t, ts₁, rfl, ht, hts₁⟩ := spells_word hts
  have hts₁ := spells_gap hts₁
  obtain ⟨ua, hua, hsplit⟩ := ih ts₁ hts₁
  by_cases hhead : ps.head? = some (.mark .openParen)
  · -- a symbol takes the parentheses as the start of its operand, a name as its arguments
    obtain ⟨s⟩ := hsplit hhead
    rcases CoreTable.name_of_prefixed hm hf with hname | ⟨hname, hprec⟩
    · exact ⟨_, rereads_symbolPrefix hm hf ht hd hname hua s, by simp⟩
    · have hopens := hw.opensParenthesis_iff.2 hhead
      rw [hprec] at hopens
      exact ⟨_, rereads_namePrefix hm hf ht hd hname hprec hopens hua s, by simp⟩
  · have hop : (coreParser file).operatorAt? .prefixed t = some op := by
      rw [Parser.operatorAt?_of_spelling ht.spelling?_eq, ← hf]
      exact CoreTable.operator?_of_mem hm
    refine ⟨.form t [ua], ⟨?_, fun {e rest rest' x} he hrest hmore => ?_⟩, by simp⟩
    · rw [sameStructure_tree_iff ht.operatorName_eq (.cons hua.same .nil), uncaptured_form]
      have hcloses : op.precedence = 100 → opensParenthesis 100 a = false := fun hprec => by
        rw [← hprec, ← Bool.not_eq_true]
        exact fun hopens => hhead (hw.opensParenthesis_iff.1 hopens)
      rcases CoreTable.name_of_prefixed hm hf with hname | ⟨hname, hprec⟩
      · simp [hname]
      · simp [hcloses hprec]
    · have hstop := hrest.stops_of_operand hm (.inl hf) hd
      have hnot := mt (hw.current_iff hts₁ rest).1 hhead
      exact .expression (.prefixed ht.spelledByList_eq hop hnot (CoreTable.contains_of_mem hm)
        (hua.alone (Int.le_refl _) (follows_of_stops hstop hrest.notOpen) hstop)) hmore

theorem rereads_postfixed {d : Int} {op : Operator} {a : Term} {ps : List Piece} {pos : Pos}
    (hm : op ∈ coreRegistry.operators) (hf : op.fixity = .postfixed)
    (hop : coreRegistry.operatorOf? op.name 1 = some op) (hd : op.precedence ≤ d)
    (ih : Rereads file op.precedence a ps) :
    Rereads file d (.form op.name [a] pos) (ps ++ [.word op.name]) := by
  intro ts hts
  obtain ⟨ts₁, ts₂, rfl, hts₁, hts₂⟩ := spells_append hts
  obtain ⟨t, ts₃, rfl, ht, hts₃⟩ := spells_word hts₂
  obtain rfl := spells_nil hts₃
  obtain ⟨ua, hua, hsplit⟩ := ih ts₁ hts₁
  have hnot := CoreTable.name_ne_not hm (.inr hf)
  have hfollows : ∀ ts, Follows file op.precedence (t :: ts) := follows_of_operator hm (.inr hf) ht
  have hgo : ∀ {e : Int} {rest rest' : List Token} {lhs x : Tree}, d ≤ e → Follows file d rest →
      Reads (coreParser file) (.operators (.form t [lhs]) e) rest [x] rest' →
      Reads (coreParser file) (.operators lhs e) ([t] ++ rest) [x] rest' :=
    fun he _ hmore => reads_postfixed hm hf ht (by omega) hmore
  refine ⟨.form t [ua], ⟨?_, fun {e rest rest' x} he hrest hmore => ?_⟩, fun hhead => ?_⟩
  · rw [sameStructure_tree_iff ht.operatorName_eq (.cons hua.same .nil), uncaptured_form]
    simp [hnot]
  · rw [List.append_assoc]
    exact hua.reads (by omega) (hfollows _) (hgo he hrest hmore)
  · obtain ⟨s⟩ := hsplit (head?_of_append (by simp) hhead)
    have hp : coreRegistry.precedence (.form op.name [a] pos) ≤ d := by rwa [precedence_form hop]
    exact ⟨s.behind (w := fun head => .form t [head]) hd hp (fun _ => hfollows _) hgo
      fun head => ⟨_, _, _, rfl, by rwa [ht.operatorName_eq]⟩⟩

theorem rereads_bodied {d : Int} {op : Operator} {args : List (Term × List Piece)} {body : Term}
    {ps : List Piece} {pos : Pos} (hm : op ∈ coreRegistry.operators) (hf : op.fixity = .bodied)
    (hd : op.precedence ≤ d) (ih : ∀ a ∈ args, Rereads file loosest a.1 a.2)
    (ihBody : Rereads file op.precedence body ps) :
    Rereads file d (.form op.name (args.map Prod.fst ++ [body]) pos)
      (.word op.name :: .mark .openParen ::
        (commas (args.map Prod.snd) ++ .mark .closeParen :: .space :: ps)) := by
  intro ts hts
  obtain ⟨t, ts₀, rfl, ht, hts₀⟩ := spells_word hts
  obtain ⟨t₁, ts₁, rfl, hopen, hts₁⟩ := spells_mark hts₀
  obtain ⟨inner, ts₂, rfl, hinner, hts₂⟩ := spells_append hts₁
  obtain ⟨t₂, ts₃, rfl, hclose, hts₃⟩ := spells_mark hts₂
  obtain ⟨us, hsame, hreads⟩ := reads_arguments (fun a ha => (ih a ha).readAs) hinner
  obtain ⟨ub, hub⟩ := ihBody.exists (spells_space hts₃)
  have hname := CoreTable.name_of_bodied hm hf
  have hk : t.kind = .atom := ht.kind_of_isName (by rw [hname]; decide)
  have hop : (coreParser file).operatorAt? .bodied t = some op := by
    rw [Parser.operatorAt?_of_spelling ht.spelling?_eq, ← hf]
    exact CoreTable.operator?_of_mem hm
  refine ⟨.form t (us ++ [ub]), ⟨?_, fun {e rest rest' x} he hrest hmore => ?_⟩, by simp⟩
  · rw [sameStructure_tree_iff ht.operatorName_eq (List.rel_append hsame (.cons hub.same .nil)),
      uncaptured_form]
    simp [hname]
  · have hstop := hrest.stops_of_operand hm (.inr hf) hd
    simp only [List.cons_append, List.append_assoc]
    exact .expression (.bodied ht.spelledByList_eq hk hopen hop (CoreTable.contains_of_mem hm)
      (hreads (.inl rfl) hclose)
      (hub.alone (Int.le_refl _) (follows_of_stops hstop hrest.notOpen) hstop)) hmore

/-- **Printed text is read as an expression that is the same one just if no `Not` is captured.** -/
theorem Written.rereads {d : Int} {t : Term} {ps : List Piece}
    (h : Written coreRegistry d t ps) (file : String) : Rereads file d t ps := by
  induction h with
  | parens hd _ ih => exact rereads_parens hd ih
  | atom _ hname hop => exact rereads_atom hname hop
  | numeral => exact rereads_numeral
  | text => exact rereads_text
  | list _ _ ih => exact rereads_list ih
  | call _ _ _ hop hbodied _ ih => exact rereads_call hop hbodied ih
  | infixed hop hf hd _ _ iha ihb =>
    exact rereads_infixed (Registry.operatorOf?_eq_some hop).1 hf hop hd iha ihb
  | prefixed hop hf hd hw ih =>
    exact rereads_prefixed (Registry.operatorOf?_eq_some hop).1 hf hd hw ih
  | postfixed hop hf hd _ ih =>
    exact rereads_postfixed (Registry.operatorOf?_eq_some hop).1 hf hop hd ih
  | bodied hop hf hd _ _ ih ihBody =>
    exact rereads_bodied (Registry.operatorOf?_eq_some hop).1 hf hd ih ihBody

/-- **Printed text is parsed**, as one statement, and as the same expression just if no `Not` is
captured. -/
theorem Written.parse_layout {t : Term} {ps : List Piece} (h : Written coreRegistry loosest t ps)
    (file : String) : ∃ u, (coreParser file).parse (String.ofList (layout ps)) = .ok [u] ∧
      (u.sameStructure t = true ↔ Uncaptured t) := by
  obtain ⟨u, hparse, hsame⟩ :=
    (h.rereads file).readAs.parse_layout CoreTable.regular CoreTable.separates h
  exact ⟨u.term, hparse, hsame⟩

/-- A legible expression has a text, which is parsed so. -/
theorem Legible.reprint {t : Term} (h : Legible t) (file : String) :
    ∃ text u, coreRegistry.textOf t = .ok text ∧ (coreParser file).parse text = .ok [u] ∧
      (u.sameStructure t = true ↔ Uncaptured t) := by
  obtain ⟨ps, hps⟩ := h.written loosest
  obtain ⟨u, hu⟩ := hps.parse_layout file
  exact ⟨_, u, (hps.printAt CoreTable.regular).textOf, hu⟩

end TermCalc
