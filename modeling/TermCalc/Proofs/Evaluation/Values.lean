import TermCalc.Proofs.Session.Statements
import TermCalc.Proofs.Syntax.Joining
import TermCalc.Proofs.Syntax.RoundTrip

/-!
# Printed values evaluate to themselves

The text of a value is a source. It need not be read as the expression that the value was converted
to before it was printed: a negative number is printed as one literal and read as a negation.

* `Plain`: integers that can be written, strings, truth values, and lists of these.
* `Denotes`: the expressions that such a value is read from.
* `Plain.renders`: how a value is printed, and an expression of it with the same text.
* `Denotes.of_sameStructure`: what is parsed as such an expression is one.
* `Denotes.yields`: **it evaluates to the value**, whatever the globals are, and has no effect.
* `Session.evaluate_parse_format`: so the text of a value, evaluated in a session, gives the value.
-/

namespace TermCalc

/-- **The values that have a source.** -/
inductive Plain : Term → Prop
  | truth {b : Bool} : Plain (.truth b)
  | integer {z : Int} : z.natAbs < Num.digitBound → Plain (.num (.int z))
  | string {s : String} : Plain (.str s)
  | list {items : List Term} : (∀ v ∈ items, Plain v) → Plain (.list items)

/-- **The expressions that a value is read from.** -/
inductive Denotes : Term → Term → Prop
  | truth {b : Bool} {pos : Pos} : Denotes (.atom (Term.truthName b) pos) (.truth b)
  | natural {n : Nat} {pos : Pos} : Denotes (.numeral (.int n) pos) (.num (.int n))
  | negative {n : Nat} {pos pos' : Pos} :
      Denotes (.form "-" [.numeral (.int n) pos] pos') (.num (.int (-n)))
  | string {s : String} {pos : Pos} : Denotes (.text s pos) (.str s)
  | list {items : List (Term × Term)} {pos : Pos} : (∀ x ∈ items, Denotes x.1 x.2) →
      Denotes (.form "List" (items.map Prod.fst) pos) (.list (items.map Prod.snd))

attribute [local irreducible] coreRegistry

/-! ### How values are printed -/

/-- What a value is converted to, what its text is read as, and the pieces of the text. -/
structure Rendering where
  converted : Term
  read : Term
  pieces : List Piece

/-- **How a value is printed.** What it is converted to has the text of an expression of it. -/
structure Renders (v : Term) (x : Rendering) : Prop where
  converts : v.toExpr? = some x.converted
  prints : Prints coreRegistry loosest x.converted x.pieces
  written : Written coreRegistry loosest x.read x.pieces
  uncaptured : Uncaptured x.read
  denotes : Denotes x.read v

theorem CoreTable.operatorOf?_sign :
    coreRegistry.operatorOf? "-" 1 = some ⟨.prefixed, 50, "-", 4⟩ := by
  simp only [Registry.operatorOf?, Registry.operator?, CoreTable.operators_eq]
  decide

/-- No space stands between a sign and a number. -/
theorem gap_sign (n : Nat) : gap "-" [.digits n] = [] := by
  obtain ⟨c, cs, hcs, hdigits⟩ := exists_toDigits n
  have hdigit : isDigit c = true := hdigits c (by simp)
  have hc : isOperatorChar c = false := by
    rw [← Bool.not_eq_true]
    intro hoperator
    obtain ⟨-, -, -, hno, -⟩ := isOperatorChar_spec hoperator
    rw [hno] at hdigit
    cases hdigit
  have hminus : isAlphanumeric '-' = false := by decide
  simp [gap, Registry.needsSpace, hminus, Piece.chars, hcs, hc]

theorem prints_integer {z : Int} (hz : z.natAbs < Num.digitBound) (hneg : z < 0) :
    Prints coreRegistry loosest (.numeral (.int z) .none) [.word "-", .digits z.natAbs] := by
  intro s
  have hw : (Num.int z).writable = true := by simpa [Num.writable, Num.intWritable] using hz
  rw [Registry.printAt, enclosed_of_le (CoreTable.regular.precedence_bounds _).1]
  simp [hw, Num.text, Num.chars, Num.intText, hneg, Piece.chars]

theorem renders_integer {z : Int} (hz : z.natAbs < Num.digitBound) :
    ∃ x, Renders (.num (.int z)) x := by
  by_cases hneg : z < 0
  · -- the text is that of the negation of the number without its sign
    have hread : Written coreRegistry 50 (.numeral (.int z.natAbs) .none) [.digits z.natAbs] :=
      .numeral (by decide) hz
    have hwritten := @Written.prefixed coreRegistry loosest ⟨.prefixed, 50, "-", 4⟩ _ _ .none
      CoreTable.operatorOf?_sign rfl (by decide) hread
    rw [gap_sign] at hwritten
    have hvalue : z = -(z.natAbs : Int) := by omega
    refine ⟨⟨_, _, _⟩, rfl, prints_integer hz hneg, hwritten, ?_, ?_⟩
    · simp [uncaptured_form, Uncaptured.numeral]
    · have hdenotes : Denotes (.form "-" [.numeral (.int z.natAbs) .none] .none)
          (.num (.int (-z.natAbs))) := .negative
      rwa [← hvalue] at hdenotes
  · obtain ⟨n, rfl⟩ := Int.eq_ofNat_of_zero_le (Int.not_lt.1 hneg)
    have hwritten : Written coreRegistry loosest (.numeral (.int n) .none) [.digits n] :=
      .numeral (by decide) (by simpa using hz)
    exact ⟨⟨_, _, _⟩, rfl, hwritten.printAt CoreTable.regular, hwritten, .numeral, .natural⟩

theorem toExprs?_map {α : Type} {f g : α → Term} {items : List α}
    (h : ∀ x ∈ items, (f x).toExpr? = some (g x)) :
    Term.toExprs? (items.map f) = some (items.map g) := by
  induction items with
  | nil => rfl
  | cons x items ih =>
    have hx := h x (by simp)
    have hitems := ih fun y hy => h y (by simp [hy])
    simp [Term.toExprs?, hx, hitems]

theorem renders_list {items : List (Term × Rendering)} (h : ∀ x ∈ items, Renders x.1 x.2) :
    Renders (.list (items.map Prod.fst)) ⟨.form "List" (items.map fun x => x.2.converted) .none,
      .form "List" (items.map fun x => x.2.read) .none,
      .mark .openBrace :: (commas (items.map fun x => x.2.pieces) ++ [.mark .closeBrace])⟩ := by
  have hprints : ∀ a ∈ items.map fun x => (x.2.converted, x.2.pieces),
      Prints coreRegistry loosest a.1 a.2 :=
    List.forall_mem_map.2 fun x hx => (h x hx).prints
  have hwritten : ∀ a ∈ items.map fun x => (x.2.read, x.2.pieces),
      Written coreRegistry loosest a.1 a.2 :=
    List.forall_mem_map.2 fun x hx => (h x hx).written
  have hdenotes : ∀ a ∈ items.map fun x => (x.2.read, x.1), Denotes a.1 a.2 :=
    List.forall_mem_map.2 fun x hx => (h x hx).denotes
  refine ⟨?_, ?_, ?_, ?_, ?_⟩
  · have hconverts : Term.toExprs? (items.map Prod.fst) =
        some (items.map fun x => x.2.converted) := toExprs?_map fun x hx => (h x hx).converts
    rw [Term.toExpr?, hconverts]
    rfl
  · have hlist := @prints_list coreRegistry CoreTable.regular loosest _ .none (by decide) hprints
    rwa [List.map_map, List.map_map] at hlist
  · have hlist := @Written.list coreRegistry loosest _ .none (by decide) hwritten
    rwa [List.map_map, List.map_map] at hlist
  · rw [uncaptured_form, List.forall_mem_map]
    exact ⟨fun x hx => (h x hx).uncaptured, fun hname => absurd hname (by decide)⟩
  · have hlist := @Denotes.list _ .none hdenotes
    rwa [List.map_map, List.map_map] at hlist

/-- **Every value is printed**, and its text is that of an expression of it. -/
theorem Plain.renders {v : Term} (h : Plain v) : ∃ x, Renders v x := by
  induction h with
  | @truth b =>
    have hwritten : Written coreRegistry loosest (.atom (Term.truthName b) .none)
        [.word (Term.truthName b)] :=
      .atom (by decide) (by cases b <;> decide)
        (CoreTable.operator?_prefixed_of_isName (by cases b <;> decide) (by cases b <;> decide))
    exact ⟨⟨_, _, _⟩, rfl, hwritten.printAt CoreTable.regular, hwritten, .atom, .truth⟩
  | integer hz => exact renders_integer hz
  | @string s =>
    have hwritten : Written coreRegistry loosest (.text s .none) [.quote s] := .text (by decide)
    exact ⟨⟨_, _, _⟩, rfl, hwritten.printAt CoreTable.regular, hwritten, .text, .string⟩
  | list _ ih =>
    obtain ⟨items, rfl, hitems⟩ := exists_pairs ih
    exact ⟨_, renders_list hitems⟩

/-! ### What the text is parsed as -/

/-- What is parsed as the items of a list, along with the values that the items are read from. -/
theorem exists_denoted {ys : List Term} {items : List (Term × Term)}
    (h : List.Forall₂ (fun y a => y.sameStructure a = true) ys (items.map Prod.fst))
    (hlegible : ∀ y ∈ ys, Legible y)
    (ih : ∀ x ∈ items, ∀ u, Legible u → u.sameStructure x.1 = true → Denotes u x.2) :
    ∃ xs : List (Term × Term), xs.map Prod.fst = ys ∧ xs.map Prod.snd = items.map Prod.snd ∧
      ∀ x ∈ xs, Denotes x.1 x.2 := by
  induction items generalizing ys with
  | nil =>
    cases h
    exact ⟨[], rfl, rfl, by simp⟩
  | cons x items ihItems =>
    obtain _ | ⟨hy, hys⟩ := h
    rename_i y ys
    obtain ⟨xs, rfl, hvalues, hxs⟩ := ihItems hys (fun y hy => hlegible y (by simp [hy]))
      fun x hx => ih x (by simp [hx])
    have hdenotes := ih x (by simp) y (hlegible y (by simp)) hy
    refine ⟨(y, x.2) :: xs, rfl, by simp [hvalues], ?_⟩
    simpa using ⟨hdenotes, fun a b h => hxs (a, b) h⟩

theorem Legible.eq_numeral {u : Term} {n : Nat} {pos : Pos} (h : Legible u)
    (hsame : u.sameStructure (.numeral (.int n) pos) = true) :
    ∃ pos', u = .numeral (.int n) pos' := by
  cases h with
  | @numeral m pos' _ =>
    have hm : (m : Int) = n := by
      simpa [Term.sameStructure, Term.matches?, Num.equal] using hsame
    obtain rfl := Int.ofNat.inj hm
    exact ⟨pos', rfl⟩
  | _ => simp [Term.sameStructure, Term.matches?] at hsame

theorem Legible.eq_form {u : Term} {name : String} {args : List Term} {pos : Pos} (h : Legible u)
    (hsame : u.sameStructure (.form name args pos) = true) :
    ∃ ys pos', u = .form name ys pos' ∧ (∀ y ∈ ys, Legible y) ∧
      List.Forall₂ (fun y a => y.sameStructure a = true) ys args := by
  cases h with
  | @form _ ys pos' _ _ hys =>
    obtain ⟨rfl, hargs⟩ := Term.sameStructure_form.1 hsame
    exact ⟨ys, pos', rfl, hys, hargs⟩
  | _ => simp [Term.sameStructure, Term.matches?] at hsame

/-- **What is parsed as an expression of a value is one**: its numbers are integers, and nothing
else is left open by equality. -/
theorem Denotes.of_sameStructure {e v u : Term} (h : Denotes e v) (hlegible : Legible u)
    (hsame : u.sameStructure e = true) : Denotes u v := by
  induction h generalizing u with
  | truth =>
    cases hlegible with
    | atom =>
      obtain rfl := by simpa [Term.sameStructure, Term.matches?] using hsame
      exact .truth
    | _ => simp [Term.sameStructure, Term.matches?] at hsame
  | natural =>
    obtain ⟨pos, rfl⟩ := hlegible.eq_numeral hsame
    exact .natural
  | negative =>
    obtain ⟨ys, pos, rfl, hys, hargs⟩ := hlegible.eq_form hsame
    obtain _ | ⟨hy, hnil⟩ := hargs
    cases hnil
    obtain ⟨pos', rfl⟩ := (hys _ (by simp)).eq_numeral hy
    exact .negative
  | string =>
    cases hlegible with
    | text =>
      obtain rfl := by simpa [Term.sameStructure, Term.matches?] using hsame
      exact .string
    | _ => simp [Term.sameStructure, Term.matches?] at hsame
  | list _ ih =>
    obtain ⟨ys, pos, rfl, hys, hargs⟩ := hlegible.eq_form hsame
    obtain ⟨xs, rfl, hvalues, hxs⟩ := exists_denoted hargs hys fun x hx u => ih x hx
    rw [← hvalues]
    exact .list hxs

/-! ### What it evaluates to -/

/-- **An expression evaluates to a value**, given enough fuel, in every world and without changing
it. -/
def Yields (e v : Term) : Prop :=
  ∃ n, ∀ fuel, n ≤ fuel → ∀ w, coreRegistry.evaluateDirect fuel e w = .value v w

theorem yields_of_once {e v : Term}
    (h : ∀ fuel w, coreRegistry.evaluateDirect (fuel + 1) e w = .value v w) : Yields e v := by
  refine ⟨1, fun fuel hfuel w => ?_⟩
  obtain ⟨m, rfl⟩ := Nat.exists_eq_add_of_le' hfuel
  exact h m w

/-- Enough fuel for every item. -/
theorem exists_fuel {items : List (Term × Term)} (h : ∀ x ∈ items, Yields x.1 x.2) :
    ∃ n, ∀ fuel, n ≤ fuel → ∀ x ∈ items, ∀ w,
      coreRegistry.evaluateDirect fuel x.1 w = .value x.2 w := by
  induction items with
  | nil => exact ⟨0, by simp⟩
  | cons x items ih =>
    obtain ⟨n, hn⟩ := h x (by simp)
    obtain ⟨m, hm⟩ := ih fun y hy => h y (by simp [hy])
    refine ⟨max n m, fun fuel hfuel y hy => ?_⟩
    rcases List.mem_cons.1 hy with rfl | hy
    · exact hn fuel (by omega)
    · exact hm fuel (by omega) y hy

theorem operandValues_of_values {ev : Evaluator World} {items : List (Term × Term)} {w : World}
    (h : ∀ x ∈ items, ∀ w, ev x.1 w = .value x.2 w) :
    Registry.operandValues ev false (items.map Prod.fst) w = .value (items.map Prod.snd) w := by
  induction items with
  | nil => rfl
  | cons x items ih =>
    have hx := h x (by simp) w
    have hitems := ih fun y hy => h y (by simp [hy])
    simp only [List.map_cons, Registry.operandValues, Bool.false_eq_true, if_false,
      Action.bind_apply, hx, Outcome.andThen, hitems, Action.pure_apply]

/-- Operands that evaluate to values are handed to the builtin that is called. -/
theorem yields_form {name : String} {entry : Entry} {p : Primitive} {items : List (Term × Term)}
    {pos : Pos} {v : Term} (he : coreRegistry.lookup name = some entry)
    (hp : entry.implementation = .primitive p) (hholds : entry.flags.holds = false)
    (ha : entry.accepts items.length = true)
    (hrun : ∀ fuel (ev : Evaluator World) w,
      p.run coreRegistry fuel ev (items.map Prod.snd) w = .value v w)
    (h : ∀ x ∈ items, Yields x.1 x.2) : Yields (.form name (items.map Prod.fst) pos) v := by
  obtain ⟨n, hn⟩ := exists_fuel h
  refine ⟨n + 1, fun fuel hfuel w => ?_⟩
  obtain ⟨m, rfl⟩ := Nat.exists_eq_add_of_le' hfuel
  have hvalues := operandValues_of_values (w := w) (hn (m + n) (by omega))
  have haccepts : entry.accepts (items.map Prod.fst).length = true := by simpa using ha
  show coreRegistry.applyDirect (m + n) (coreRegistry.evaluateDirect (m + n)) name _ w = _
  rw [coreRegistry.applyDirect_accepted (m + n) he hp haccepts, hholds]
  dsimp only
  rw [hvalues]
  exact hrun _ _ _

/-- **An expression of a value evaluates to the value.** -/
theorem Denotes.yields {e v : Term} (h : Denotes e v) : Yields e v := by
  induction h with
  | @truth b pos => exact yields_of_once fun fuel w => by cases b <;> rfl
  | natural => exact yields_of_once fun fuel w => rfl
  | string => exact yields_of_once fun fuel w => rfl
  | @negative n pos pos' =>
    have hoperand : Yields (.numeral (.int n) pos) (.num (.int n)) :=
      yields_of_once fun fuel w => rfl
    exact @yields_form _ _ _ [(_, .num (.int n))] _ _ CoreTable.lookup_minus rfl rfl rfl
      (fun _ _ _ => rfl) (by simpa using hoperand)
  | @list items pos _ ih =>
    exact yields_form CoreTable.lookup_list rfl rfl (by simp [Entry.accepts, Flags.atLeast])
      (fun _ _ _ => rfl) ih

/-! ### In a session -/

namespace Session

variable {s : Session}

/-- Evaluating one expression, where that does not change the machine, changes nothing but the
notes. -/
theorem evaluateAll_of_value {fuel : Nat} {e v : Term} (he : Term.allWritable [e] = true)
    (h : s.registry.evaluate fuel e s.machine = .value v s.machine) :
    ∃ notes, evaluateAll fuel [e] s = .value v { s with notes := notes } := by
  obtain ⟨notes, hnotes⟩ := evaluateAll_singleton he fuel s
  exact ⟨notes, by simp only [hnotes, onMachine, h]⟩

end Session

/-- **Printed values evaluate back.** On the core table the text of a value, parsed and evaluated
with enough fuel, gives the value, in whatever state the session is, and leaves the globals, the
output and the stack as they were. -/
theorem Session.evaluate_parse_format {v : Term} (hv : Plain v) {s : Session}
    (hs : s.registry = coreRegistry) (file : String) :
    ∃ text, Session.format s.registry v = .ok text ∧ ∃ n, ∀ fuel, n ≤ fuel → ∃ notes,
      (Session.parse text file >>= Session.evaluateAll fuel) s =
        .value v { s with notes := notes } := by
  obtain ⟨x, hx⟩ := hv.renders
  obtain ⟨u, hparse, hsame⟩ := hx.written.parse_layout file
  have hlegible := hx.written.legible_of_parse hparse
  -- the parser may put it at other places, but those make no difference to its value
  obtain ⟨n, hn⟩ := (hx.denotes.of_sameStructure hlegible (hsame.2 hx.uncaptured)).yields
  refine ⟨String.ofList (layout x.pieces), ?_, n, fun fuel hfuel => ?_⟩
  · rw [Session.format, hx.converts, hs]
    exact hx.prints.textOf
  · have hparsed :
        (Parser.mk s.registry file).parse (String.ofList (layout x.pieces)) = .ok [u] := by
      rw [hs]
      exact hparse
    obtain ⟨notes, hnotes⟩ := Session.parse_of_ok hparsed
    have hvalue : s.registry.evaluate fuel u s.machine = .value v s.machine := by
      have hprimitives := Registry.build_callsPrimitives build_coreDeclarations
      have hmachine := coreRegistry.evaluate_stackless hprimitives fuel u s.machine.stack
        s.machine.world
      rw [hs]
      rw [hn fuel hfuel] at hmachine
      exact hmachine
    obtain ⟨notes', hnotes'⟩ := @Session.evaluateAll_of_value { s with notes := notes } _ _ _
      (Parser.allWritable_of_parse hparse) hvalue
    refine ⟨notes', ?_⟩
    rw [Action.bind_apply, hnotes]
    exact hnotes'

/-- A value of every kind, in a session that has given values to atoms and written text. -/
theorem Session.evaluate_parse_format_nested :
    let v : Term := .list [.num (.int (-3)), .truth true, .list [.num (.int 1), .str "x"]]
    let s : Session := ⟨coreRegistry,
      ⟨.empty, ⟨⟨[("True", .num (.int 1)), ("x", .truth false)]⟩, ⟨"out", 3⟩, 0⟩⟩, true, []⟩
    Plain v ∧ s.registry = coreRegistry ∧
      ∃ text, Session.format s.registry v = .ok text ∧ ∃ n, ∀ fuel, n ≤ fuel → ∃ notes,
        (Session.parse text "" >>= Session.evaluateAll fuel) s =
          .value v { s with notes := notes } := by
  intro v s
  have hinner : Plain (.list [.num (.int 1), .str "x"]) :=
    .list (by simp [Plain.string, Plain.integer (z := 1) (Num.lt_digitBound (by decide))])
  have hv : Plain v :=
    .list (by simp [hinner, Plain.truth, Plain.integer (z := -3) (Num.lt_digitBound (by decide))])
  exact ⟨hv, rfl, Session.evaluate_parse_format hv rfl ""⟩

end TermCalc
