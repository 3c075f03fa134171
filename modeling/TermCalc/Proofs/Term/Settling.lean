import TermCalc.Proofs.Term.Printing
import TermCalc.Term.Visiting

/-!
# What the recursion of printing comes to

Printing as a recursion, where a node in parentheses is visited again, is compared with printing
that goes straight on to its arguments. A visit at the loosest depth leads to smaller terms only,
unless its operator is looser still; a visit at any other depth leads to smaller terms, or to the
same one at the loosest depth. So of two visits, one inside the other, at least one goes down the
tree, and fuel for twice the height of a term is enough.

* `Tells`, `Settles`: with fuel from some amount on, visits all end alike, and as printing does.
* `Registry.operands_of_operatorOf?`: operators find the operands that their fixity asks for.
* `Registry.settles_visit`: **printing by visits is printing.**
* `Registry.visit_exhausted_iff`: no fuel suffices exactly where printing reports parentheses
  without end.
-/

namespace TermCalc

theorem Printed.andThen_done {σ : Type} (p : Printed σ) : p.andThen .done = p := by
  rcases p with ⟨s, _ | e⟩ <;> rfl

theorem Registry.printPrefixed_done {σ : Type} [Output σ] (op : Operator) (operand : Buffer)
    (s : σ) : printPrefixed op (.done operand) s =
      match op.name.toList.getLast? with
      | none => .fail (Output.write s op.name) .noSuchIndex
      | some last =>
        if needsSpace last operand.text.toList
        then .done (Output.write (Output.put (Output.write s op.name) ' ') operand.text)
        else .done (Output.write (Output.write s op.name) operand.text) := by
  unfold printPrefixed
  cases op.name.toList.getLast? with
  | none => rfl
  | some last => exact apply_ite (fun s => Printed.done (Output.write s operand.text)) _ _ _

section

variable {σ : Type}

/-- **An outcome of visits agrees with what is printed.** Where fuel never suffices, printing
reports parentheses without end. -/
def Tells (o : Outcome (Tour σ) Unit) (p : Printed σ) : Prop :=
  match o with
  | .value _ tour => p = .done tour.output
  | .failure e tour => p = .fail tour.output e ∧ e ≠ .endlessParentheses
  | .exhausted => p.failure = some .endlessParentheses

theorem Tells.andThen {o : Outcome (Tour σ) Unit} {p : Printed σ} {f : Action (Tour σ) Unit}
    {more : σ → Printed σ} (h : Tells o p) (hf : ∀ tour, Tells (f tour) (more tour.output)) :
    Tells (o.andThen fun _ => f) (p.andThen more) := by
  cases o with
  | value a tour =>
    obtain rfl : p = .done tour.output := h
    exact hf tour
  | failure e tour =>
    obtain ⟨rfl, he⟩ : p = .fail tour.output e ∧ e ≠ .endlessParentheses := h
    exact ⟨rfl, he⟩
  | exhausted =>
    obtain ⟨s, failure⟩ := p
    obtain rfl : failure = some .endlessParentheses := h
    rfl

/-- **Visits settle** at what is printed: with fuel from `n` on they all end alike, and agree with
it. -/
def Settles (n : Nat) (run : Nat → Action (Tour σ) Unit) (print : σ → Printed σ) : Prop :=
  ∃ act, (∀ fuel, n ≤ fuel → run fuel = act) ∧ ∀ tour, Tells (act tour) (print tour.output)

namespace Settles

variable {n m : Nat} {f g : Nat → Action (Tour σ) Unit} {p q : σ → Printed σ}

theorem mono (h : Settles n f p) (hle : n ≤ m) : Settles m f p := by
  obtain ⟨act, hact, htells⟩ := h
  exact ⟨act, fun fuel hfuel => hact fuel (Nat.le_trans hle hfuel), htells⟩

theorem congr (h : Settles n f p) (heq : ∀ s, q s = p s) : Settles n f q := by
  obtain rfl : q = p := funext heq
  exact h

/-- What a visit comes to is what it does with one fuel less. -/
theorem succ (h : Settles n f p) (hrun : ∀ fuel, g (fuel + 1) = f fuel) : Settles (n + 1) g p := by
  obtain ⟨act, hact, htells⟩ := h
  refine ⟨act, fun fuel hfuel => ?_, htells⟩
  obtain ⟨k, rfl⟩ : ∃ k, fuel = k + 1 := ⟨fuel - 1, by omega⟩
  rw [hrun, hact k (by omega)]

theorem nothing : Settles n (fun _ => (pure () : Action (Tour σ) Unit)) .done :=
  ⟨_, fun _ _ => rfl, fun _ => rfl⟩

theorem enter (path : Path) : Settles n (fun _ => Tour.enter path) (.done : σ → Printed σ) :=
  ⟨_, fun _ _ => rfl, fun _ => rfl⟩

theorem change (c : σ → σ) : Settles n (fun _ => Tour.change c) fun s => .done (c s) :=
  ⟨_, fun _ _ => rfl, fun _ => rfl⟩

theorem fail {e : Failure} (he : e ≠ .endlessParentheses) :
    Settles n (fun _ => (Action.fail e : Action (Tour σ) Unit)) fun s => .fail s e :=
  ⟨_, fun _ _ => rfl, fun _ => ⟨rfl, he⟩⟩

theorem seq (hf : Settles n f p) (hg : Settles n g q) :
    Settles n (fun fuel => f fuel >>= fun _ => g fuel) fun s => (p s).andThen q := by
  obtain ⟨act, hact, htells⟩ := hf
  obtain ⟨act', hact', htells'⟩ := hg
  refine ⟨act >>= fun _ => act', fun fuel hfuel => ?_, fun tour => (htells tour).andThen htells'⟩
  simp only [hact fuel hfuel, hact' fuel hfuel]

/-- Visits end where printing does. -/
theorem exists_value (h : Settles n f p) (tour : Tour σ) {s : σ}
    (hprint : p tour.output = .done s) :
    ∃ visited, ∀ fuel, n ≤ fuel → f fuel tour = .value () ⟨s, visited⟩ := by
  obtain ⟨act, hact, htells⟩ := h
  have hend := htells tour
  rw [hprint] at hend
  cases hrun : act tour with
  | value a last =>
    rw [hrun] at hend
    obtain rfl : s = last.output := congrArg Printed.output hend
    exact ⟨last.visited, fun fuel hfuel => by rw [hact fuel hfuel, hrun]⟩
  | failure e last =>
    rw [hrun] at hend
    exact nomatch congrArg Printed.failure hend.1
  | exhausted =>
    rw [hrun] at hend
    cases hend

/-- No fuel suffices exactly where printing reports parentheses without end. -/
theorem exhausted_iff (h : Settles n f p) (tour : Tour σ) :
    (∀ fuel, n ≤ fuel → f fuel tour = .exhausted) ↔
      (p tour.output).failure = some .endlessParentheses := by
  obtain ⟨act, hact, htells⟩ := h
  have hend := htells tour
  have hrun : (∀ fuel, n ≤ fuel → f fuel tour = .exhausted) ↔ act tour = .exhausted :=
    ⟨fun h => by rw [← hact n (Nat.le_refl n), h n (Nat.le_refl n)],
      fun h fuel hfuel => by rw [hact fuel hfuel, h]⟩
  rw [hrun]
  cases hrun : act tour with
  | exhausted =>
    rw [hrun] at hend
    exact ⟨fun _ => hend, fun _ => rfl⟩
  | value a last =>
    rw [hrun] at hend
    have hprint : p tour.output = .done last.output := hend
    rw [hprint]
    exact ⟨nofun, nofun⟩
  | failure e last =>
    rw [hrun] at hend
    obtain ⟨hprint, he⟩ : p tour.output = .fail last.output e ∧ _ := hend
    rw [hprint]
    exact ⟨nofun, fun h => absurd (Option.some.inj h) he⟩

variable [Output σ]

theorem put (c : Char) : Settles n (fun _ => Tour.put c) fun s : σ => .done (Output.put s c) :=
  change _

theorem write (text : String) :
    Settles n (fun _ => Tour.write text) fun s : σ => .done (Output.write s text) :=
  change _

/-- An operand is printed to a buffer of its own, and then behind its prefix operator. -/
theorem prefixed {run : Nat → Action (Tour Buffer) Unit} {print : Buffer → Printed Buffer}
    (h : Settles n run print) (op : Operator) :
    Settles n (fun fuel => Tour.write op.name >>= fun _ => Tour.behindPrefix op (run fuel))
      fun s : σ => Registry.printPrefixed op (print Buffer.empty) s := by
  obtain ⟨act, hact, htells⟩ := h
  refine ⟨Tour.write op.name >>= fun _ => Tour.behindPrefix op act,
    fun fuel hfuel => by simp only [hact fuel hfuel], fun tour => ?_⟩
  have hoperand := htells ⟨Buffer.empty, tour.visited⟩
  simp only [Tour.behindPrefix, Tour.write, Tour.change, Action.bind_apply, Action.modify,
    Outcome.andThen, Tour.aside]
  cases hinner : act ⟨Buffer.empty, tour.visited⟩ with
  | value a inner =>
    rw [hinner] at hoperand
    have hprint : print Buffer.empty = .done inner.output := hoperand
    rw [hprint, Registry.printPrefixed_done]
    cases op.name.toList.getLast? with
    | none => exact ⟨rfl, nofun⟩
    | some last =>
      dsimp only
      split <;> rfl
  | failure e inner =>
    rw [hinner] at hoperand
    obtain ⟨hprint, he⟩ : print Buffer.empty = .fail inner.output e ∧ e ≠ .endlessParentheses :=
      hoperand
    rw [hprint]
    exact ⟨rfl, he⟩
  | exhausted =>
    rw [hinner] at hoperand
    have hprint : (print Buffer.empty).failure = some .endlessParentheses := hoperand
    unfold Registry.printPrefixed
    dsimp only
    rw [hprint]
    rfl

end Settles

end

namespace Registry

variable {r : Registry}

/-- **An operator finds the operands that its fixity asks for.** -/
theorem operands_of_operatorOf? {name : String} {args : List Term} {op : Operator}
    (h : r.operatorOf? name args.length = some op) :
    (op.fixity = .infixed ∧ ∃ lhs rhs, args = [lhs, rhs]) ∨
      (op.fixity = .prefixed ∧ ∃ operand, args = [operand]) ∨
      (op.fixity = .postfixed ∧ ∃ operand, args = [operand]) ∨
      (op.fixity = .bodied ∧ ∃ init last, args = init ++ [last]) := by
  obtain ⟨-, -, hcases⟩ := operatorOf?_eq_some h
  rcases hcases with ⟨hf, hn⟩ | ⟨hf, hn⟩ | ⟨hf, hn, -⟩ | ⟨hf, hn⟩
  · exact .inl ⟨hf, List.length_eq_two.mp hn⟩
  · exact .inr (.inl ⟨hf, List.length_eq_one_iff.mp hn⟩)
  · exact .inr (.inr (.inl ⟨hf, List.length_eq_one_iff.mp hn⟩))
  · have hne : args ≠ [] := List.ne_nil_of_length_pos hn
    exact .inr (.inr (.inr ⟨hf, args.dropLast, args.getLast hne,
      (List.dropLast_append_getLast hne).symm⟩))

section

variable {σ : Type} [Output σ]

/-- What a visit comes to where the node has no parentheses. -/
theorem visit_bare (r : Registry) (fuel : Nat) (path : Path) {depth : Int} {t : Term}
    (h : ¬depth < r.precedence t) : (r.visit (fuel + 1) path depth t : Action (Tour σ) Unit) =
      Tour.enter path >>= fun _ => r.visitNode (r.visit fuel) path t := by
  rw [visit, visitOnce, if_neg h]

theorem visit_parenthesized (r : Registry) (fuel : Nat) (path : Path) {depth : Int} {t : Term}
    (h : depth < r.precedence t) : (r.visit (fuel + 1) path depth t : Action (Tour σ) Unit) =
      Tour.enter path >>= fun _ => Tour.put '(' >>= fun _ => r.visit fuel path loosest t >>=
        fun _ => Tour.put ')' := by
  rw [visit, visitOnce, if_pos h]

end

/-- What is looser than the loosest is visited again without end. -/
theorem visit_endless {t : Term} (h : loosest < r.precedence t) {σ : Type} [Output σ] (fuel : Nat)
    (path : Path) {depth : Int} (hdepth : depth < r.precedence t) (tour : Tour σ) :
    r.visit fuel path depth t tour = .exhausted := by
  induction fuel generalizing depth tour with
  | zero => rfl
  | succ fuel ih =>
    rw [visit_parenthesized r fuel path hdepth]
    simp only [Action.bind_apply, Tour.enter, Tour.put, Tour.change, Action.modify, Outcome.andThen,
      ih h]

variable {σ : Type} [Output σ] {n : Nat}

/-- A visit settles where the node without parentheses does. -/
theorem settles_enclosed {t : Term} {path : Path} {depth : Int} {body : σ → Printed σ}
    (hprint : ∀ s : σ, r.printAt depth t s = enclosed depth (r.precedence t) body s)
    (h : Settles n (fun fuel => r.visitNode (r.visit fuel) path t) body) :
    Settles (n + 2) (fun fuel => r.visit (σ := σ) fuel path depth t) (r.printAt depth t) := by
  have hbare {d : Int} (hd : ¬d < r.precedence t) :
      Settles (n + 1) (fun fuel => r.visit fuel path d t) body :=
    ((Settles.enter path).seq h).succ fun fuel => visit_bare r fuel path hd
  by_cases hdepth : depth < r.precedence t
  · by_cases hloose : loosest < r.precedence t
    -- the visit inside is at the loosest depth: it asks for parentheses again, without end, or not
    · refine ⟨fun _ => .exhausted, fun fuel _ => ?_, fun tour => ?_⟩
      · exact funext (r.visit_endless hloose fuel path hdepth)
      · rw [hprint, enclosed, if_pos hdepth, if_pos hloose]
        rfl
    · have hinner := (Settles.put '(').seq ((hbare hloose).seq (.put ')'))
      have hvisit : Settles (n + 2) (fun fuel => r.visit fuel path depth t) _ :=
        ((Settles.enter path).seq hinner).succ fun fuel => visit_parenthesized r fuel path hdepth
      refine hvisit.congr fun s => ?_
      rw [hprint, enclosed, if_pos hdepth, if_neg hloose]
      rfl
  · refine ((hbare hdepth).mono (by omega)).congr fun s => ?_
    rw [hprint, enclosed, if_neg hdepth]

/-- Print arguments that are the first ones, or that stand behind others. -/
def printRest (r : Registry) (first : Bool) (ts : List Term) (s : σ) : Printed σ :=
  match ts with
  | [] => .done s
  | _ :: _ => r.printList ts (if first then s else Output.write s ", ")

theorem printRest_cons (first : Bool) (t : Term) (ts : List Term) (s : σ) :
    r.printRest first (t :: ts) s =
      (r.printAt loosest t (if first then s else Output.write s ", ")).andThen
        (r.printRest false ts) := by
  cases ts with
  | nil =>
    rw [printRest, printList]
    exact (Printed.andThen_done _).symm
  | cons u us =>
    rw [printRest, printList, Printed.write, Printed.andThen_assoc]
    rfl

/-- The arguments of a bodied operator are all but the last, and then the last. -/
theorem printBodied_concat (depth : Int) (first : Bool) (init : List Term) (last : Term) (s : σ) :
    r.printBodied depth first (init ++ [last]) s =
      (r.printRest first init s).andThen fun s => r.printAt depth last (Output.write s ") ") := by
  induction init generalizing first s with
  | nil => rw [List.nil_append, printBodied]; rfl
  | cons t ts ih =>
    have hcons : r.printBodied depth first (t :: (ts ++ [last])) s =
        (r.printAt loosest t (if first then s else Output.write s ", ")).andThen
          (r.printBodied depth false (ts ++ [last])) := by
      cases ts with
      | nil => rw [List.nil_append, printBodied]
      | cons u us => rw [List.cons_append, printBodied]
    rw [List.cons_append, hcons, funext (ih false), printRest_cons, Printed.andThen_assoc]

variable {ts : List Term}

/-- **Every visit of these nodes settles**, on any output. -/
def SettleAll (r : Registry) (n : Nat) (ts : List Term) : Prop :=
  ∀ t ∈ ts, ∀ {σ : Type} [Output σ] (path : Path) (depth : Int),
    Settles n (fun fuel => r.visit (σ := σ) fuel path depth t) (r.printAt depth t)

theorem settles_arguments (h : r.SettleAll n ts) (path : Path) (i : Nat) :
    Settles n (fun fuel => visitArguments (r.visit fuel) path i ts)
      (r.printRest (σ := σ) (i == 0) ts) := by
  induction ts generalizing i with
  | nil => exact Settles.nothing
  | cons t ts ih =>
    have hrest := ih (fun u hu => h u (List.mem_cons_of_mem t hu)) (i + 1)
    have ht := (h t List.mem_cons_self (σ := σ) (path ++ [i]) loosest).seq hrest
    cases i with
    | zero => exact ht.congr fun s => printRest_cons true t ts s
    | succ i =>
      refine ((Settles.write ", ").seq ht).congr fun s => ?_
      exact printRest_cons false t ts s

theorem printRest_true (ts : List Term) (s : σ) : r.printRest true ts s = r.printList ts s := by
  cases ts with
  | nil => rw [printRest, printList]
  | cons t ts => rfl

theorem settles_printList (h : r.SettleAll n ts) (path : Path) :
    Settles n (fun fuel => visitArguments (r.visit fuel) path 0 ts) (r.printList (σ := σ) ts) :=
  (settles_arguments h path 0).congr fun s => (printRest_true ts s).symm

/-- A form settles where its arguments do. -/
theorem settles_form {name : String} {args : List Term} {pos : Pos} (h : r.SettleAll n args)
    (path : Path) (depth : Int) :
    Settles (n + 2) (fun fuel => r.visit (σ := σ) fuel path depth (.form name args pos))
      (r.printAt depth (.form name args pos)) := by
  refine settles_enclosed (fun s => by rw [printAt]) ?_
  by_cases hlist : (name == "List") = true
  · simp only [visitNode, if_pos hlist]
    exact (Settles.put '\x7b').seq ((settles_printList h path).seq (.put '\x7d'))
  simp only [visitNode, if_neg hlist]
  cases hop : r.operatorOf? name args.length with
  | none =>
    exact (Settles.write name).seq
      ((Settles.put '(').seq ((settles_printList h path).seq (.put ')')))
  | some op =>
    rcases operands_of_operatorOf? hop with
      ⟨hf, lhs, rhs, rfl⟩ | ⟨hf, operand, rfl⟩ | ⟨hf, operand, rfl⟩ | ⟨hf, init, last, rfl⟩
    · simp only [visitOperands, hf]
      have hlhs := h lhs (by simp) (σ := σ) (path ++ [0]) op.precedence
      have hrhs := h rhs (by simp) (σ := σ) (path ++ [1]) (op.precedence - 1)
      exact (hlhs.seq ((Settles.write (" " ++ op.name ++ " ")).seq hrhs)).congr fun s =>
        Printed.andThen_assoc _ _ _
    · simp only [visitOperands, hf]
      exact (h operand (by simp) (path ++ [0]) op.precedence).prefixed op
    · simp only [visitOperands, hf]
      have hoperand := h operand (by simp) (σ := σ) (path ++ [0]) op.precedence
      exact hoperand.seq (.write op.name)
    · simp only [visitOperands, hf, List.dropLast_concat, List.getLast?_concat, printBodied_concat]
      have hinit : r.SettleAll n init := fun t ht => h t (List.mem_append_left _ ht)
      have hlast := h last (by simp) (σ := σ) (path ++ [(init ++ [last]).length - 1]) op.precedence
      exact (Settles.write op.name).seq ((Settles.put '(').seq
        ((settles_arguments hinit path 0).seq ((Settles.write ") ").seq hlast)))

mutual

/-- **Printing by visits is printing**: with fuel for two visits of every node above one another,
what visits come to is what is printed. -/
theorem settles_visit (r : Registry) (t : Term) {σ : Type} [Output σ] (path : Path) (depth : Int) :
    Settles (2 * t.height) (fun fuel => r.visit (σ := σ) fuel path depth t)
      (r.printAt depth t) := by
  cases t with
  | form name args pos =>
    rw [Term.height, Nat.mul_add]
    exact settles_form (settles_all r args) path depth
  | numeral m pos =>
    refine settles_enclosed (n := 0) (fun s => by rw [printAt]) ?_
    by_cases hm : m.writable = true
    · simp only [visitNode, if_pos hm]
      exact Settles.write m.text
    · simp only [visitNode, if_neg hm]
      exact Settles.fail nofun
  | text content pos =>
    refine settles_enclosed (n := 0) (fun s => by rw [printAt]) ?_
    exact (Settles.put '"').seq ((Settles.change (writeEscaped · content)).seq (.put '"'))
  | atom name pos =>
    exact settles_enclosed (n := 0) (fun s => by rw [printAt]) (Settles.write name)
  | nothing | truth | num | str | list =>
    refine settles_enclosed (n := 0) (fun s => by rw [printAt]) (Settles.fail ?_)
    nofun

theorem settles_all (r : Registry) (ts : List Term) :
    r.SettleAll (2 * Term.heightOfList ts) ts := by
  match ts with
  | [] => exact fun _ ht => nomatch ht
  | t :: ts =>
    intro u hu σ _ path depth
    rw [Term.heightOfList]
    rcases List.mem_cons.mp hu with heq | hu
    · rw [heq]
      exact (settles_visit r t path depth).mono (by omega)
    · exact (settles_all r ts u hu path depth).mono (by omega)

end

/-- **No fuel suffices exactly where printing reports parentheses without end.** -/
theorem visit_exhausted_iff (r : Registry) (t : Term) (path : Path) (depth : Int) (tour : Tour σ) :
    (∀ fuel, 2 * t.height ≤ fuel → r.visit fuel path depth t tour = .exhausted) ↔
      (r.printAt depth t tour.output).failure = some .endlessParentheses :=
  (settles_visit r t path depth).exhausted_iff tour

end Registry

end TermCalc
