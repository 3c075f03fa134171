import TermCalc.Proofs.Evaluation.Computing

/-!
# The failures of evaluation

What an evaluation can fail with. Reading, declaring and the keeping of the stack have failures of
their own; where every name calls a primitive, none of those comes out of an evaluation.

* `Failure.ofEvaluation`: the failures of the primitives and of calls that reach none.
* `Confined`, `Action.Confined`: results and actions that fail in no other way.
* `Primitive.confined_compute?`, `Registry.confined_printAt`: so do primitives without effects, and
  printing.
* `confinement`, `laws_confinement`: worlds and terms are related to themselves alone, and the parts
  of an evaluation keep that and are confined.
* `Primitive.confined_run`: **every primitive is confined** if evaluation of its arguments is.
* `Registry.confined_evaluateDirect`: **so is evaluation without a stack.**
-/

namespace TermCalc

/-- **The failures that an evaluation can end in.** -/
def Failure.ofEvaluation : Failure → Bool
  | unknownName _ | wrongArity _ | divisionByZero | noRealPower _ _ | powerOverflow _ _
  | argument _ | notExpression _ | notPrintable _ | tooManyDigits | overflow | cannotUnpack
  | noSuchIndex | bareValue | endlessParentheses => true
  | _ => false

theorem Failure.ofEvaluation_reported {e : Failure} (h : e.ofEvaluation = true) :
    e.reported.ofEvaluation = true := holds_reported (·.ofEvaluation = true) h rfl

/-- A result that is no failure but one of evaluation. -/
def Confined {α : Type} (x : Except Failure α) : Prop :=
  ∀ e, x = .error e → e.ofEvaluation = true

theorem admits_ofEvaluation : Failure.Admits fun e => e.ofEvaluation = true where
  argument _ := Failure.ofEvaluation_reported rfl
  divisionByZero := rfl
  noRealPower _ _ := Failure.ofEvaluation_reported rfl
  powerOverflow _ _ := Failure.ofEvaluation_reported rfl

/-- **A primitive without effects is confined.** -/
theorem Primitive.confined_compute? {p : Primitive} {compute : List Term → Computed}
    (h : p.compute? = some compute) (args : List Term) : Confined (compute args) := by
  have hwithin := Primitive.within_compute? admits_ofEvaluation Term.closed_true h
    (fun t (_ : t ∈ args) => trivial) (fun _ => rfl) (fun _ _ _ _ _ => rfl) (fun _ => rfl)
  intro e he
  rw [he] at hwithin
  exact hwithin

namespace Action

/-- An action that fails in no way but those of evaluation. -/
def Confined {σ α : Type} (x : Action σ α) : Prop :=
  ∀ s e s', x s = .failure e s' → e.ofEvaluation = true

end Action

/-! ### Printing -/

namespace Printed

variable {τ : Type}

/-- Printing that is ended by no failure but one of evaluation. -/
def Confined (p : Printed τ) : Prop := ∀ e, p.failure = some e → e.ofEvaluation = true

namespace Confined

theorem done (s : τ) : (Printed.done s).Confined := fun _ h => by cases h

theorem fail (s : τ) {e : Failure} (h : e.ofEvaluation = true) : (Printed.fail s e).Confined :=
  fun _ he => by cases he; exact h

theorem andThen {p : Printed τ} {more : τ → Printed τ} (hp : p.Confined)
    (hmore : ∀ s, (more s).Confined) : (p.andThen more).Confined := by
  obtain ⟨s, _ | e⟩ := p
  · exact hmore s
  · exact hp

variable [Output τ]

theorem put {p : Printed τ} (hp : p.Confined) (c : Char) : (p.put c).Confined :=
  hp.andThen fun _ => done _

theorem write {p : Printed τ} (hp : p.Confined) (text : String) : (p.write text).Confined :=
  hp.andThen fun _ => done _

theorem enclosed {d precedence : Int} {body : τ → Printed τ} (hbody : ∀ s, (body s).Confined)
    (s : τ) : (Registry.enclosed d precedence body s).Confined := by
  unfold Registry.enclosed
  split
  · split
    · exact fail _ rfl
    · exact (hbody _).put _
  · exact hbody s

theorem printPrefixed {op : Operator} {operand : Printed Buffer} (h : operand.Confined) (s : τ) :
    (Registry.printPrefixed op operand s).Confined := by
  unfold Registry.printPrefixed
  dsimp only
  split
  · rename_i e he
    exact fail _ (h e he)
  · exact fail _ rfl
  · exact done _

end Confined

end Printed

namespace Registry

variable (r : Registry)

mutual

/-- **Printing is confined**: it fails at a value that is no expression, at a number that is too
long, and at an operator that cannot be printed. -/
theorem confined_printAt {τ : Type} [Output τ] (d : Int) (t : Term) (s : τ) :
    (r.printAt d t s).Confined := by
  rw [printAt]
  refine .enclosed (fun s => ?_) s
  cases t with
  | numeral n pos =>
    dsimp only
    split
    · exact .done _
    · exact .fail _ rfl
  | text content pos => exact .done _
  | atom name pos => exact .done _
  | form name args pos =>
    dsimp only
    split
    · exact (confined_printList args _).put _
    · split
      · exact (confined_printList args _).put _
      · rename_i op _
        split
        · rename_i lhs rhs _ _
          exact ((confined_printAt op.precedence lhs s).write _).andThen fun s =>
            confined_printAt _ rhs s
        · rename_i operand _ _
          exact .printPrefixed (confined_printAt op.precedence operand Buffer.empty) s
        · rename_i operand _ _
          exact (confined_printAt op.precedence operand s).write _
        · exact confined_printBodied op.precedence true _ _
  | nothing | truth | num | str | list => exact .fail _ rfl

theorem confined_printList {τ : Type} [Output τ] (ts : List Term) (s : τ) :
    (r.printList ts s).Confined := by
  match ts with
  | [] => rw [printList]; exact .done s
  | [t] => rw [printList]; exact confined_printAt loosest t s
  | t :: u :: rest =>
    rw [printList]
    exact ((confined_printAt loosest t s).write _).andThen (confined_printList (u :: rest))

theorem confined_printBodied {τ : Type} [Output τ] (d : Int) (first : Bool) (ts : List Term)
    (s : τ) : (r.printBodied d first ts s).Confined := by
  match ts with
  | [] => rw [printBodied]; exact .done s
  | [t] => rw [printBodied]; exact confined_printAt d t _
  | t :: u :: rest =>
    rw [printBodied]
    exact (confined_printAt loosest t _).andThen (confined_printBodied d false (u :: rest))

end

end Registry

/-! ### Primitives and calls -/

/-- **Every world and every term** is related to itself alone. -/
def confinement : Lockstep := ⟨Eq, Eq, fun e => e.ofEvaluation = true⟩

theorem keeps_iff_confined {x : Action World Term} : confinement.Keeps Eq x x ↔ x.Confined := by
  constructor
  · intro h w e w' hw
    exact (h w w rfl).2 e w' hw
  · rintro h w _ rfl
    refine ⟨?_, h w⟩
    cases x w with
    | value v w' => exact .value rfl rfl
    | failure e w' => exact .failure e rfl
    | exhausted => exact .exhausted

section

variable {r : Registry} (hr : r.CallsPrimitives)
include hr

/-- **The parts of an evaluation are confined.** -/
theorem laws_confinement : confinement.Laws r r where
  alike h := h ▸ .refl _
  truth _ := rfl
  number h := by cases h; rfl
  string h := by cases h; rfl
  args h := by cases h; exact List.forall₂_same.2 fun _ _ => rfl
  atomValue hw _ _ _ h := by cases hw; cases h; rfl
  assign hw _ _ _ h := by cases hw; cases h; rfl
  write hw _ := by cases hw; rfl
  adopt hw _ := by cases hw; exact ⟨rfl, rfl⟩
  expr _ _ := rfl
  print {t _ e _} h ht hu w _ hw := by
    cases hw
    cases h
    cases ht.symm.trans hu
    exact ⟨rfl, r.confined_printAt loosest e w.output, rfl⟩
  compute hp _ _ h _ := by
    obtain rfl := (congrFun₂ List.forall₂_eq_eq_eq _ _).mp h
    exact ⟨.of_eq (fun _ => rfl) rfl, Primitive.confined_compute? hp _⟩
  lookup _ := rfl
  callsPrimitives := hr
  takes _ _ _ _ _ := ⟨rfl, rfl⟩
  unknownName _ := rfl
  wrongArity _ := rfl
  tooManyDigits := rfl
  argument _ := Failure.ofEvaluation_reported rfl

/-- **Every primitive is confined** if evaluation of its arguments is. -/
theorem Primitive.confined_run {ev : Evaluator World} (hev : ∀ t, (ev t).Confined) (fuel : Nat)
    (p : Primitive) (args : List Term) : (p.run r fuel ev args).Confined := by
  have hargs : List.Forall₂ confinement.terms args args := List.forall₂_same.2 fun _ _ => rfl
  refine keeps_iff_confined.1 ((laws_confinement hr).run ?_ fuel p hargs fun _ => ⟨rfl, rfl⟩)
  rintro t _ rfl
  exact keeps_iff_confined.2 (hev t)

/-- **Evaluation without a stack is confined** where every name calls a primitive. -/
theorem Registry.confined_evaluateDirect (fuel : Nat) (t : Term) :
    (r.evaluateDirect fuel t).Confined :=
  keeps_iff_confined.1 ((laws_confinement hr).evaluateDirect fuel rfl)

end

end TermCalc
