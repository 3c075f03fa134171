import TermCalc.Proofs.Evaluation.Lockstep

/-!
# Evaluation is blind to places

Two evaluations of expressions that differ only in the places of what is definite, in worlds that
differ only so, end alike.

* `Primitive.results_compute?`: primitives without effects are blind to places.
* `World.Alike`: worlds in which the same matters.
* `Action.Agree`: what two computations have in common that differ only so. The failures are the
  same.
* `blindness`, `laws_blindness`: the relation, and that it is kept by the parts of an evaluation.
* `Registry.blind_evaluateDirect`: **evaluation without a stack is blind to places.**
-/

namespace TermCalc

open Term (Alike)

/-! ### Primitives without effects -/

section

variable {t u : Term}

theorem numberArg_eq (op : String) (h : t.Alike u) : numberArg op t = numberArg op u :=
  Alike.apply_eq (fun t => by cases t <;> rfl) h

theorem integerArg_eq (op : String) (h : t.Alike u) : integerArg op t = integerArg op u :=
  Alike.apply_eq (fun t => by cases t <;> rfl) h

theorem equality_eq {t' u' : Term} (h : t.Alike u) (h' : t'.Alike u') :
    equality t t' = equality u u' := by
  rw [equality, equality, h.equal? h']

end

section

variable {args args' : List Term} (h : List.Forall₂ Alike args args')
include h

theorem results_one : Results Alike (one args) (one args') := by
  match h with
  | .nil => exact .error _
  | .cons ha .nil => exact .ok ha
  | .cons _ (.cons _ _) => exact .error _

theorem results_two :
    Results (fun x y => x.1.Alike y.1 ∧ x.2.Alike y.2) (two args) (two args') := by
  match h with
  | .nil => exact .error _
  | .cons _ .nil => exact .error _
  | .cons ha (.cons hb .nil) => exact .ok ⟨ha, hb⟩
  | .cons _ (.cons _ (.cons _ _)) => exact .error _

theorem results_three :
    Results (fun x y => x.1.Alike y.1 ∧ x.2.1.Alike y.2.1 ∧ x.2.2.Alike y.2.2) (three args)
      (three args') := by
  match h with
  | .nil => exact .error _
  | .cons _ .nil => exact .error _
  | .cons _ (.cons _ .nil) => exact .error _
  | .cons ha (.cons hb (.cons hc .nil)) => exact .ok ⟨ha, hb, hc⟩
  | .cons _ (.cons _ (.cons _ (.cons _ _))) => exact .error _

theorem twoNumbers_eq (op : String) : twoNumbers op args = twoNumbers op args' :=
  (results_two h).bind_eq fun _ _ hab => by
    simp only [numberArg_eq op hab.1, numberArg_eq op hab.2]

theorem arithmetic_eq (op : String) (f : Num → Num → Option Num) :
    arithmetic op f args = arithmetic op f args' := by
  rw [arithmetic, arithmetic, twoNumbers_eq h op]

theorem comparison_eq (op : String) (f : Num → Num → Bool) :
    comparison op f args = comparison op f args' := by
  rw [comparison, comparison, twoNumbers_eq h op]

theorem unary_eq (op : String) (f : Num → Num) : unary op f args = unary op f args' :=
  (results_one h).bind_eq fun _ _ ha => by rw [numberArg_eq op ha]

theorem difference_eq : difference args = difference args' := by
  match h with
  | .nil => rfl
  | .cons ha .nil => exact unary_eq (.cons ha .nil) _ _
  | .cons ha (.cons hb hrest) => exact arithmetic_eq (.cons ha (.cons hb hrest)) _ _

theorem quotient_eq : quotient args = quotient args' := by
  rw [quotient, quotient, twoNumbers_eq h]

theorem powerOf_eq : powerOf args = powerOf args' := by
  rw [powerOf, powerOf, twoNumbers_eq h]

theorem factorialOf_eq : factorialOf args = factorialOf args' :=
  (results_one h).bind_eq fun _ _ ha => by rw [integerArg_eq _ ha]

theorem lengthOf_eq : lengthOf args = lengthOf args' := by
  match h with
  | .nil => rfl
  | .cons ha .nil =>
    refine Alike.apply_eq (f := fun t => lengthOf [t]) (fun t => ?_) ha
    cases t with
    | list items =>
      show (.ok (.num (.int (Term.unplacedAll items).length)) : Computed) =
        .ok (.num (.int items.length))
      rw [Term.unplacedAll_eq_map, List.length_map]
    | _ => rfl
  | .cons _ (.cons _ _) => rfl

theorem mapM_stringArg_eq (op : String) :
    args.mapM (stringArg op) = args'.mapM (stringArg op) := by
  induction h with
  | nil => rfl
  | cons ha _ ih => rw [List.mapM_cons, List.mapM_cons, stringArg_eq op ha, ih]

theorem joined_eq : joined args = joined args' := by
  rw [joined, joined, mapM_stringArg_eq h]

theorem substring_eq : substring args = substring args' :=
  (results_three h).bind_eq fun _ _ habc => by
    simp only [integerArg_eq _ habc.1, integerArg_eq _ habc.2.1, stringArg_eq _ habc.2.2]

theorem nameOf_eq : nameOf args = nameOf args' := by
  match h with
  | .nil => rfl
  | .cons ha .nil =>
    exact Alike.apply_eq (f := fun t => nameOf [t]) (fun t => by cases t <;> rfl) ha
  | .cons _ (.cons _ _) => rfl

theorem sameAs_eq : sameAs args = sameAs args' :=
  (results_two h).bind_eq fun _ _ hab => by simp only [equality_eq hab.1 hab.2]

theorem differs_eq : differs args = differs args' :=
  (results_two h).bind_eq fun _ _ hab => by simp only [equality_eq hab.1 hab.2]

theorem negation_eq : negation args = negation args' :=
  (results_one h).bind_eq fun _ _ ha => by rw [truthArg_eq ha]

theorem atomOf_eq : atomOf args = atomOf args' :=
  (results_one h).bind_eq fun _ _ ha => by rw [stringArg_eq _ ha]

omit h in
theorem itemOf_of_not_list {a b : Term} (ha : ∀ items, a ≠ .list items) :
    itemOf [a, b] = badArgument (.notList a.typeName) := by
  cases a with
  | list items => exact absurd rfl (ha items)
  | _ => rfl

omit h in
theorem itemOf_list (items : List Term) (b : Term) :
    itemOf [.list items, b] = (do
      let n ← integerArg "Nth" b
      match if n < 1 then none else items[(n - 1).toNat]? with
      | some item => return item
      | none => badArgument (.listIndex n items.length)) := rfl

omit h in
/-- The items of lists that are alike. -/
theorem results_itemOf_list {items items' : List Term} (hitems : List.Forall₂ Alike items items')
    {b b' : Term} (hb : b.Alike b') :
    Results Alike (itemOf [.list items, b]) (itemOf [.list items', b']) := by
  rw [itemOf_list, itemOf_list, integerArg_eq _ hb, hitems.length_eq]
  have hnumber : Results Eq (integerArg "Nth" b') (integerArg "Nth" b') :=
    .of_eq (fun _ => rfl) rfl
  refine hnumber.bind fun n _ hn => ?_
  subst hn
  by_cases hlow : n < 1
  · rw [if_pos hlow, if_pos hlow]
    exact .error _
  · rw [if_neg hlow, if_neg hlow]
    rcases cases_of_map_eq (Alike.getElem? hitems (n - 1).toNat) with
      ⟨hx, hy⟩ | ⟨x, y, hx, hy, hitem⟩
    · rw [hx, hy]
      exact .error _
    · rw [hx, hy]
      exact .ok hitem

theorem results_itemOf : Results Alike (itemOf args) (itemOf args') := by
  rcases h with _ | @⟨a, a', _, _, ha, _ | ⟨hb, _ | _⟩⟩
  · exact .error _
  · exact .error _
  · by_cases hlist : ∃ items, a = .list items
    · obtain ⟨items, rfl⟩ := hlist
      obtain ⟨items', rfl, hitems⟩ := ha.eq_list
      exact results_itemOf_list hitems hb
    · have hlist' : ∀ items, a' ≠ .list items := by
        rintro items rfl
        obtain ⟨items', h', -⟩ := Term.exists_list_of_essence (ha.trans (Term.essence_list items))
        exact hlist ⟨items', h'⟩
      rw [itemOf_of_not_list (not_exists.1 hlist), itemOf_of_not_list hlist', ha.typeName_eq]
      exact .error _
  · exact .error _

/-- **A primitive without effects is blind to places.** -/
theorem Primitive.results_compute? {p : Primitive} {compute : List Term → Computed}
    (hp : p.compute? = some compute) : Results Alike (compute args) (compute args') := by
  cases p <;> cases hp
  case list => exact .ok (Alike.list_iff.2 h)
  case nth => exact results_itemOf h
  case hold => exact results_one h
  all_goals refine .of_eq Alike.refl ?_
  case add | subtract | multiply => exact arithmetic_eq h _ _
  case divide => exact quotient_eq h
  case negate | abs => exact unary_eq h _ _
  case power => exact powerOf_eq h
  case factorial => exact factorialOf_eq h
  case minus => exact difference_eq h
  case lessThan | greaterThan | lessOrEqual | greaterOrEqual => exact comparison_eq h _ _
  case equals => exact sameAs_eq h
  case notEquals => exact differs_eq h
  case not => exact negation_eq h
  case length => exact lengthOf_eq h
  case concat => exact joined_eq h
  case stringMid => exact substring_eq h
  case atom => exact atomOf_eq h
  case string => exact nameOf_eq h

end

/-! ### Actions -/

namespace World

/-- **Worlds in which the same matters**: the values of atoms are alike, and the rest is the
same. -/
structure Alike (w w' : World) : Prop where
  globals (name : String) :
    (w.globals.get? name).map Term.essence = (w'.globals.get? name).map Term.essence
  output : w.output = w'.output
  marks : w.marks = w'.marks

variable {w w' : World}

@[refl] theorem Alike.refl (w : World) : w.Alike w := ⟨fun _ => rfl, rfl, rfl⟩

theorem Alike.assign (h : w.Alike w') {v v' : Term} (hv : v.Alike v') (name : String) :
    (w.assign name v).Alike (w'.assign name v') := by
  refine ⟨fun other => ?_, h.output, h.marks⟩
  simp only [World.assign, Globals.get?_set]
  split
  · exact congrArg some hv
  · exact h.globals other

theorem Alike.write (h : w.Alike w') (text : String) : (w.write text).Alike (w'.write text) :=
  ⟨h.globals, congrArg (Output.write · text) h.output, h.marks⟩

theorem Alike.atomValue (h : w.Alike w') (name : String) {t u : Term} (ht : t.Alike u) :
    (w.atomValue name t).Alike (w'.atomValue name u) := by
  unfold World.atomValue
  split
  · rfl
  · split
    · rfl
    · rcases cases_of_map_eq (h.globals name) with ⟨hx, hy⟩ | ⟨v, v', hx, hy, hv⟩
      · rw [hx, hy]
        exact ht
      · rw [hx, hy]
        exact hv

end World

namespace Action

/-- **Actions that agree** in worlds that are alike. -/
def Agree {α β : Type} (R : α → β → Prop) (x : Action World α) (y : Action World β) : Prop :=
  ∀ w w', w.Alike w' → Outcomes World.Alike R (x w) (y w')

end Action

open TermCalc.Action (Agree)

/-- **Nothing but places differs.** Any failure may arise. -/
def blindness : Lockstep := ⟨World.Alike, Term.Alike, fun _ => True⟩

theorem agree_of_keeps {α β : Type} {R : α → β → Prop} {x : Action World α} {y : Action World β}
    (h : blindness.Keeps R x y) : Agree R x y := fun w w' hw => (h w w' hw).1

/-- The parts of an evaluation are blind to places. -/
theorem laws_blindness {r : Registry} (hr : r.CallsPrimitives) : blindness.Laws r r where
  alike h := h
  truth _ := .refl _
  number _ := .refl _
  string _ := .refl _
  args h := by
    obtain ⟨_, _, heq, hargs⟩ := Alike.eq_form h
    cases heq
    exact hargs
  atomValue hw _ _ _ h := hw.atomValue _ h
  assign hw name _ _ h := hw.assign h name
  write hw text := hw.write text
  adopt hw n := by
    simp only [World.adopt, hw.marks]
    exact ⟨.refl _, ⟨hw.globals, hw.output, rfl⟩⟩
  expr _ _ := trivial
  print {_ _ e e' h} ht hu w w' hw := by
    -- An expression is printed alike wherever it stood.
    have hexpr : e.unplaced = e'.unplaced := by simpa [ht, hu] using h.toExpr?
    have hprint : r.print e w.output = r.print e' w'.output := by
      rw [Registry.print, Registry.print, ← r.printAt_unplaced, hexpr, r.printAt_unplaced,
        hw.output]
    rw [hprint]
    exact ⟨rfl, fun _ _ => trivial, ⟨hw.globals, rfl, hw.marks⟩⟩
  compute hp _ _ h _ := ⟨Primitive.results_compute? h hp, fun _ _ => trivial⟩
  lookup _ := rfl
  callsPrimitives := hr
  takes _ _ _ _ _ := ⟨trivial, trivial⟩
  unknownName _ := trivial
  wrongArity _ := trivial
  tooManyDigits := trivial
  argument _ := trivial

/-- **An evaluator that is blind to places.** -/
def Blind (ev : Evaluator World) : Prop := ∀ t u, t.Alike u → Agree Alike (ev t) (ev u)

/-- **Evaluation without a stack is blind to places.** -/
theorem Registry.blind_evaluateDirect {r : Registry} (hr : r.CallsPrimitives) (fuel : Nat) :
    Blind (r.evaluateDirect fuel) := fun _ _ h =>
  agree_of_keeps ((laws_blindness hr).evaluateDirect fuel h)

end TermCalc
