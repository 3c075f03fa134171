import TermCalc.Proofs.Evaluation.Values
import TermCalc.Proofs.Number.Literals
import TermCalc.Proofs.Term.Equivalence

/-!
# Values as expressions

A value in which no expression stands can be taken as an expression: a truth value as an atom, a
list as a form. Nothing is lost thereby, for the expression evaluates to the value again.

* `Ground`: numbers, strings, truth values, and lists of these.
* `Ground.yields`: a ground value has an expression, and that evaluates to it.
  `Yields.evaluate`: on the stack machine too.
* `Ground.answers_equals`: equality takes the two for the same, unless a NaN stands in them.
* `Ground.converts`: **values survive conversion.**
-/

namespace TermCalc

/-- **Truth values, numbers, strings, and lists of these.** No expression stands in them. -/
inductive Ground : Term → Prop
  | truth {b : Bool} : Ground (.truth b)
  | num {n : Num} : Ground (.num n)
  | str {s : String} : Ground (.str s)
  | list {items : List Term} : (∀ v ∈ items, Ground v) → Ground (.list items)

attribute [local irreducible] coreRegistry

/-! ### Evaluation -/

/-- What evaluates to a value without effects does so on every stack. -/
theorem Yields.evaluate {e v : Term} (h : Yields e v) :
    ∃ n, ∀ fuel, n ≤ fuel → ∀ m : Machine, coreRegistry.evaluate fuel e m = .value v m := by
  obtain ⟨n, hn⟩ := h
  refine ⟨n, fun fuel hfuel m => ?_⟩
  have hprimitives := Registry.build_callsPrimitives build_coreDeclarations
  have hmachine := coreRegistry.evaluate_stackless hprimitives fuel e m.stack m.world
  rw [hn fuel hfuel] at hmachine
  exact hmachine

/-- **A ground value has an expression that evaluates to it.** -/
theorem Ground.yields {v : Term} (h : Ground v) : ∃ e, v.toExpr? = some e ∧ Yields e v := by
  induction h with
  | @truth b => exact ⟨_, rfl, yields_of_once fun fuel w => by cases b <;> rfl⟩
  | num => exact ⟨_, rfl, yields_of_once fun fuel w => rfl⟩
  | str => exact ⟨_, rfl, yields_of_once fun fuel w => rfl⟩
  | list _ ih =>
    obtain ⟨items, rfl, hitems⟩ := exists_pairs ih
    have hconverts : Term.toExprs? (items.map Prod.fst) = some (items.map Prod.snd) :=
      toExprs?_map fun x hx => (hitems x hx).1
    -- the operands of the form are the expressions, and its value is the list of the values
    have hyields : ∀ x ∈ items.map Prod.swap, Yields x.1 x.2 :=
      List.forall_mem_map.2 fun x hx => (hitems x hx).2
    have hlist := @yields_form _ _ _ (items.map Prod.swap) .none _ CoreTable.lookup_list rfl rfl
      (by simp [Entry.accepts, Flags.atLeast]) (fun _ _ _ => rfl) hyields
    rw [List.map_map, List.map_map] at hlist
    exact ⟨.form "List" (items.map Prod.snd) .none, by rw [Term.toExpr?, hconverts]; rfl, hlist⟩

/-! ### Equality -/

theorem Ground.isProper {v : Term} (h : Ground v) : v.isProper = true := by
  induction h with
  | truth | num | str => rfl
  | list _ ih => exact Term.allProper_iff.2 ih

/-- **Equality does not tell a value without NaN from its expression.** -/
theorem Ground.answers_equals {v e : Term} (h : Ground v) (hnan : v.nanFree = true)
    (he : v.toExpr? = some e) : coreRegistry.Answers "Equals" [v, e] (.truth true) ∧
      coreRegistry.Answers "Equals" [e, v] (.truth true) := by
  have hv : v.isComparable = true := Term.isComparable_iff.2 ⟨h.isProper, hnan⟩
  obtain ⟨e', he', hdefinite, hkey⟩ := Term.exists_toExpr? hv
  obtain rfl : e' = e := Option.some.inj (he'.symm.trans he)
  have hexpr := Term.isExpr_of_isDefinite hdefinite
  have hcomparable : e'.isComparable = true := by
    rw [Term.isComparable_of_isExpr hexpr, hdefinite]
  rw [Registry.answers_equals_iff, Registry.answers_equals_iff]
  constructor
  · have hequal := Term.decides_equal?_of_isExpr hv hcomparable (by simp [hexpr])
    exact hequal.eq_some_iff.2 hkey.symm
  · have hequal := Term.decides_equal?_of_isExpr hcomparable hv (by simp [hexpr])
    exact hequal.eq_some_iff.2 hkey

/-- **Values survive conversion.** On the core table the expression of a value evaluates to the
value, with enough fuel, on every stack and in every world, and leaves both as they were. A value
without NaN equals its expression, from both sides. -/
theorem Ground.converts {v : Term} (h : Ground v) :
    ∃ e, v.toExpr? = some e ∧
      (∃ n, ∀ fuel, n ≤ fuel → ∀ m : Machine, coreRegistry.evaluate fuel e m = .value v m) ∧
      (v.nanFree = true → coreRegistry.Answers "Equals" [v, e] (.truth true) ∧
        coreRegistry.Answers "Equals" [e, v] (.truth true)) := by
  obtain ⟨e, he, hyields⟩ := h.yields
  exact ⟨e, he, hyields.evaluate, fun hnan => h.answers_equals hnan he⟩

/-- A list of every kind of value. -/
theorem Ground.converts_nested :
    let half := nearestDouble false 1 2
    let v : Term := .list [.num (.int (-3)), .num (.float half), .truth true, .list [.str "x"]]
    (Ground v ∧ v.nanFree = true) ∧
      ∃ e, v.toExpr? = some e ∧
        (∃ n, ∀ fuel, n ≤ fuel → ∀ m : Machine, coreRegistry.evaluate fuel e m = .value v m) ∧
        coreRegistry.Answers "Equals" [v, e] (.truth true) ∧
        coreRegistry.Answers "Equals" [e, v] (.truth true) := by
  intro half v
  have hinner : Ground (.list [.str "x"]) := .list (by simp [Ground.str])
  have hv : Ground v := .list (by simp [hinner, Ground.truth, Ground.num])
  have hhalf : (Num.float half).equal (.float half) = true :=
    Num.equal_float (doubleParts_nearestDouble false 1 2)
  have hthree : (Num.int (-3)).equal (.int (-3)) = true := rfl
  have hnan : v.nanFree = true := by
    simp only [v, Term.nanFree, Term.allNanFree, hthree, hhalf, Bool.and_self]
  obtain ⟨e, he, hevaluates, hequals⟩ := hv.converts
  exact ⟨⟨hv, hnan⟩, e, he, hevaluates, hequals hnan⟩

end TermCalc
