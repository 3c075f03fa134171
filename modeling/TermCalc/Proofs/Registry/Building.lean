import TermCalc.Registry.Declaration

/-!
# What declarations do to a registry

* `Registry.register_eq_ok`, `Registry.registerAlias_eq_ok`, `Registry.declareOperator_eq_ok`:
  exactly when a change is accepted, and what it then does.
* `Registry.build_callsPrimitives`: **a registry that is built calls nothing but primitives**.
-/

namespace TermCalc

namespace Registry

variable {r r' : Registry}

/-- **When a name is accepted**, and the entry that it gets. -/
theorem register_eq_ok {name : String} {implementation : Option Implementation} {arity : Int}
    {flags : Flags} {maximum : Option Int} {e : Entry} :
    r.register name implementation arity flags maximum = .ok (r', e) ↔
      r.frozen = false ∧ r.contains name = false ∧ 0 ≤ arity ∧
        (∀ m, maximum = some m → arity ≤ m ∧ flags.variadic = true) ∧
        ∃ i, implementation = some i ∧
          e = ⟨name, i, arity.toNat, flags, maximum.map Int.toNat⟩ ∧
          r' = { r with entries := r.entries ++ [e] } := by
  unfold register
  cases hf : r.frozen with
  | true => simp
  | false =>
    cases hc : r.contains name with
    | true => simp
    | false =>
      cases implementation with
      | none => simp
      | some i =>
        by_cases ha : arity < 0
        · have ha' : ¬ 0 ≤ arity := by omega
          simp [ha, ha']
        · have hmax : (maximum.any fun m => decide (m < arity) || !flags.variadic) = false ↔
              ∀ m, maximum = some m → arity ≤ m ∧ flags.variadic = true := by
            cases maximum <;> simp
          cases hm : maximum.any fun m => decide (m < arity) || !flags.variadic with
          | true =>
            have hm' : ¬ ∀ m, maximum = some m → arity ≤ m ∧ flags.variadic = true := by
              rw [← hmax, hm]; simp
            simp [ha, hm']
          | false =>
            simp only [Bool.false_eq_true, if_false, ha, Except.ok.injEq, Prod.mk.injEq,
              true_and, Option.some.injEq, exists_eq_left']
            constructor
            · rintro ⟨rfl, rfl⟩
              exact ⟨by omega, hmax.1 hm, rfl, rfl⟩
            · rintro ⟨-, -, rfl, rfl⟩
              exact ⟨rfl, rfl⟩

/-- **When an alias is accepted**: as the entry that it repeats, under another name. -/
theorem registerAlias_eq_ok {existing new : String} {e : Entry} :
    r.registerAlias existing new = .ok (r', e) ↔
      r.frozen = false ∧ ∃ base, r.lookup existing = some base ∧
        r.register new (some base.implementation) base.arity base.flags
          (base.maximum.map (↑·)) = .ok (r', e) := by
  unfold registerAlias
  cases hf : r.frozen with
  | true => simp
  | false => cases hl : r.lookup existing <;> simp

/-- **When an operator is accepted**, and the number that it gets. -/
theorem declareOperator_eq_ok {fixity : Fixity} {precedence : Int} {name : String} {op : Operator} :
    r.declareOperator fixity precedence name = .ok (r', op) ↔
      r.frozen = false ∧ r.operator? fixity name = none ∧
        op = ⟨fixity, precedence, name, r.operators.length⟩ ∧
        r' = { r with operators := r.operators ++ [op] } := by
  unfold declareOperator
  cases hf : r.frozen with
  | true => simp
  | false =>
    cases ho : r.operator? fixity name with
    | some o => simp
    | none =>
      simp only [Bool.false_eq_true, if_false, Option.isSome_none, Except.ok.injEq, Prod.mk.injEq,
        true_and]
      constructor
      · rintro ⟨rfl, rfl⟩
        exact ⟨rfl, rfl⟩
      · rintro ⟨rfl, rfl⟩
        exact ⟨rfl, rfl⟩

/-- Every name calls a primitive. -/
def CallsPrimitives (r : Registry) : Prop := ∀ e ∈ r.entries, ∃ p, e.implementation = .primitive p

theorem CallsPrimitives.lookup (h : r.CallsPrimitives) {name : String} {e : Entry}
    (he : r.lookup name = some e) : ∃ p, e.implementation = .primitive p :=
  h e (List.mem_of_find?_eq_some he)

theorem CallsPrimitives.register (h : r.CallsPrimitives) {name : String} {p : Primitive}
    {arity : Int} {flags : Flags} {maximum : Option Int} {e : Entry}
    (hr : r.register name (some (.primitive p)) arity flags maximum = .ok (r', e)) :
    r'.CallsPrimitives := by
  obtain ⟨-, -, -, -, i, hi, rfl, rfl⟩ := register_eq_ok.1 hr
  intro e he
  rcases List.mem_append.1 he with he | he
  · exact h e he
  · rw [List.mem_singleton.1 he]
    exact ⟨p, (Option.some.inj hi).symm⟩

end Registry

namespace Building

open Registry

variable {b b' : Building} {label name : String} {arity : Int} {flags : Flags}

/-- **A function that is declared** registers the primitive with its label. -/
theorem declare_function_eq_ok {maximum : Option Int}
    (h : b.declare (.function label name arity flags maximum) = .ok b') :
    ∃ p e, Primitive.ofLabel? label = some p ∧
      b.registry.register name (some (.primitive p)) arity flags maximum = .ok (b'.registry, e) ∧
      b'.bases =
        if (b.bases.lookup label).isSome then b.bases else b.bases ++ [(label, name)] := by
  simp only [declare] at h
  split at h
  · cases h
  · rename_i p hp
    split at h
    · cases h
    · rename_i r e hr
      cases h
      exact ⟨p, e, hp, hr, rfl⟩

/-- **An alias that is declared** repeats the name that its label stands for. -/
theorem declare_synonym_eq_ok (h : b.declare (.synonym label name arity flags) = .ok b') :
    ∃ e, b.registry.registerAlias (b.base label) name = .ok (b'.registry, e) ∧
      b'.bases = b.bases := by
  simp only [declare] at h
  split at h
  · cases h
  · rename_i r e hr
    split at h
    · cases h
    · cases h
      exact ⟨e, hr, rfl⟩

theorem declare_operator_eq_ok {fixity : Fixity} {precedence : Int}
    (h : b.declare (.operator fixity precedence name) = .ok b') :
    ∃ op, b.registry.declareOperator fixity precedence name = .ok (b'.registry, op) ∧
      b'.bases = b.bases := by
  simp only [declare] at h
  split at h
  · cases h
  · rename_i r op hr
    cases h
    exact ⟨op, hr, rfl⟩

theorem declare_callsPrimitives {d : Declaration} (h : b.registry.CallsPrimitives)
    (hd : b.declare d = .ok b') : b'.registry.CallsPrimitives := by
  cases d with
  | function label name arity flags maximum =>
    obtain ⟨p, e, -, hr, -⟩ := declare_function_eq_ok hd
    exact h.register hr
  | synonym label name arity flags =>
    obtain ⟨e, hr, -⟩ := declare_synonym_eq_ok hd
    obtain ⟨-, base, hbase, hr⟩ := registerAlias_eq_ok.1 hr
    obtain ⟨p, hp⟩ := h.lookup hbase
    rw [hp] at hr
    exact h.register hr
  | operator fixity precedence name =>
    obtain ⟨op, hr, -⟩ := declare_operator_eq_ok hd
    obtain ⟨-, -, -, hr⟩ := declareOperator_eq_ok.1 hr
    rw [hr]
    exact h
  | malformed fields => cases hd

theorem declareAll_callsPrimitives {ds : List Declaration}
    (h : b.registry.CallsPrimitives) (hd : b.declareAll ds = .ok b') :
    b'.registry.CallsPrimitives := by
  induction ds generalizing b with
  | nil => cases hd; exact h
  | cons d ds ih =>
    simp only [declareAll] at hd
    split at hd
    · cases hd
    · rename_i b₁ h₁
      exact ih (declare_callsPrimitives h h₁) hd

end Building

/-- **A registry that is built calls nothing but primitives.** -/
theorem Registry.build_callsPrimitives {ds : List Declaration} {r : Registry}
    (h : Registry.build ds = .ok r) : r.CallsPrimitives := by
  unfold Registry.build at h
  split at h
  · cases h
  · rename_i b hb
    cases h
    exact Building.declareAll_callsPrimitives (b := .empty) (fun e he => by cases he) hb

end TermCalc
