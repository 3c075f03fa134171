import Mathlib.Data.List.Induction
import TermCalc.Proofs.Registry.History
import TermCalc.Proofs.Registry.Ordering

/-!
# Tables that can be built

A table is built exactly where each of its declarations is acceptable behind those before it. What
is acceptable is said by the table alone, without a registry, and so is why a declaration is not.

* `namesOf`, `baseName`: the names of a table, and the name that an alias repeats.
* `Acceptable`, `WellFormed`: what can be declared behind a table. `Fault`: why something cannot.
* `Building.Reflects`: the invariant of building. `Building.Reflects.declare` is its step,
  `Building.Reflects.declareAll` the run.
* `Building.Reflects.declare_eq_ok_iff`, `Building.Reflects.declare_eq_error_iff`: one declaration.
* `Registry.Represents`: what a registry says of the table that it was built from.
* `Registry.build_iff_wellFormed`: **exactly the well-formed tables are built.**
-/

namespace TermCalc

namespace Declaration

/-- The name, the arity and the flags of what a declaration makes callable. -/
def signature? : Declaration → Option (String × Int × Flags)
  | function _ name arity flags _ | synonym _ name arity flags => some (name, arity, flags)
  | _ => none

/-- The label of a function with its name. -/
def named? : Declaration → Option (String × String)
  | function label name .. => some (label, name)
  | _ => none

/-- The position, the precedence and the name of an operator. -/
def spelling? : Declaration → Option (Fixity × Int × String)
  | operator fixity precedence name => some (fixity, precedence, name)
  | _ => none

end Declaration

/-! ### What a table says -/

/-- The names that a table makes callable, in order. -/
def namesOf (ds : List Declaration) : List String := ds.filterMap Declaration.callable?

/-- **The name that an alias repeats**: the one of the first function with the label, or the label
itself where no function has it. -/
def baseName (ds : List Declaration) (label : String) : String :=
  ((ds.filterMap Declaration.named?).lookup label).getD label

/-- **What can be declared behind a table.** -/
def Acceptable (before : List Declaration) : Declaration → Prop
  | .function label name arity flags maximum =>
    (∃ p : Primitive, p.label = label) ∧ name ∉ namesOf before ∧ 0 ≤ arity ∧
      ∀ m, maximum = some m → arity ≤ m ∧ flags.variadic = true
  | .synonym label name arity flags =>
    name ∉ namesOf before ∧ ∃ d ∈ before, d.signature? = some (baseName before label, arity, flags)
  | .operator fixity _ name => ∀ precedence, .operator fixity precedence name ∉ before
  | .malformed _ => False

/-- **A table each of whose declarations is acceptable behind those before it.** -/
def WellFormed (ds : List Declaration) : Prop :=
  ∀ before d after, ds = before ++ d :: after → Acceptable before d

/-- **The failure that a declaration causes behind a table.** Where there is more than one reason to
refuse it, the failure is that of the first. -/
inductive Fault (before : List Declaration) : Declaration → Failure → Prop
  | missing {label name : String} {arity : Int} {flags : Flags} {maximum : Option Int}
      (hlabel : ∀ p : Primitive, p.label ≠ label) :
      Fault before (.function label name arity flags maximum) (.noImplementation label)
  | taken {p : Primitive} {name : String} {arity : Int} {flags : Flags} {maximum : Option Int}
      (hname : name ∈ namesOf before) :
      Fault before (.function p.label name arity flags maximum) (.duplicateBuiltin name)
  | negative {p : Primitive} {name : String} {arity : Int} {flags : Flags} {maximum : Option Int}
      (hname : name ∉ namesOf before) (harity : arity < 0) :
      Fault before (.function p.label name arity flags maximum)
        (Failure.negativeArity name arity).reported
  | maximum {p : Primitive} {name : String} {arity m : Int} {flags : Flags}
      (hname : name ∉ namesOf before) (harity : 0 ≤ arity)
      (hm : m < arity ∨ flags.variadic = false) :
      Fault before (.function p.label name arity flags (some m))
        (Failure.badMaximum name arity).reported
  | unknown {label name : String} {arity : Int} {flags : Flags}
      (hbase : baseName before label ∉ namesOf before) :
      Fault before (.synonym label name arity flags) (.unknownName (baseName before label))
  | repeated {label name : String} {arity : Int} {flags : Flags}
      (hbase : baseName before label ∈ namesOf before) (hname : name ∈ namesOf before) :
      Fault before (.synonym label name arity flags) (.duplicateBuiltin name)
  | mismatch {label name : String} {arity : Int} {flags baseFlags : Flags} {baseArity : Nat}
      {d : Declaration} (hd : d ∈ before)
      (hbase : d.signature? = some (baseName before label, (baseArity : Int), baseFlags))
      (hname : name ∉ namesOf before) (hne : (baseArity : Int) ≠ arity ∨ baseFlags ≠ flags) :
      Fault before (.synonym label name arity flags)
        (Failure.aliasMismatch name arity flags (baseName before label) baseArity
          baseFlags).reported
  | spelled {fixity : Fixity} {precedence precedence' : Int} {name : String}
      (hop : .operator fixity precedence' name ∈ before) :
      Fault before (.operator fixity precedence name) (.duplicateOperator fixity name)
  | malformed {fields : List Term} :
      Fault before (.malformed fields) (Failure.malformedDeclaration fields).reported

section Tables

variable {ds before after : List Declaration} {d d' : Declaration}

/-- A place in a table with one more declaration is the last one, or was there before. -/
theorem concat_eq_split (h : ds ++ [d] = before ++ d' :: after) :
    (before = ds ∧ d' = d) ∨ ∃ after', ds = before ++ d' :: after' := by
  rcases List.eq_nil_or_concat after with rfl | ⟨after', last, rfl⟩
  · obtain ⟨hds, hd⟩ := List.append_inj' h rfl
    exact .inl ⟨hds.symm, (List.singleton_inj.1 hd).symm⟩
  · rw [List.concat_eq_append, ← List.cons_append, ← List.append_assoc] at h
    exact .inr ⟨after', (List.append_inj' h rfl).1⟩

/-- **A table that is not well formed** has a first declaration that is not acceptable. -/
theorem wellFormed_or_split (ds : List Declaration) : WellFormed ds ∨
    ∃ before d after, ds = before ++ d :: after ∧ WellFormed before ∧ ¬ Acceptable before d := by
  induction ds using List.reverseRecOn with
  | nil =>
    refine .inl ?_
    intro before d after h
    simp at h
  | append_singleton ds d ih =>
    rcases ih with hds | ⟨before, d', after, rfl, hbefore, hd'⟩
    · by_cases hd : Acceptable ds d
      · refine .inl ?_
        intro before d' after h
        rcases concat_eq_split h with ⟨rfl, rfl⟩ | ⟨after', h⟩
        · exact hd
        · exact hds before d' after' h
      · exact .inr ⟨ds, d, [], rfl, hds, hd⟩
    · exact .inr ⟨before, d', after ++ [d], by simp, hbefore, hd'⟩

theorem mem_namesOf {name : String} :
    name ∈ namesOf ds ↔ ∃ arity flags, ∃ d ∈ ds, d.signature? = some (name, arity, flags) := by
  unfold namesOf
  rw [List.mem_filterMap]
  constructor
  · rintro ⟨d, hd, hname⟩
    cases d with
    | function label _ arity flags => cases hname; exact ⟨arity, flags, _, hd, rfl⟩
    | synonym label _ arity flags => cases hname; exact ⟨arity, flags, _, hd, rfl⟩
    | operator => cases hname
    | malformed => cases hname
  · rintro ⟨arity, flags, d, hd, hsignature⟩
    refine ⟨d, hd, ?_⟩
    cases d with
    | function => cases hsignature; rfl
    | synonym => cases hsignature; rfl
    | operator => cases hsignature
    | malformed => cases hsignature

theorem map_fst_signatures (ds : List Declaration) :
    (ds.filterMap Declaration.signature?).map (·.1) = namesOf ds := by
  unfold namesOf
  rw [List.map_filterMap]
  refine List.filterMap_congr ?_
  intro d _
  cases d <;> rfl

end Tables

/-! ### What registries refuse -/

namespace Registry

variable {r r' : Registry}

/-- **Why a name is refused** by a registry that is open. -/
theorem register_eq_error {name : String} {i : Implementation} {arity : Int} {flags : Flags}
    {maximum : Option Int} {failure : Failure} (hopen : r.frozen = false) :
    r.register name (some i) arity flags maximum = .error failure ↔
      name ∈ r.names ∧ failure = .duplicateBuiltin name ∨
      name ∉ r.names ∧ arity < 0 ∧ failure = (Failure.negativeArity name arity).reported ∨
      name ∉ r.names ∧ 0 ≤ arity ∧ failure = (Failure.badMaximum name arity).reported ∧
        ∃ m, maximum = some m ∧ (m < arity ∨ flags.variadic = false) := by
  unfold register
  rw [hopen]
  by_cases hname : name ∈ r.names
  · have hcontains : r.contains name = true := by
      rw [← Bool.not_eq_false, contains_eq_false_iff, not_not]
      exact hname
    simp [hname, hcontains, @eq_comm _ failure]
  · have hcontains := contains_eq_false_iff.2 hname
    by_cases harity : arity < 0
    · have hle : ¬ 0 ≤ arity := by omega
      simp [hname, hcontains, harity, hle, @eq_comm _ failure]
    · have hle : 0 ≤ arity := by omega
      cases maximum with
      | none => simp [hname, hcontains, harity]
      | some m =>
        by_cases hm : m < arity ∨ flags.variadic = false
        · simp [hname, hcontains, harity, hle, hm, @eq_comm _ failure]
        · simp [hname, hcontains, harity, hm]

/-- **An alias of a name that is there** is accepted under a new name. It has no bounds of its own
to check: those of the entry that it repeats are in order. -/
theorem Sound.registerAlias_eq (h : r.Sound) (hopen : r.frozen = false) {existing new : String}
    {e : Entry} (he : r.lookup existing = some e) (hnew : new ∉ r.names) :
    r.registerAlias existing new =
      .ok ({ r with entries := r.entries ++ [{ e with name := new }] },
        { e with name := new }) := by
  obtain ⟨⟨r', g⟩, hg⟩ := (h.accepts_iff (.synonym existing new)).2
    ⟨hopen, List.mem_map.2 ⟨e, List.mem_of_find?_eq_some he, name_of_lookup he⟩, hnew⟩
  obtain ⟨⟨r₁, e₁⟩, hr, -⟩ := map_eq_ok.1 hg
  obtain ⟨base, hbase, rfl, hregister⟩ := entry_of_registerAlias hr
  rw [he] at hbase
  cases hbase
  obtain ⟨-, -, -, -, i, -, -, rfl⟩ := register_eq_ok.1 hregister
  exact hr

theorem declareOperator_eq_error (hopen : r.frozen = false) {fixity : Fixity} {precedence : Int}
    {name : String} {failure : Failure} :
    r.declareOperator fixity precedence name = .error failure ↔
      (∃ op, r.operator? fixity name = some op) ∧ failure = .duplicateOperator fixity name := by
  unfold declareOperator
  rw [hopen]
  cases r.operator? fixity name <;> simp [@eq_comm _ failure]

/-- **What a registry says of one declaration of a table**, by those before it. -/
def Finds (r : Registry) (before : List Declaration) : Declaration → Prop
  | .function label name arity flags maximum =>
    ∃ e p, r.lookup name = some e ∧ e.implementation = .primitive p ∧ p.label = label ∧
      (e.arity : Int) = arity ∧ e.flags = flags ∧ e.maximum.map Int.ofNat = maximum
  | .synonym label name arity flags =>
    ∃ e, r.lookup (baseName before label) = some e ∧ r.lookup name = some { e with name } ∧
      (e.arity : Int) = arity ∧ e.flags = flags
  | .operator fixity precedence name =>
    ∃ op, r.operator? fixity name = some op ∧ op.precedence = precedence
  | .malformed _ => False

theorem Finds.mono (hr : r.Extends r') {before : List Declaration} {d : Declaration}
    (h : r.Finds before d) : r'.Finds before d := by
  cases d with
  | function =>
    obtain ⟨e, p, he, hentry⟩ := h
    exact ⟨e, p, hr.lookup _ _ he, hentry⟩
  | synonym =>
    obtain ⟨e, hbase, hnew, hentry⟩ := h
    exact ⟨e, hr.lookup _ _ hbase, hr.lookup _ _ hnew, hentry⟩
  | operator =>
    obtain ⟨op, hop, hprecedence⟩ := h
    exact ⟨op, hr.operator _ _ _ hop, hprecedence⟩
  | malformed => exact h

end Registry

/-- The name, the arity and the flags of an entry. -/
def Entry.signature (e : Entry) : String × Int × Flags := (e.name, e.arity, e.flags)

/-- The position, the precedence and the name of an operator. -/
def Operator.spelling (op : Operator) : Fixity × Int × String := (op.fixity, op.precedence, op.name)

/-! ### What building does -/

namespace Building

open Registry

variable {b b' : Building} {ds : List Declaration}

/-- **A building that is at the end of a table**: it holds what the table says, and no more. -/
structure Reflects (b : Building) (ds : List Declaration) : Prop where
  opened : b.registry.frozen = false
  sound : b.registry.Sound
  signatures : b.registry.entries.map Entry.signature = ds.filterMap Declaration.signature?
  spellings : b.registry.operators.map Operator.spelling = ds.filterMap Declaration.spelling?
  bases : ∀ label, b.bases.lookup label = (ds.filterMap Declaration.named?).lookup label
  finds : ∀ before d after, ds = before ++ d :: after → b.registry.Finds before d

theorem reflects_empty : empty.Reflects [] where
  opened := rfl
  sound := sound_empty
  signatures := rfl
  spellings := rfl
  bases _ := rfl
  finds before d after h := by simp at h

namespace Reflects

theorem names_eq (h : b.Reflects ds) : b.registry.names = namesOf ds := by
  have hnames : b.registry.names = (b.registry.entries.map Entry.signature).map (·.1) := by
    rw [List.map_map]
    rfl
  rw [hnames, h.signatures, map_fst_signatures]

theorem base_eq (h : b.Reflects ds) (label : String) : b.base label = baseName ds label := by
  rw [base, baseName, h.bases]

/-- The entry of a name has the arity and the flags that the table says. -/
theorem exists_lookup_iff (h : b.Reflects ds) {name : String} {arity : Int} {flags : Flags} :
    (∃ e, b.registry.lookup name = some e ∧ (e.arity : Int) = arity ∧ e.flags = flags) ↔
      ∃ d ∈ ds, d.signature? = some (name, arity, flags) := by
  rw [← List.mem_filterMap, ← h.signatures, List.mem_map]
  constructor
  · rintro ⟨e, he, rfl, rfl⟩
    refine ⟨e, List.mem_of_find?_eq_some he, ?_⟩
    rw [Entry.signature, name_of_lookup he]
  · rintro ⟨e, he, hsignature⟩
    cases hsignature
    exact ⟨e, lookup_of_mem h.sound he, rfl, rfl⟩

theorem lookup_eq_none_iff (h : b.Reflects ds) {name : String} :
    b.registry.lookup name = none ↔ name ∉ namesOf ds := by
  rw [← h.names_eq, ← contains_eq_false_iff, contains, Option.isSome_eq_false_iff,
    Option.isNone_iff_eq_none]

theorem operator?_eq_none_iff (h : b.Reflects ds) {fixity : Fixity} {name : String} :
    b.registry.operator? fixity name = none ↔
      ∀ precedence, .operator fixity precedence name ∉ ds := by
  have hmem (precedence : Int) : .operator fixity precedence name ∈ ds ↔
      ∃ op ∈ b.registry.operators, op.spelling = (fixity, precedence, name) := by
    rw [← List.mem_map, h.spellings, List.mem_filterMap]
    constructor
    · exact fun hd => ⟨_, hd, rfl⟩
    · rintro ⟨d, hd, hspelling⟩
      cases d with
      | operator => cases hspelling; exact hd
      | function => cases hspelling
      | synonym => cases hspelling
      | malformed => cases hspelling
  simp only [hmem]
  rw [operator?, List.find?_eq_none]
  constructor
  · rintro hnone precedence ⟨op, hop, hspelling⟩
    cases hspelling
    exact hnone op hop (by simp)
  · intro hnone op hop hfound
    simp only [Bool.and_eq_true, beq_iff_eq] at hfound
    obtain ⟨rfl, rfl⟩ := hfound
    exact hnone op.precedence ⟨op, hop, rfl⟩

/-! ### One declaration -/

theorem declare_missing {label name : String} {arity : Int} {flags : Flags} {maximum : Option Int}
    (hlabel : ∀ p : Primitive, p.label ≠ label) :
    b.declare (.function label name arity flags maximum) = .error (.noImplementation label) := by
  have hnone : Primitive.ofLabel? label = none := by
    cases hp : Primitive.ofLabel? label with
    | none => rfl
    | some p => exact absurd (Primitive.label_of_ofLabel? hp) (hlabel p)
  rw [declare, hnone]

theorem declare_function_eq_error {p : Primitive} {name : String} {arity : Int} {flags : Flags}
    {maximum : Option Int} {failure : Failure} :
    b.declare (.function p.label name arity flags maximum) = .error failure ↔
      b.registry.register name (some (.primitive p)) arity flags maximum = .error failure := by
  simp only [declare, Primitive.ofLabel?_label]
  cases b.registry.register name (some (.primitive p)) arity flags maximum <;> simp

section Synonyms

variable {label name : String} {arity : Int} {flags : Flags}

theorem declare_unknown (h : b.Reflects ds) (hbase : baseName ds label ∉ namesOf ds) :
    b.declare (.synonym label name arity flags) = .error (.unknownName (baseName ds label)) := by
  have hnone := h.lookup_eq_none_iff.2 hbase
  simp only [declare, h.base_eq, registerAlias, h.opened, hnone, Bool.false_eq_true, if_false]

theorem declare_repeated (h : b.Reflects ds) {e : Entry}
    (he : b.registry.lookup (baseName ds label) = some e) (hname : name ∈ namesOf ds) :
    b.declare (.synonym label name arity flags) = .error (.duplicateBuiltin name) := by
  rw [← h.names_eq] at hname
  have hrefused (maximum : Option Int) :
      b.registry.register name (some e.implementation) e.arity e.flags maximum =
        .error (.duplicateBuiltin name) := (register_eq_error h.opened).2 (.inl ⟨hname, rfl⟩)
  simp only [declare, h.base_eq, registerAlias, h.opened, he, Bool.false_eq_true, if_false]
  rw [hrefused]

theorem declare_synonym (h : b.Reflects ds) {e : Entry}
    (he : b.registry.lookup (baseName ds label) = some e) (hname : name ∉ namesOf ds) :
    b.declare (.synonym label name arity flags) =
      if (e.arity : Int) ≠ arity ∨ e.flags ≠ flags then
        .error (Failure.aliasMismatch name arity flags (baseName ds label) e.arity
          e.flags).reported
      else .ok { b with registry :=
        { b.registry with entries := b.registry.entries ++ [{ e with name }] } } := by
  rw [← h.names_eq] at hname
  have haccepted := h.sound.registerAlias_eq h.opened he hname
  simp only [declare, h.base_eq, haccepted]

end Synonyms

/-- **Which failure a declaration ends with.** -/
theorem declare_eq_error_iff (h : b.Reflects ds) {d : Declaration} {failure : Failure} :
    b.declare d = .error failure ↔ Fault ds d failure := by
  constructor
  · intro hd
    cases d with
    | function label name arity flags maximum =>
      by_cases hlabel : ∃ p : Primitive, p.label = label
      · obtain ⟨p, rfl⟩ := hlabel
        rw [declare_function_eq_error, register_eq_error h.opened, h.names_eq] at hd
        rcases hd with ⟨hname, rfl⟩ | ⟨hname, harity, rfl⟩ | ⟨hname, harity, rfl, m, rfl, hm⟩
        · exact .taken hname
        · exact .negative hname harity
        · exact .maximum hname harity hm
      · rw [not_exists] at hlabel
        rw [declare_missing hlabel] at hd
        cases hd
        exact .missing hlabel
    | synonym label name arity flags =>
      cases he : b.registry.lookup (baseName ds label) with
      | none =>
        have hbase := h.lookup_eq_none_iff.1 he
        rw [h.declare_unknown hbase] at hd
        cases hd
        exact .unknown hbase
      | some e =>
        have hbase := h.exists_lookup_iff.1 ⟨e, he, rfl, rfl⟩
        by_cases hname : name ∈ namesOf ds
        · rw [h.declare_repeated he hname] at hd
          cases hd
          exact .repeated (mem_namesOf.2 ⟨_, _, hbase⟩) hname
        · rw [h.declare_synonym he hname] at hd
          obtain ⟨d, hmem, hsignature⟩ := hbase
          by_cases hne : (e.arity : Int) ≠ arity ∨ e.flags ≠ flags
          · rw [if_pos hne] at hd
            cases hd
            exact .mismatch hmem hsignature hname hne
          · rw [if_neg hne] at hd
            cases hd
    | operator fixity precedence name =>
      have hrefused : b.registry.declareOperator fixity precedence name = .error failure := by
        rw [declare] at hd
        split at hd
        · rename_i hr
          cases hd
          exact hr
        · cases hd
      obtain ⟨⟨op, hop⟩, rfl⟩ := (declareOperator_eq_error h.opened).1 hrefused
      have hspelled : ¬ ∀ precedence, .operator fixity precedence name ∉ ds := by
        rw [← h.operator?_eq_none_iff, hop]
        simp
      rw [not_forall] at hspelled
      obtain ⟨precedence', hmem⟩ := hspelled
      exact .spelled (not_not.1 hmem)
    | malformed fields =>
      rw [declare] at hd
      cases hd
      exact .malformed
  · intro hd
    cases hd with
    | missing hlabel => exact declare_missing hlabel
    | taken hname =>
      rw [declare_function_eq_error, register_eq_error h.opened, h.names_eq]
      exact .inl ⟨hname, rfl⟩
    | negative hname harity =>
      rw [declare_function_eq_error, register_eq_error h.opened, h.names_eq]
      exact .inr (.inl ⟨hname, harity, rfl⟩)
    | maximum hname harity hm =>
      rw [declare_function_eq_error, register_eq_error h.opened, h.names_eq]
      exact .inr (.inr ⟨hname, harity, rfl, _, rfl, hm⟩)
    | unknown hbase => exact h.declare_unknown hbase
    | repeated hbase hname =>
      obtain ⟨arity, flags, hmem⟩ := mem_namesOf.1 hbase
      obtain ⟨e, he, -⟩ := h.exists_lookup_iff.2 hmem
      exact h.declare_repeated he hname
    | mismatch hmem hbase hname hne =>
      obtain ⟨e, he, harity, rfl⟩ := h.exists_lookup_iff.2 ⟨_, hmem, hbase⟩
      obtain rfl := Int.ofNat_inj.1 harity
      rw [h.declare_synonym he hname, if_pos hne]
    | @spelled fixity precedence precedence' name hop =>
      have hfound : ∃ op, b.registry.operator? fixity name = some op := by
        rw [← Option.ne_none_iff_exists']
        intro hnone
        exact h.operator?_eq_none_iff.1 hnone precedence' hop
      have hrefused : b.registry.declareOperator fixity precedence name =
          .error (.duplicateOperator fixity name) :=
        (declareOperator_eq_error h.opened).2 ⟨hfound, rfl⟩
      rw [declare, hrefused]
    | malformed => rfl

/-- **A building at the end of a table goes on to the end of a longer one.** -/
theorem extend (h : b.Reflects ds) {d : Declaration} (hopened : b'.registry.frozen = false)
    (hsound : b'.registry.Sound) (hextends : b.registry.Extends b'.registry)
    (hsignatures : b'.registry.entries.map Entry.signature =
      b.registry.entries.map Entry.signature ++ d.signature?.toList)
    (hspellings : b'.registry.operators.map Operator.spelling =
      b.registry.operators.map Operator.spelling ++ d.spelling?.toList)
    (hbases : ∀ label, b'.bases.lookup label =
      (b.bases.lookup label).or (d.named?.toList.lookup label))
    (hd : b'.registry.Finds ds d) : b'.Reflects (ds ++ [d]) := by
  have hlast {α : Type} (f : Declaration → Option α) :
      (ds ++ [d]).filterMap f = ds.filterMap f ++ (f d).toList := by
    rw [List.filterMap_append]
    cases hf : f d <;> simp [hf]
  refine ⟨hopened, hsound, ?_, ?_, ?_, ?_⟩
  · rw [hsignatures, h.signatures, hlast]
  · rw [hspellings, h.spellings, hlast]
  · intro label
    rw [hbases, h.bases, hlast, List.lookup_append]
  · intro before d' after hsplit
    rcases concat_eq_split hsplit with ⟨rfl, rfl⟩ | ⟨after', hsplit⟩
    · exact hd
    · exact (h.finds before d' after' hsplit).mono hextends

/-- **Which declarations are carried out.** -/
theorem declare_eq_ok_iff (h : b.Reflects ds) {d : Declaration} :
    (∃ b', b.declare d = .ok b') ↔ Acceptable ds d := by
  cases d with
  | function label name arity flags maximum =>
    rw [Acceptable, ← h.names_eq, ← contains_eq_false_iff]
    constructor
    · rintro ⟨b', hd⟩
      obtain ⟨p, e, hp, hr, -⟩ := declare_function_eq_ok hd
      obtain ⟨-, hname, harity, hmaximum, -⟩ := register_eq_ok.1 hr
      exact ⟨⟨p, Primitive.label_of_ofLabel? hp⟩, hname, harity, hmaximum⟩
    · rintro ⟨⟨p, rfl⟩, hname, harity, hmaximum⟩
      have hr := register_eq_ok.2
        ⟨h.opened, hname, harity, hmaximum, .primitive p, rfl, rfl, rfl⟩
      simp only [declare, Primitive.ofLabel?_label, hr]
      exact ⟨_, rfl⟩
  | synonym label name arity flags =>
    rw [Acceptable, ← h.exists_lookup_iff]
    constructor
    · rintro ⟨b', hd⟩
      cases he : b.registry.lookup (baseName ds label) with
      | none => simp [h.declare_unknown (h.lookup_eq_none_iff.1 he)] at hd
      | some e =>
        by_cases hname : name ∈ namesOf ds
        · simp [h.declare_repeated he hname] at hd
        · refine ⟨hname, e, rfl, ?_⟩
          rw [h.declare_synonym he hname] at hd
          split at hd
          · cases hd
          · rename_i hsame
            simpa only [ne_eq, not_or, not_not] using hsame
    · rintro ⟨hname, e, he, harity, hflags⟩
      have hsame : ¬ ((e.arity : Int) ≠ arity ∨ e.flags ≠ flags) := by simp [harity, hflags]
      rw [h.declare_synonym he hname, if_neg hsame]
      exact ⟨_, rfl⟩
  | operator fixity precedence name =>
    rw [Acceptable, ← h.operator?_eq_none_iff]
    constructor
    · rintro ⟨b', hd⟩
      obtain ⟨op, hr, -⟩ := declare_operator_eq_ok hd
      exact (declareOperator_eq_ok.1 hr).2.1
    · intro hnew
      rw [declare, declareOperator, h.opened, hnew]
      exact ⟨_, rfl⟩
  | malformed fields => simp [declare, Acceptable]

/-! ### The step -/

theorem declare_function (h : b.Reflects ds) {label name : String} {arity : Int} {flags : Flags}
    {maximum : Option Int} (hd : b.declare (.function label name arity flags maximum) = .ok b') :
    b'.Reflects (ds ++ [.function label name arity flags maximum]) := by
  obtain ⟨p, e, hp, hr, hbases⟩ := declare_function_eq_ok hd
  have hperform : b.registry.perform (.register name (some (.primitive p)) arity flags maximum) =
      .ok (b'.registry, .entry e) := by
    rw [perform, hr, Except.map]
  obtain ⟨hname, himplementation, harity, hflags, hmaximum⟩ := grants_of_perform hperform
  obtain ⟨-, -, -, -, -, -, -, hentries⟩ := register_eq_ok.1 hr
  refine h.extend ?_ (h.sound.perform hperform) (extends_register hr) ?_ ?_ ?_ ?_
  · rw [hentries]
    exact h.opened
  · rw [hentries, List.map_append, List.map_singleton, Entry.signature, hname, harity, hflags]
    rfl
  · rw [hentries]
    exact (List.append_nil _).symm
  · intro label'
    rw [hbases]
    show _ = (b.bases.lookup label').or ([(label, name)].lookup label')
    split
    · rename_i hlabel
      -- the label has a name already, which the new one does not replace
      by_cases hsame : label' = label
      · obtain ⟨first, hfirst⟩ := Option.isSome_iff_exists.1 hlabel
        rw [hsame, hfirst, Option.some_or]
      · rw [List.lookup_cons, beq_eq_false_iff_ne.2 hsame, List.lookup_nil, Option.or_none]
    · rw [List.lookup_append]
  · refine ⟨e, p, ?_, (Option.some.inj himplementation).symm, Primitive.label_of_ofLabel? hp,
      harity, hflags, hmaximum⟩
    rw [lookup_register hr, if_pos rfl]

theorem declare_alias (h : b.Reflects ds) {label name : String} {arity : Int} {flags : Flags}
    (hd : b.declare (.synonym label name arity flags) = .ok b') :
    b'.Reflects (ds ++ [.synonym label name arity flags]) := by
  obtain ⟨hname, hbase⟩ := h.declare_eq_ok_iff.1 ⟨b', hd⟩
  obtain ⟨e, he, harity, hflags⟩ := h.exists_lookup_iff.2 hbase
  obtain ⟨e', hr, hbases⟩ := declare_synonym_eq_ok hd
  have hperform : b.registry.perform (.synonym (b.base label) name) =
      .ok (b'.registry, .entry e') := by
    rw [perform, hr, Except.map]
  obtain ⟨base, hfound, rfl, hregister⟩ := entry_of_registerAlias hr
  rw [h.base_eq, he] at hfound
  cases hfound
  obtain ⟨-, -, -, -, -, -, -, hentries⟩ := register_eq_ok.1 hregister
  have hextends := extends_register hregister
  refine h.extend ?_ (h.sound.perform hperform) hextends ?_ ?_ ?_ ?_
  · rw [hentries]
    exact h.opened
  · rw [hentries, List.map_append, List.map_singleton, Entry.signature, harity, hflags]
    rfl
  · rw [hentries]
    exact (List.append_nil _).symm
  · intro label'
    rw [hbases]
    simp [Declaration.named?]
  · refine ⟨e, hextends.lookup _ _ he, ?_, harity, hflags⟩
    rw [lookup_register hregister, if_pos rfl]

theorem declare_operator (h : b.Reflects ds) {fixity : Fixity} {precedence : Int} {name : String}
    (hd : b.declare (.operator fixity precedence name) = .ok b') :
    b'.Reflects (ds ++ [.operator fixity precedence name]) := by
  obtain ⟨op, hr, hbases⟩ := declare_operator_eq_ok hd
  have hperform : b.registry.perform (.operator fixity precedence name) =
      .ok (b'.registry, .operator op) := by
    rw [perform, hr, Except.map]
  obtain ⟨hfixity, hprecedence, hname⟩ := grants_of_perform hperform
  obtain ⟨-, -, -, hoperators⟩ := declareOperator_eq_ok.1 hr
  refine h.extend ?_ (h.sound.perform hperform) (extends_declareOperator hr) ?_ ?_ ?_ ?_
  · rw [hoperators]
    exact h.opened
  · rw [hoperators]
    exact (List.append_nil _).symm
  · rw [hoperators, List.map_append, List.map_singleton, Operator.spelling, hfixity, hprecedence,
      hname]
    rfl
  · intro label'
    rw [hbases]
    simp [Declaration.named?]
  · refine ⟨op, ?_, hprecedence⟩
    rw [operator?_declareOperator hr, if_pos ⟨rfl, rfl⟩]

/-- **A declaration that is carried out** keeps the invariant. -/
theorem declare (h : b.Reflects ds) {d : Declaration} (hd : b.declare d = .ok b') :
    b'.Reflects (ds ++ [d]) := by
  cases d with
  | function => exact h.declare_function hd
  | synonym => exact h.declare_alias hd
  | operator => exact h.declare_operator hd
  | malformed => cases hd

/-- **A well-formed table is carried out**, from the end of any part of it. -/
theorem declareAll (h : b.Reflects ds) {rest : List Declaration} (hrest : WellFormed (ds ++ rest)) :
    ∃ b', b.declareAll rest = .ok b' ∧ b'.Reflects (ds ++ rest) := by
  induction rest generalizing b ds with
  | nil =>
    rw [List.append_nil]
    exact ⟨b, rfl, h⟩
  | cons d rest ih =>
    obtain ⟨b₁, hd⟩ := h.declare_eq_ok_iff.2 (hrest ds d rest rfl)
    rw [← List.singleton_append, ← List.append_assoc] at hrest ⊢
    obtain ⟨b', hall, hreflects⟩ := ih (h.declare hd) hrest
    refine ⟨b', ?_, hreflects⟩
    rw [List.singleton_append, Building.declareAll, hd]
    exact hall

end Reflects

/-- Building comes to the end of a well-formed table. -/
theorem exists_reflects (h : WellFormed ds) : ∃ b, empty.declareAll ds = .ok b ∧ b.Reflects ds :=
  reflects_empty.declareAll h

theorem declareAll_append (b : Building) (ds rest : List Declaration) :
    b.declareAll (ds ++ rest) =
      match b.declareAll ds with
      | .error failure => .error failure
      | .ok b' => b'.declareAll rest := by
  induction ds generalizing b with
  | nil => rfl
  | cons d ds ih =>
    rw [List.cons_append, declareAll, declareAll]
    cases b.declare d with
    | error failure => rfl
    | ok b₁ => exact ih b₁

end Building

/-! ### What is built -/

namespace Registry

variable {ds : List Declaration}

/-- **What a registry says of the table that it was built from.** -/
structure Represents (r : Registry) (ds : List Declaration) : Prop where
  frozen : r.frozen = true
  /-- The names in the order of their declarations. -/
  names_eq : r.names = namesOf ds
  spellings_eq : r.operators.map Operator.spelling = ds.filterMap Declaration.spelling?
  finds : ∀ before d after, ds = before ++ d :: after → r.Finds before d

/-- A well-formed table is built. -/
theorem exists_build_of_wellFormed (h : WellFormed ds) :
    ∃ r, build ds = .ok r ∧ r.Represents ds := by
  obtain ⟨b, hall, hb⟩ := Building.exists_reflects h
  refine ⟨b.registry.freeze, ?_, rfl, hb.names_eq, hb.spellings, ?_⟩
  · rw [build, hall]
  · intro before d after hsplit
    exact (hb.finds before d after hsplit).mono ⟨fun _ _ he => he, fun _ _ _ hop => hop⟩

/-- **Building ends at the first declaration that is not acceptable**, with the failure that this
one causes. -/
theorem build_eq_error_iff {before after : List Declaration} {d : Declaration}
    (hbefore : WellFormed before) (hd : ¬ Acceptable before d) {failure : Failure} :
    build (before ++ d :: after) = .error failure ↔ Fault before d failure := by
  obtain ⟨b, hall, hb⟩ := Building.exists_reflects hbefore
  rw [← hb.declare_eq_error_iff, build, Building.declareAll_append, hall]
  simp only [Building.declareAll]
  cases hresult : b.declare d with
  | error failure' => simp
  | ok b' => exact absurd (hb.declare_eq_ok_iff.1 ⟨b', hresult⟩) hd

/-- What ends building is a failure. -/
theorem exists_build_eq_error {before : List Declaration} {d : Declaration}
    (hbefore : WellFormed before) (hd : ¬ Acceptable before d) (after : List Declaration) :
    ∃ failure, build (before ++ d :: after) = .error failure := by
  obtain ⟨b, -, hb⟩ := Building.exists_reflects hbefore
  cases hresult : b.declare d with
  | error failure =>
    exact ⟨failure, (build_eq_error_iff hbefore hd).2 (hb.declare_eq_error_iff.1 hresult)⟩
  | ok b' => exact absurd (hb.declare_eq_ok_iff.1 ⟨b', hresult⟩) hd

/-- **Exactly the well-formed tables are built.** A table is built if and only if each of its
declarations is acceptable behind those before it. The registry is then frozen and says what the
table says. Otherwise building ends with the failure that the first declaration that is not
acceptable causes. -/
theorem build_iff_wellFormed (ds : List Declaration) :
    ((∃ r, build ds = .ok r) ↔ WellFormed ds) ∧
    (∀ r, build ds = .ok r → r.Represents ds) ∧
    ∀ failure, build ds = .error failure ↔ ∃ before d after, ds = before ++ d :: after ∧
      WellFormed before ∧ ¬ Acceptable before d ∧ Fault before d failure := by
  rcases wellFormed_or_split ds with hds | ⟨before, d, after, rfl, hbefore, hd⟩
  · obtain ⟨r, hr, hrepresents⟩ := exists_build_of_wellFormed hds
    refine ⟨⟨fun _ => hds, fun _ => ⟨r, hr⟩⟩, ?_, ?_⟩
    · intro r' hr'
      rw [hr] at hr'
      cases hr'
      exact hrepresents
    · intro failure
      rw [hr]
      constructor
      · intro h
        cases h
      · rintro ⟨before, d, after, hsplit, -, hd, -⟩
        exact absurd (hds before d after hsplit) hd
  · obtain ⟨failure, hfailure⟩ := exists_build_eq_error hbefore hd after
    refine ⟨?_, ?_, ?_⟩
    · constructor
      · rintro ⟨r, hr⟩
        rw [hfailure] at hr
        cases hr
      · intro hds
        exact absurd (hds before d after rfl) hd
    · intro r hr
      rw [hfailure] at hr
      cases hr
    · intro failure'
      constructor
      · intro h
        exact ⟨before, d, after, rfl, hbefore, hd, (build_eq_error_iff hbefore hd).1 h⟩
      · -- no other place is the first one, as a table has one result
        rintro ⟨before', d', after', hsplit, hbefore', hd', hfault⟩
        rw [hsplit]
        exact (build_eq_error_iff hbefore' hd').2 hfault

/-- A table with an alias of a function and an alias of that alias is built, and one more alias
with another arity is the first that is not acceptable. -/
theorem build_iff_wellFormed_aliases :
    let ds : List Declaration :=
      [.function "builtin_add" "Plus" 2 .atLeast (some 3), .synonym "builtin_add" "Sum" 2 .atLeast,
        .operator .infixed 70 "Plus", .synonym "Sum" "Total" 2 .atLeast]
    let d : Declaration := .synonym "builtin_add" "Bad" 1 .atLeast
    (WellFormed ds ∧ ∃ r, build ds = .ok r ∧ r.Represents ds ∧ r.names = ["Plus", "Sum", "Total"]) ∧
      ∃ before d' after, ds ++ [d] = before ++ d' :: after ∧ WellFormed before ∧
        ¬ Acceptable before d' ∧
        Fault before d' (.aliasMismatch "Bad" 1 .atLeast "Plus" 2 .atLeast) := by
  intro ds d
  have hbuild : ∃ r, build ds = .ok r ∧ r.names = ["Plus", "Sum", "Total"] := ⟨_, rfl, rfl⟩
  obtain ⟨r, hr, hnames⟩ := hbuild
  refine ⟨⟨(build_iff_wellFormed ds).1.1 ⟨r, hr⟩, r, hr, ?_, hnames⟩, ?_⟩
  · exact (build_iff_wellFormed ds).2.1 r hr
  · let mismatch : Failure := .aliasMismatch "Bad" 1 .atLeast "Plus" 2 .atLeast
    have hwritable : mismatch.writable = true := by
      simp [mismatch, Failure.writable, Num.intWritable, Num.lt_digitBound]
    have hfailure : build (ds ++ [d]) = .error mismatch.reported := rfl
    rw [Failure.reported_of_writable hwritable] at hfailure
    exact ((build_iff_wellFormed (ds ++ [d])).2.2 _).1 hfailure

end Registry

end TermCalc
