import TermCalc.Proofs.Registry.Building

/-!
# Tables in any order

What a registry that is built can call, and which operators it has, is said by the declarations of
its table whatever their order. A function says what its name calls. An alias repeats the name of a
function, and which one is told by the label that the two declarations share.

* `Registry.lookup_register`, `Registry.operator?_declareOperator`: what is found behind a change.
* `Declares`: the entries of a table. `Bases`: the name that the aliases of a label repeat.
* `Building.Carries`: the invariant of building. `Building.Carries.declare` is its step,
  `Building.Carries.declareAll` the run.
* `Registry.lookup_of_build`, `Registry.operator?_of_build`: **what a built registry finds.**
-/

namespace TermCalc

/-- The start of every label. -/
def labelTag : String := "builtin_"

theorem Primitive.tag_prefix_label (p : Primitive) : labelTag.toList <+: p.label.toList := by
  cases p <;> decide

theorem Primitive.label_of_ofLabel? {label : String} {p : Primitive}
    (h : Primitive.ofLabel? label = some p) : p.label = label := by
  simpa using List.find?_some h

namespace Declaration

/-- The label whose primitive a declaration registers. -/
def label? : Declaration → Option String
  | function label .. => some label
  | _ => none

/-- The name that a declaration makes callable. -/
def callable? : Declaration → Option String
  | function _ name .. | synonym _ name .. => some name
  | _ => none

end Declaration

/-! ### What is found behind a change -/

namespace Registry

variable {r r' : Registry}

/-- **An accepted name** is found from then on, and nothing else is found otherwise. -/
theorem lookup_register {name : String} {i : Option Implementation} {arity : Int} {flags : Flags}
    {maximum : Option Int} {e : Entry} (h : r.register name i arity flags maximum = .ok (r', e))
    (name' : String) : r'.lookup name' = if name' = name then some e else r.lookup name' := by
  obtain ⟨-, hnew, -, -, i, -, rfl, rfl⟩ := register_eq_ok.1 h
  rw [contains, Option.isSome_eq_false_iff, Option.isNone_iff_eq_none, lookup] at hnew
  simp only [lookup, List.find?_append]
  by_cases hname : name' = name
  · subst hname
    rw [hnew]
    simp
  · have hne : (name == name') = false := by simpa using Ne.symm hname
    simp [hname, hne]

/-- What is found behind a registration was found before it, or is the new entry. -/
theorem lookup_of_register {name : String} {i : Option Implementation} {arity : Int}
    {flags : Flags} {maximum : Option Int} {e e' : Entry} {name' : String}
    (h : r.register name i arity flags maximum = .ok (r', e)) (he : r'.lookup name' = some e') :
    r.lookup name' = some e' ∨ e' = e := by
  rw [lookup_register h] at he
  split at he
  · exact .inr (Option.some.inj he).symm
  · exact .inl he

theorem operator?_register {name : String} {i : Option Implementation} {arity : Int}
    {flags : Flags} {maximum : Option Int} {e : Entry}
    (h : r.register name i arity flags maximum = .ok (r', e)) (fixity : Fixity) (name' : String) :
    r'.operator? fixity name' = r.operator? fixity name' := by
  obtain ⟨-, -, -, -, i, -, -, rfl⟩ := register_eq_ok.1 h
  rfl

/-- **An accepted alias** calls what the name calls that it repeats. -/
theorem entry_of_registerAlias {existing new : String} {e : Entry}
    (h : r.registerAlias existing new = .ok (r', e)) :
    ∃ base, r.lookup existing = some base ∧ e = { base with name := new } ∧
      r.register new (some base.implementation) base.arity base.flags
        (base.maximum.map (↑·)) = .ok (r', e) := by
  obtain ⟨-, base, hbase, hr⟩ := registerAlias_eq_ok.1 h
  refine ⟨base, hbase, ?_, hr⟩
  obtain ⟨-, -, -, -, i, hi, rfl, -⟩ := register_eq_ok.1 hr
  cases hi
  obtain ⟨_, _, _, _, maximum⟩ := base
  cases maximum <;> simp

/-- **An accepted operator** is found from then on, and nothing else is found otherwise. -/
theorem operator?_declareOperator {fixity : Fixity} {precedence : Int} {name : String}
    {op : Operator} (h : r.declareOperator fixity precedence name = .ok (r', op))
    (fixity' : Fixity) (name' : String) : r'.operator? fixity' name' =
      if fixity' = fixity ∧ name' = name then some op else r.operator? fixity' name' := by
  obtain ⟨-, hnew, rfl, rfl⟩ := declareOperator_eq_ok.1 h
  simp only [operator?] at hnew ⊢
  rw [List.find?_append]
  by_cases hop : fixity' = fixity ∧ name' = name
  · obtain ⟨rfl, rfl⟩ := hop
    rw [hnew]
    simp
  · have hne : ¬ (fixity = fixity' ∧ name = name') := fun hc => hop ⟨hc.1.symm, hc.2.symm⟩
    simp [hop, hne]

theorem lookup_declareOperator {fixity : Fixity} {precedence : Int} {name : String}
    {op : Operator} (h : r.declareOperator fixity precedence name = .ok (r', op))
    (name' : String) : r'.lookup name' = r.lookup name' := by
  obtain ⟨-, -, -, rfl⟩ := declareOperator_eq_ok.1 h
  rfl

theorem name_of_lookup {name : String} {e : Entry} (h : r.lookup name = some e) :
    e.name = name := by
  simpa using List.find?_some h

end Registry

/-! ### What a table says -/

/-- **The name that the aliases of a label repeat**: that of the function with the label. What is no
label of a primitive is the name itself. -/
def Bases (ds : List Declaration) (label name : String) : Prop :=
  (∃ arity flags maximum, .function label name arity flags maximum ∈ ds) ∨
    name = label ∧ Primitive.ofLabel? label = none

/-- **The entries that a table declares.** -/
inductive Declares (ds : List Declaration) : Entry → Prop
  | function {label name : String} {arity : Int} {flags : Flags} {maximum : Option Int}
      {p : Primitive} (h : .function label name arity flags maximum ∈ ds)
      (hp : Primitive.ofLabel? label = some p) :
      Declares ds ⟨name, .primitive p, arity.toNat, flags, maximum.map Int.toNat⟩
  | synonym {label name : String} {arity : Int} {flags : Flags} {e : Entry}
      (h : .synonym label name arity flags ∈ ds) (hbase : Bases ds label e.name)
      (he : Declares ds e) : Declares ds { e with name }

section Tables

variable {ds ds' : List Declaration}

theorem Bases.mono (hds : ∀ d ∈ ds, d ∈ ds') {label name : String} (h : Bases ds label name) :
    Bases ds' label name :=
  h.imp_left fun ⟨arity, flags, maximum, h⟩ => ⟨arity, flags, maximum, hds _ h⟩

theorem Declares.mono (hds : ∀ d ∈ ds, d ∈ ds') {e : Entry} (h : Declares ds e) :
    Declares ds' e := by
  induction h with
  | function h hp => exact .function (hds _ h) hp
  | synonym h hbase _ ih => exact .synonym (hds _ h) (hbase.mono hds) ih

/-- A name that is declared is the name of some declaration. -/
theorem Declares.callable {e : Entry} (h : Declares ds e) :
    ∃ d ∈ ds, d.callable? = some e.name := by
  cases h with
  | function h => exact ⟨_, h, rfl⟩
  | synonym h => exact ⟨_, h, rfl⟩

/-- No name that a table makes callable looks like a label. -/
def Untagged (ds : List Declaration) : Prop :=
  ∀ d ∈ ds, ∀ name, d.callable? = some name → ¬ labelTag.toList <+: name.toList

/-- What is no label-like name is no label. -/
theorem ofLabel?_of_untagged {name : String} (h : ¬ labelTag.toList <+: name.toList) :
    Primitive.ofLabel? name = none := by
  cases hp : Primitive.ofLabel? name with
  | none => rfl
  | some p =>
    rw [← Primitive.label_of_ofLabel? hp] at h
    exact absurd p.tag_prefix_label h

/-- No label is registered by two functions. -/
abbrev LabelsOnce (ds : List Declaration) : Prop := (ds.filterMap Declaration.label?).Nodup

/-- **Where no label is registered twice**, a function is the only one with its label. -/
theorem function_unique (h : LabelsOnce ds) {label name name' : String} {arity arity' : Int}
    {flags flags' : Flags} {maximum maximum' : Option Int}
    (hd : .function label name arity flags maximum ∈ ds)
    (hd' : .function label name' arity' flags' maximum' ∈ ds) : name = name' := by
  have hmem {name : String} {arity : Int} {flags : Flags} {maximum : Option Int}
      {ds : List Declaration} (hd : .function label name arity flags maximum ∈ ds) :
      label ∈ ds.filterMap Declaration.label? := List.mem_filterMap.2 ⟨_, hd, rfl⟩
  induction ds with
  | nil => cases hd
  | cons d ds ih =>
    unfold LabelsOnce at h
    rw [List.filterMap_cons] at h
    rcases List.mem_cons.1 hd with rfl | hmore
    · rcases List.mem_cons.1 hd' with heq | hmore'
      · cases heq
        rfl
      · exact absurd (hmem hmore') (List.nodup_cons.1 h).1
    · rcases List.mem_cons.1 hd' with rfl | hmore'
      · exact absurd (hmem hmore) (List.nodup_cons.1 h).1
      · refine ih ?_ hmore hmore'
        split at h
        · exact h
        · exact (List.nodup_cons.1 h).2

end Tables

/-! ### What building does -/

namespace Registry

variable {r r' r'' : Registry}

/-- **What is found stays found.** -/
structure Extends (r r' : Registry) : Prop where
  lookup : ∀ name e, r.lookup name = some e → r'.lookup name = some e
  operator : ∀ fixity name op, r.operator? fixity name = some op →
    r'.operator? fixity name = some op

theorem extends_register {name : String} {i : Option Implementation} {arity : Int} {flags : Flags}
    {maximum : Option Int} {e : Entry} (h : r.register name i arity flags maximum = .ok (r', e)) :
    r.Extends r' := by
  refine ⟨fun name' e' he' => ?_, fun fixity name' op hop => ?_⟩
  · have hne : name' ≠ name := by
      rintro rfl
      have hnew := (register_eq_ok.1 h).2.1
      rw [contains, he'] at hnew
      cases hnew
    rw [lookup_register h, if_neg hne]
    exact he'
  · rw [operator?_register h]
    exact hop

theorem extends_declareOperator {fixity : Fixity} {precedence : Int} {name : String}
    {op : Operator} (h : r.declareOperator fixity precedence name = .ok (r', op)) :
    r.Extends r' := by
  refine ⟨fun name' e' he' => ?_, fun fixity' name' op' hop' => ?_⟩
  · rw [lookup_declareOperator h]
    exact he'
  · have hne : ¬ (fixity' = fixity ∧ name' = name) := by
      rintro ⟨rfl, rfl⟩
      rw [(declareOperator_eq_ok.1 h).2.1] at hop'
      cases hop'
    rw [operator?_declareOperator h, if_neg hne]
    exact hop'

/-- **What a declaration of a table has come to**: the name or the operator is found. -/
def Settled (r : Registry) (ds : List Declaration) : Declaration → Prop
  | .function label name arity flags maximum => ∃ p, Primitive.ofLabel? label = some p ∧
      r.lookup name = some ⟨name, .primitive p, arity.toNat, flags, maximum.map Int.toNat⟩
  | .synonym label name _ _ => ∃ e, Bases ds label e.name ∧ r.lookup e.name = some e ∧
      r.lookup name = some { e with name }
  | .operator fixity precedence name =>
      ∃ op, r.operator? fixity name = some op ∧ op.precedence = precedence
  | .malformed _ => False

theorem Settled.mono {ds ds' : List Declaration} (hr : r.Extends r') (hds : ∀ d ∈ ds, d ∈ ds')
    {d : Declaration} (h : r.Settled ds d) : r'.Settled ds' d := by
  cases d with
  | function =>
    obtain ⟨p, hp, hl⟩ := h
    exact ⟨p, hp, hr.lookup _ _ hl⟩
  | synonym =>
    obtain ⟨e, hbase, hl, hnew⟩ := h
    exact ⟨e, hbase.mono hds, hr.lookup _ _ hl, hr.lookup _ _ hnew⟩
  | operator =>
    obtain ⟨op, hop, hprecedence⟩ := h
    exact ⟨op, hr.operator _ _ _ hop, hprecedence⟩
  | malformed => exact h

end Registry

namespace Building

open Registry

variable {b b' : Building} {ds : List Declaration}

/-- **What holds of a building behind declarations**: each of them has been settled, and nothing is
found that none of them declares. -/
structure Carries (b : Building) (ds : List Declaration) : Prop where
  settled : ∀ d ∈ ds, b.registry.Settled ds d
  declared : ∀ name e, b.registry.lookup name = some e → Declares ds e
  spelled : ∀ fixity name op, b.registry.operator? fixity name = some op →
    .operator fixity op.precedence name ∈ ds
  bases : ∀ label name, b.bases.lookup label = some name →
    ∃ arity flags maximum, .function label name arity flags maximum ∈ ds

theorem carries_empty : empty.Carries [] where
  settled _ h := absurd h List.not_mem_nil
  declared _ _ h := by cases h
  spelled _ _ _ h := by cases h
  bases _ _ h := by cases h

/-- A declaration that is settled is carried along, if all that is new comes from it. -/
theorem Carries.extend (h : b.Carries ds) {d : Declaration} (hr : b.registry.Extends b'.registry)
    (hd : b'.registry.Settled (ds ++ [d]) d)
    (hdeclared : ∀ name e, b'.registry.lookup name = some e →
      b.registry.lookup name = some e ∨ Declares (ds ++ [d]) e)
    (hspelled : ∀ fixity name op, b'.registry.operator? fixity name = some op →
      b.registry.operator? fixity name = some op ∨ d = .operator fixity op.precedence name)
    (hbases : ∀ label name, b'.bases.lookup label = some name →
      b.bases.lookup label = some name ∨
        ∃ arity flags maximum, d = .function label name arity flags maximum) :
    b'.Carries (ds ++ [d]) := by
  have hds : ∀ d' ∈ ds, d' ∈ ds ++ [d] := fun _ => List.mem_append_left _
  have hlast : d ∈ ds ++ [d] := by simp
  refine ⟨fun d' hd' => ?_, fun name e he => ?_, fun fixity name op hop => ?_,
    fun label name hname => ?_⟩
  · rcases List.mem_append.1 hd' with hd' | hd'
    · exact (h.settled d' hd').mono hr hds
    · rw [List.mem_singleton.1 hd']
      exact hd
  · rcases hdeclared name e he with he | he
    · exact (h.declared name e he).mono hds
    · exact he
  · rcases hspelled fixity name op hop with hop | hop
    · exact hds _ (h.spelled fixity name op hop)
    · rw [← hop]
      exact hlast
  · rcases hbases label name hname with hname | ⟨arity, flags, maximum, heq⟩
    · obtain ⟨arity, flags, maximum, hmem⟩ := h.bases label name hname
      exact ⟨arity, flags, maximum, hds _ hmem⟩
    · rw [heq] at hlast ⊢
      exact ⟨arity, flags, maximum, hlast⟩

/-- The name that an alias repeats is the one that its label stands for. -/
theorem Carries.bases_base (h : b.Carries ds) (hu : Untagged ds) {label : String} {e : Entry}
    (he : b.registry.lookup (b.base label) = some e) : Bases ds label e.name := by
  have hname := name_of_lookup he
  unfold base at he hname
  cases hbase : b.bases.lookup label with
  | some name =>
    rw [hbase] at hname
    rw [hname]
    exact .inl (h.bases label name hbase)
  | none =>
    -- the label is itself a name that can be called, and hence no label of a primitive
    rw [hbase, Option.getD_none] at hname
    obtain ⟨d, hd, hcallable⟩ := (h.declared _ e he).callable
    have hnone := ofLabel?_of_untagged (hu d hd _ hcallable)
    rw [hname] at hnone
    exact .inr ⟨hname, hnone⟩

/-- A name that is registered by a declaration is carried along. -/
theorem Carries.register (h : b.Carries ds) {d : Declaration} {name : String}
    {i : Option Implementation} {arity : Int} {flags : Flags} {maximum : Option Int} {e : Entry}
    (hr : b.registry.register name i arity flags maximum = .ok (b'.registry, e))
    (hd : b'.registry.Settled (ds ++ [d]) d) (he : Declares (ds ++ [d]) e)
    (hbases : ∀ label name, b'.bases.lookup label = some name →
      b.bases.lookup label = some name ∨
        ∃ arity flags maximum, d = .function label name arity flags maximum) :
    b'.Carries (ds ++ [d]) := by
  refine h.extend (extends_register hr) hd (fun name' e' he' => ?_) (fun fixity name' op hop => ?_)
    hbases
  · refine (lookup_of_register hr he').imp_right ?_
    rintro rfl
    exact he
  · rw [operator?_register hr] at hop
    exact .inl hop

/-- A label stands for a name as before, or for the one that has been added. -/
theorem lookup_added {bases : List (String × String)} {label name label' name' : String}
    (h : (if (bases.lookup label).isSome then bases else bases ++ [(label, name)]).lookup label' =
      some name') : bases.lookup label' = some name' ∨ label' = label ∧ name' = name := by
  split at h
  · exact .inl h
  · rw [List.lookup_append, Option.or_eq_some_iff] at h
    rcases h with h | ⟨-, h⟩
    · exact .inl h
    · rw [List.lookup_cons] at h
      split at h
      · rename_i heq
        exact .inr ⟨eq_of_beq heq, (Option.some.inj h).symm⟩
      · cases h

theorem Carries.function (h : b.Carries ds) {label name : String} {arity : Int} {flags : Flags}
    {maximum : Option Int} (hd : b.declare (.function label name arity flags maximum) = .ok b') :
    b'.Carries (ds ++ [.function label name arity flags maximum]) := by
  obtain ⟨p, e, hp, hr, hbases⟩ := declare_function_eq_ok hd
  obtain ⟨-, -, -, -, i, hi, he, -⟩ := register_eq_ok.1 hr
  obtain rfl := Option.some.inj hi
  subst he
  have hlast : .function label name arity flags maximum ∈
      ds ++ [.function label name arity flags maximum] := by simp
  refine h.register hr ⟨p, hp, ?_⟩ (.function hlast hp) ?_
  · rw [lookup_register hr, if_pos rfl]
  · intro label' name' hname'
    rw [hbases] at hname'
    refine (lookup_added hname').imp_right ?_
    rintro ⟨rfl, rfl⟩
    exact ⟨arity, flags, maximum, rfl⟩

theorem Carries.synonym (h : b.Carries ds) (hu : Untagged ds) {label name : String} {arity : Int}
    {flags : Flags} (hd : b.declare (.synonym label name arity flags) = .ok b') :
    b'.Carries (ds ++ [.synonym label name arity flags]) := by
  obtain ⟨e', hr, hbases⟩ := declare_synonym_eq_ok hd
  obtain ⟨e, hbase, rfl, hr⟩ := entry_of_registerAlias hr
  have hds : ∀ d' ∈ ds, d' ∈ ds ++ [.synonym label name arity flags] :=
    fun _ => List.mem_append_left _
  have hstands := (h.bases_base hu hbase).mono hds
  have hlast : .synonym label name arity flags ∈ ds ++ [.synonym label name arity flags] := by simp
  refine h.register hr ⟨e, hstands, ?_, ?_⟩
    (.synonym hlast hstands ((h.declared _ e hbase).mono hds)) ?_
  · rw [name_of_lookup hbase]
    exact (extends_register hr).lookup _ _ hbase
  · rw [lookup_register hr, if_pos rfl]
  · intro label' name' hname'
    rw [hbases] at hname'
    exact .inl hname'

theorem Carries.operator (h : b.Carries ds) {fixity : Fixity} {precedence : Int} {name : String}
    (hd : b.declare (.operator fixity precedence name) = .ok b') :
    b'.Carries (ds ++ [.operator fixity precedence name]) := by
  obtain ⟨op, hr, hbases⟩ := declare_operator_eq_ok hd
  have hop := (declareOperator_eq_ok.1 hr).2.2.1
  refine h.extend (extends_declareOperator hr) ⟨op, ?_, by rw [hop]⟩ ?_ ?_ ?_
  · rw [operator?_declareOperator hr, if_pos ⟨rfl, rfl⟩]
  · intro name' e he
    rw [lookup_declareOperator hr] at he
    exact .inl he
  · intro fixity' name' op' hop'
    rw [operator?_declareOperator hr] at hop'
    split at hop'
    · rename_i heq
      cases hop'
      rw [heq.1, heq.2, hop]
      exact .inr rfl
    · exact .inl hop'
  · intro label' name' hname'
    rw [hbases] at hname'
    exact .inl hname'

/-- **A declaration that is carried out** keeps the invariant. -/
theorem Carries.declare (h : b.Carries ds) (hu : Untagged ds) {d : Declaration}
    (hd : b.declare d = .ok b') : b'.Carries (ds ++ [d]) := by
  cases d with
  | function => exact h.function hd
  | synonym => exact h.synonym hu hd
  | operator => exact h.operator hd
  | malformed => cases hd

/-- **Declarations that are carried out** keep it. -/
theorem Carries.declareAll (h : b.Carries ds) {ds' : List Declaration} (hu : Untagged (ds ++ ds'))
    (hd : b.declareAll ds' = .ok b') : b'.Carries (ds ++ ds') := by
  induction ds' generalizing b ds with
  | nil =>
    cases hd
    simpa using h
  | cons d ds' ih =>
    unfold Building.declareAll at hd
    split at hd
    · cases hd
    · rename_i b₁ h₁
      have hfirst : Untagged ds := fun d' hd' => hu d' (List.mem_append_left _ hd')
      rw [← List.singleton_append, ← List.append_assoc] at hu ⊢
      exact ih (h.declare hfirst h₁) hu hd

end Building

/-! ### What a built registry finds -/

namespace Registry

variable {ds : List Declaration} {r : Registry}

/-- What a table has built carries all its declarations. -/
theorem exists_carries_of_build (hu : Untagged ds) (h : build ds = .ok r) :
    ∃ b : Building, b.Carries ds ∧ r = b.registry.freeze := by
  unfold build at h
  split at h
  · cases h
  · rename_i b hb
    cases h
    exact ⟨b, Building.carries_empty.declareAll hu hb, rfl⟩

/-- **A name is found** if and only if the table declares it, and as the table declares it. -/
theorem lookup_of_build (hl : LabelsOnce ds) (hu : Untagged ds) (h : build ds = .ok r)
    {name : String} {e : Entry} :
    r.lookup name = some e ↔ Declares ds e ∧ e.name = name := by
  obtain ⟨b, hb, rfl⟩ := exists_carries_of_build hu h
  refine ⟨fun he => ⟨hb.declared name e he, name_of_lookup he⟩, ?_⟩
  rintro ⟨he, rfl⟩
  induction he with
  | function hd hp =>
    obtain ⟨p, hp', hlookup⟩ := hb.settled _ hd
    obtain rfl := Option.some.inj (hp.symm.trans hp')
    exact hlookup
  | synonym hd hbase _ ih =>
    -- the alias repeats some name that its label stands for, and a label stands for one only
    obtain ⟨e', hbase', hlookup', hlookup⟩ := hb.settled _ hd
    obtain ⟨arity, flags, maximum, hf⟩ | ⟨hname, hnone⟩ := hbase
    all_goals obtain ⟨arity', flags', maximum', hf'⟩ | ⟨hname', hnone'⟩ := hbase'
    · rw [← function_unique hl hf hf'] at hlookup'
      obtain rfl := Option.some.inj (ih.symm.trans hlookup')
      exact hlookup
    · obtain ⟨p, hp, -⟩ := hb.settled _ hf
      rw [hnone'] at hp
      cases hp
    · obtain ⟨p, hp, -⟩ := hb.settled _ hf'
      rw [hnone] at hp
      cases hp
    · rw [hname', ← hname] at hlookup'
      obtain rfl := Option.some.inj (ih.symm.trans hlookup')
      exact hlookup

/-- **An operator is found** if and only if the table declares it, with the precedence that the
table gives it. -/
theorem operator?_of_build (hu : Untagged ds) (h : build ds = .ok r) {fixity : Fixity}
    {name : String} {precedence : Int} :
    (∃ op, r.operator? fixity name = some op ∧ op.precedence = precedence) ↔
      .operator fixity precedence name ∈ ds := by
  obtain ⟨b, hb, rfl⟩ := exists_carries_of_build hu h
  constructor
  · rintro ⟨op, hop, rfl⟩
    exact hb.spelled fixity name op hop
  · intro hd
    exact hb.settled _ hd

end Registry

end TermCalc
