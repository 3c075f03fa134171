import TermCalc.Proofs.Registry.History
import TermCalc.Proofs.Registry.Ordering
import TermCalc.Proofs.Registry.Table
import TermCalc.Proofs.Results

/-!
# Registries that find the same

Two registries agree if they find the same entry for every name, and operators of the same
precedence for every spelling. How their listings are ordered does not matter.

* `Operator.unnumbered`, `Registry.Agrees`.
* `Registry.Agrees.exists_operator`, `Registry.Agrees.operatorOf?`,
  `Registry.Agrees.mem_operatorNames`: what else is found alike.
* `Registry.Agrees.of_perm`: **tables that list the same declarations build registries that
  agree.**
-/

namespace TermCalc

/-- An operator without its place in the order of declaration. -/
def Operator.unnumbered (op : Operator) : Operator := { op with order := 0 }

theorem Operator.unnumbered_eq_iff {op op' : Operator} : op.unnumbered = op'.unnumbered ↔
    op.fixity = op'.fixity ∧ op.precedence = op'.precedence ∧ op.name = op'.name := by
  simp [unnumbered]

namespace Registry

/-- **Registries that find the same.** -/
structure Agrees (r r' : Registry) : Prop where
  lookup : ∀ name, r.lookup name = r'.lookup name
  operator : ∀ fixity name, (r.operator? fixity name).map Operator.unnumbered =
    (r'.operator? fixity name).map Operator.unnumbered

namespace Agrees

variable {r r' : Registry}

theorem symm (h : r.Agrees r') : r'.Agrees r :=
  ⟨fun name => (h.lookup name).symm, fun fixity name => (h.operator fixity name).symm⟩

theorem contains (h : r.Agrees r') (name : String) : r.contains name = r'.contains name := by
  rw [Registry.contains, Registry.contains, h.lookup]

/-- An operator of one registry is one of the other. -/
theorem exists_operator (h : r.Agrees r') {fixity : Fixity} {name : String} {op : Operator}
    (hop : r.operator? fixity name = some op) :
    ∃ op', r'.operator? fixity name = some op' ∧ op.unnumbered = op'.unnumbered := by
  have hmap := h.operator fixity name
  rw [hop, Option.map_some] at hmap
  obtain ⟨op', hop', heq⟩ := Option.map_eq_some_iff.1 hmap.symm
  exact ⟨op', hop', heq.symm⟩

/-- Forms are written with the same operators. -/
theorem operatorOf? (h : r.Agrees r') (name : String) (count : Nat) :
    (r.operatorOf? name count).map Operator.unnumbered =
      (r'.operatorOf? name count).map Operator.unnumbered := by
  have hor (x y : Option Operator) : (x.or y).map Operator.unnumbered =
      (x.map Operator.unnumbered).or (y.map Operator.unnumbered) := by cases x <;> rfl
  have hite (c : Prop) [Decidable c] (x : Option Operator) :
      (if c then x else none).map Operator.unnumbered =
        if c then x.map Operator.unnumbered else none := by split <;> rfl
  simp only [Registry.operatorOf?, hor, hite, h.operator]

theorem precedenceOf (h : r.Agrees r') (name : String) (count : Nat) :
    Registry.precedenceOf (r.operatorOf? name count) =
      Registry.precedenceOf (r'.operatorOf? name count) := by
  rcases cases_of_map_eq (h.operatorOf? name count) with ⟨h₁, h₂⟩ | ⟨op, op', h₁, h₂, heq⟩
  · rw [h₁, h₂]
  · rw [h₁, h₂]
    exact (Operator.unnumbered_eq_iff.1 heq).2.1

theorem operatorNames_subset (h : r.Agrees r') {name : String} (hname : name ∈ r.operatorNames) :
    name ∈ r'.operatorNames := by
  rw [mem_operatorNames] at hname ⊢
  obtain ⟨op, hop, rfl⟩ := hname
  -- the operator found for the spelling need not be this one
  have hsome : (r.operator? op.fixity op.name).isSome = true :=
    List.find?_isSome.2 ⟨op, hop, by simp⟩
  obtain ⟨first, hfirst⟩ := Option.isSome_iff_exists.1 hsome
  obtain ⟨op', hop', -⟩ := h.exists_operator hfirst
  obtain ⟨hmem, -, hname⟩ := operator?_eq_some hop'
  exact ⟨op', hmem, hname⟩

/-- The same spellings are known. -/
theorem mem_operatorNames (h : r.Agrees r') (name : String) :
    name ∈ r.operatorNames ↔ name ∈ r'.operatorNames :=
  ⟨h.operatorNames_subset, h.symm.operatorNames_subset⟩

/-- **Tables that list the same declarations** build registries that agree. -/
theorem of_perm {ds ds' : List Declaration} (hp : ds.Perm ds') (hl : LabelsOnce ds)
    (hu : Untagged ds) (h : build ds = .ok r) (h' : build ds' = .ok r') : r.Agrees r' := by
  have hmem : ∀ d ∈ ds, d ∈ ds' := fun _ hd => hp.subset hd
  have hmem' : ∀ d ∈ ds', d ∈ ds := fun _ hd => hp.symm.subset hd
  have hl' : LabelsOnce ds' := (hp.filterMap _).nodup_iff.1 hl
  have hu' : Untagged ds' := fun d hd => hu d (hmem' d hd)
  constructor
  · intro name
    ext e
    rw [lookup_of_build hl hu h, lookup_of_build hl' hu' h']
    exact and_congr_left' ⟨Declares.mono hmem, Declares.mono hmem'⟩
  · intro fixity name
    have hfound {ds ds' : List Declaration} {r r' : Registry} (hmem : ∀ d ∈ ds, d ∈ ds')
        (hu : Untagged ds) (hu' : Untagged ds') (h : build ds = .ok r) (h' : build ds' = .ok r')
        {op : Operator} (hop : r.operator? fixity name = some op) :
        (r'.operator? fixity name).map Operator.unnumbered = some op.unnumbered := by
      have hd := (operator?_of_build hu h).1 ⟨op, hop, rfl⟩
      obtain ⟨op', hop', hprecedence⟩ := (operator?_of_build hu' h').2 (hmem _ hd)
      obtain ⟨-, hf, hn⟩ := operator?_eq_some hop
      obtain ⟨-, hf', hn'⟩ := operator?_eq_some hop'
      rw [hop', Option.map_some, Option.some_inj, Operator.unnumbered_eq_iff]
      exact ⟨hf'.trans hf.symm, hprecedence, hn'.trans hn.symm⟩
    cases hop : r.operator? fixity name with
    | some op => exact (hfound hmem hu hu' h h' hop).symm
    | none =>
      cases hop' : r'.operator? fixity name with
      | none => rfl
      | some op' =>
        have hback := hfound hmem' hu' hu h' h hop'
        rw [hop] at hback
        cases hback

end Agrees

end Registry

end TermCalc
