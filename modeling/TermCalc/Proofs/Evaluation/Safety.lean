import TermCalc.Proofs.Evaluation.Computing
import TermCalc.Proofs.Term.Printing

/-!
# What an evaluation can end in

Over the core table an evaluation of a proper term, with proper values assigned, gives a proper
value and leaves proper values assigned. Such terms can be compared and printed, and every builtin
unpacks what its entry accepts; so an evaluation fails in no way but those that are meant.

* `World.Proper`: worlds in which every assigned value is proper.
* `safety`, `laws_safety`: the relation of a world and a term to themselves where they are proper,
  and that it is kept by the parts of an evaluation.
* `CoreTable.takes_of_accepts`: **entries accept only what their primitives unpack.**
-/

namespace TermCalc

/-- **Every value that is assigned is proper.** -/
def World.Proper (w : World) : Prop :=
  ∀ name v, w.globals.get? name = some v → v.isProper = true

namespace World.Proper

variable {w : World}

theorem assign (h : w.Proper) (name : String) {v : Term} (hv : v.isProper = true) :
    (w.assign name v).Proper :=
  w.forall_assign h hv

theorem atomValue (h : w.Proper) (name : String) (pos : Pos) :
    (w.atomValue name (.atom name pos)).isProper = true :=
  w.holds_atomValue h (fun _ => rfl) name (Term.isProper_of_isTree rfl)

end World.Proper

/-! ### The table -/

/-- Whether a primitive unpacks every number of arguments. -/
def Primitive.takesAny : Primitive → Bool
  | .and | .or | .concat | .write | .newLine | .list | .prog => true
  | _ => false

theorem Primitive.takes_of_takesAny {p : Primitive} (h : p.takesAny = true) (n : Nat) :
    p.takes n = true := by
  cases p <;> first | rfl | cases h

/-- Whether a primitive unpacks the numbers of arguments that an entry accepts. -/
def Entry.fits (e : Entry) : Bool :=
  match e.implementation with
  | .routine .. => false
  | .primitive p =>
    p.takesAny ||
      match e.flags.variadic, e.maximum with
      | true, some maximum => (List.range (maximum + 1)).all fun n => n < e.arity || p.takes n
      | true, none => false
      | false, _ => p.takes e.arity

theorem Entry.takes_of_fits {e : Entry} (h : e.fits = true) {p : Primitive}
    (hp : e.implementation = .primitive p) {n : Nat} (ha : e.accepts n = true) :
    p.takes n = true := by
  simp only [fits, hp, Bool.or_eq_true] at h
  rcases h with hany | h
  · exact p.takes_of_takesAny hany n
  · unfold accepts at ha
    cases hv : e.flags.variadic with
    | false =>
      simp only [hv, Bool.false_eq_true, if_false, beq_iff_eq, Int.natCast_inj] at ha h
      rw [ha]
      exact h
    | true =>
      cases hm : e.maximum with
      | none => simp [hv, hm] at h
      | some maximum =>
        simp only [hv, hm, if_true, Bool.and_eq_true, Bool.not_eq_true', decide_eq_false_iff_not,
          decide_eq_true_eq, Int.ofNat_lt, Int.ofNat_le] at ha
        simp only [hv, hm, List.all_eq_true, List.mem_range] at h
        have hn := h n (by omega)
        simpa [Nat.not_lt.2 ha.2] using hn

namespace CoreTable

/-- **Entries accept only what their primitives unpack.** -/
theorem takes_of_accepts {name : String} {e : Entry} (he : coreRegistry.lookup name = some e)
    {p : Primitive} (hp : e.implementation = .primitive p) {n : Nat} (ha : e.accepts n = true) :
    p.takes n = true := by
  have hall : coreRegistry.entries.all Entry.fits = true := by
    rw [entries_eq]
    rfl
  rw [Registry.lookup] at he
  exact Entry.takes_of_fits (List.all_eq_true.1 hall e (List.mem_of_find?_eq_some he)) hp ha

end CoreTable

/-! ### The relation -/

/-- **A proper world, and a proper term.** Only what is meant to may arise. -/
def safety : Lockstep where
  worlds w w' := w = w' ∧ w.Proper
  terms t u := t = u ∧ t.isProper = true
  allowed e := e.reportable = true

theorem safety_self {ts us : List Term} :
    List.Forall₂ safety.terms ts us ↔ ts = us ∧ ∀ t ∈ ts, t.isProper = true := by
  constructor
  · intro h
    induction h with
    | nil => exact ⟨rfl, by simp⟩
    | cons ht _ ih => exact ⟨by rw [ht.1, ih.1], List.forall_mem_cons.2 ⟨ht.2, ih.2⟩⟩
  · rintro ⟨rfl, h⟩
    exact List.forall₂_same.2 fun t ht => ⟨rfl, h t ht⟩

theorem admits_reportable : Failure.Admits fun e => e.reportable = true where
  argument _ := Failure.reportable_reported rfl
  divisionByZero := rfl
  noRealPower _ _ := Failure.reportable_reported rfl
  powerOverflow _ _ := Failure.reportable_reported rfl

theorem closed_isProper : Term.Closed fun t => t.isProper = true where
  truth _ := rfl
  num _ := rfl
  str _ := rfl
  atom _ := Term.isProper_of_isTree rfl
  list h := Term.allProper_iff.2 h
  item h _ ht := Term.allProper_iff.1 h _ ht

theorem safety_compute {p : Primitive} {compute : List Term → Computed}
    (hp : p.compute? = some compute) {ts : List Term} (hts : ∀ t ∈ ts, t.isProper = true)
    (htakes : p.takes ts.length = false → safety.allowed .cannotUnpack) :
    safety.Gives safety.terms (compute ts) (compute ts) := by
  have hequal (a b : Term) (ha : a.isProper = true) (_ : b.isProper = true)
      (h : a.equal? b = none) : Failure.bareValue.reportable = true := by
    obtain ⟨x, hx⟩ := Term.exists_equal?_of_isProper ha b
    rw [hx] at h
    cases h
  have hwithin := Primitive.within_compute? admits_reportable closed_isProper hp hts htakes hequal
    fun _ => rfl
  revert hwithin
  cases compute ts with
  | ok v => exact fun hv => .ok ⟨rfl, hv⟩
  | error e => exact fun he => .error he

/-- **The parts of an evaluation keep worlds and terms proper**, and fail only as they are meant
to. -/
theorem laws_safety : safety.Laws coreRegistry coreRegistry where
  alike h := h.1 ▸ Term.Alike.refl _
  truth _ := ⟨rfl, rfl⟩
  number _ := ⟨rfl, rfl⟩
  string _ := ⟨rfl, rfl⟩
  args h := by
    obtain ⟨heq, hproper⟩ := h
    cases heq
    exact safety_self.2 ⟨rfl, fun t ht => Term.isProper_of_mem_args hproper ht⟩
  atomValue hw name pos _ h := by
    obtain ⟨rfl, hw⟩ := hw
    cases h.1
    exact ⟨rfl, hw.atomValue name pos⟩
  assign hw name v _ h := by
    obtain ⟨rfl, hw⟩ := hw
    obtain ⟨rfl, hv⟩ := h
    exact ⟨rfl, hw.assign name hv⟩
  write hw text := by
    obtain ⟨rfl, hw⟩ := hw
    exact ⟨rfl, hw⟩
  adopt hw _ := by
    obtain ⟨rfl, hw⟩ := hw
    exact ⟨⟨rfl, rfl⟩, rfl, hw⟩
  expr h ht := by
    obtain ⟨e, he, -⟩ := Term.exists_toExpr?_of_isProper h.2
    rw [he] at ht
    cases ht
  print {t _ e _} h ht hu w _ hw := by
    obtain ⟨rfl, hproper⟩ := h
    obtain ⟨rfl, hw⟩ := hw
    cases ht.symm.trans hu
    obtain ⟨e', he', htree⟩ := Term.exists_toExpr?_of_isProper hproper
    cases ht.symm.trans he'
    -- Printing a tree fails at most at a number that is too long.
    have hfailure : (coreRegistry.print e w.output).failure = limit e.writable :=
      Registry.failure_printAt CoreTable.printable htree loosest w.output
    refine ⟨rfl, fun failure hf => ?_, rfl, hw⟩
    rw [hfailure] at hf
    cases hwritable : e.writable <;> rw [hwritable] at hf <;> cases hf
    rfl
  compute hp _ _ h htakes := by
    obtain ⟨rfl, hts⟩ := safety_self.1 h
    exact safety_compute hp hts htakes
  lookup _ := rfl
  callsPrimitives := Registry.build_callsPrimitives build_coreDeclarations
  takes he hp _ ha htakes := by
    rw [CoreTable.takes_of_accepts he hp ha] at htakes
    cases htakes
  unknownName _ := rfl
  wrongArity _ := rfl
  tooManyDigits := rfl
  argument _ := Failure.reportable_reported rfl

end TermCalc
