import TermCalc.Proofs.Evaluation.Lockstep

/-!
# What primitives compute

The primitives without effects, one by one: what can be wrong with their arguments, and what kind of
value they give. Both are left open, so that the primitives are gone through only once: a set of
failures must admit those that the arithmetic ends in, and a set of terms must be closed under what
is built of terms and taken out of them.

* `Failure.Admits`, `Term.Closed`: what is asked of the sets.
* `Primitive.within_compute?`: **every primitive without effects gives a value of the one set or a
  failure of the other.**
* `Num.Clashes`, `Num.Outsizes`, `Overflows`: **where numbers are too large**.
  `overflows_of_compute?`: nothing else is reported so.
* `Primitive.overflows_of_run`, `Primitive.real_of_run_power`: what that says of calls.
-/

namespace TermCalc

/-- **Failures that computing may end in** are among some, overflow apart. -/
structure Failure.Admits (F : Failure → Prop) : Prop where
  argument (fault : ArgumentFault) : F (Failure.argument fault).reported
  divisionByZero : F .divisionByZero
  noRealPower (base exponent : Num) : F (Failure.noRealPower base exponent).reported
  powerOverflow (base exponent : Num) : F (Failure.powerOverflow base exponent).reported

/-- **Terms that are closed** under what values are built of, and under taking items. -/
structure Term.Closed (Q : Term → Prop) : Prop where
  truth (b : Bool) : Q (.truth b)
  num (n : Num) : Q (.num n)
  str (s : String) : Q (.str s)
  atom (name : String) : Q (.atom name .none)
  list {items : List Term} (h : ∀ t ∈ items, Q t) : Q (.list items)
  item {items : List Term} (h : Q (.list items)) {t : Term} (ht : t ∈ items) : Q t

/-- All terms are closed. -/
theorem Term.closed_true : Term.Closed fun _ => True := by
  constructor <;> intros <;> trivial

/-! ### Numbers that are too large -/

namespace Num

/-- An integer beyond the range of doubles meets a double. -/
def Clashes (a b : Num) : Prop :=
  (∃ z, a = .int z ∧ doubleOfInt? z = none ∧ ∀ y, b ≠ .int y) ∨
    ∃ z, b = .int z ∧ doubleOfInt? z = none ∧ ∀ y, a ≠ .int y

/-- The quotient of two integers is no integer and beyond the range of doubles. -/
def Outsizes (a b : Num) : Prop :=
  ∃ n d, a = .int n ∧ b = .int d ∧ n % d ≠ 0 ∧
    (nearestDouble ((n < 0) != (d < 0)) n.natAbs d.natAbs).isInf = true

theorem exists_of_toDouble?_eq_none {a : Num} (h : a.toDouble? = none) :
    ∃ z, a = .int z ∧ doubleOfInt? z = none := by
  cases a with
  | int z => exact ⟨z, rfl, h⟩
  | float | nan => cases h

/-- An operation in doubles overflows where one operand is an integer and too large for that. -/
theorem clashes_of_toDouble? {a b : Num} (hints : ∀ x y, a = .int x → b ≠ .int y)
    {f : Float → Float → Num} (h : (do
      let x ← a.toDouble?
      let y ← b.toDouble?
      return f x y) = none) : a.Clashes b := by
  cases ha : a.toDouble? with
  | none =>
    obtain ⟨z, rfl, hz⟩ := exists_of_toDouble?_eq_none ha
    exact .inl ⟨z, rfl, hz, fun y => hints z y rfl⟩
  | some x =>
    cases hb : b.toDouble? with
    | none =>
      obtain ⟨z, rfl, hz⟩ := exists_of_toDouble?_eq_none hb
      exact .inr ⟨z, rfl, hz, fun y hy => hints y z hy rfl⟩
    | some y => simp [ha, hb] at h

theorem clashes_of_lift₂ {onInt : Int → Int → Int} {onFloat : Float → Float → Float} {a b : Num}
    (h : lift₂ onInt onFloat a b = none) : a.Clashes b := by
  unfold lift₂ at h
  split at h
  · cases h
  · rename_i hints
    exact clashes_of_toDouble? (fun x y hx hy => hints x y hx hy) h

theorem clashes_or_outsizes_of_divide {a b : Num} (h : a.divide b = none) :
    a.Clashes b ∨ a.Outsizes b := by
  unfold divide at h
  split at h
  · rename_i n d
    split at h
    · cases h
    · rename_i hrest
      dsimp only at h
      split at h
      · rename_i hinf
        exact .inr ⟨n, d, rfl, rfl, hrest, hinf⟩
      · cases h
  · rename_i hints
    exact .inl (clashes_of_toDouble? (fun x y hx hy => hints x y hx hy) h)

end Num

/-- **Where numbers are too large**: for the arithmetic of an integer and a double, for a quotient
of integers, and for factorials. -/
def Overflows (p : Primitive) (args : List Term) : Prop :=
  match p, args with
  | .add, [.num a, .num b] | .subtract, [.num a, .num b] | .multiply, [.num a, .num b]
  | .minus, [.num a, .num b] => a.Clashes b
  | .divide, [.num a, .num b] => a.Clashes b ∨ a.Outsizes b
  | .factorial, [.num (.int n)] => factorialLimit < n
  | _, _ => False

/-! ### Arguments -/

section

variable {F : Failure → Prop} {Q : Term → Prop} {args : List Term}

theorem within_one (hcount : args.length ≠ 1 → F .cannotUnpack) :
    Within F (fun a => args = [a]) (one args) := by
  unfold one
  split
  · rfl
  · rename_i hne
    exact hcount fun hlen => by
      obtain ⟨a, rfl⟩ := List.length_eq_one_iff.1 hlen
      exact hne a rfl

theorem within_two (hcount : args.length ≠ 2 → F .cannotUnpack) :
    Within F (fun x => args = [x.1, x.2]) (two args) := by
  unfold two
  split
  · rfl
  · rename_i hne
    exact hcount fun hlen => by
      obtain ⟨a, b, rfl⟩ := List.length_eq_two.1 hlen
      exact hne a b rfl

theorem within_three (hcount : args.length ≠ 3 → F .cannotUnpack) :
    Within F (fun _ => True) (three args) := by
  unfold three
  split
  · trivial
  · rename_i hne
    exact hcount fun hlen => by
      obtain ⟨a, b, c, rfl⟩ := List.length_eq_three.1 hlen
      exact hne a b c rfl

variable (hF : Failure.Admits F)
include hF

theorem within_numberArg (op : String) (t : Term) :
    Within F (fun n => t = .num n) (numberArg op t) := by
  unfold numberArg
  split
  · rfl
  · exact hF.argument _

theorem within_stringArg (op : String) (t : Term) :
    Within F (fun _ => True) (stringArg op t) := by
  unfold stringArg
  split
  · trivial
  · exact hF.argument _

theorem within_integerArg (op : String) (t : Term) :
    Within F (fun n => t = .num (.int n)) (integerArg op t) := by
  unfold integerArg
  split
  · rfl
  · exact hF.argument _

theorem within_truthArg (t : Term) : Within F (fun _ => True) (truthArg t) := by
  unfold truthArg
  split
  · trivial
  · exact hF.argument _

theorem within_twoNumbers (op : String) (hcount : args.length ≠ 2 → F .cannotUnpack) :
    Within F (fun x => args = [.num x.1, .num x.2]) (twoNumbers op args) := by
  refine .bind (within_two hcount) fun x hx => ?_
  refine .bind (within_numberArg hF op x.1) fun a ha => ?_
  refine .bind (within_numberArg hF op x.2) fun b hb => ?_
  show args = [.num a, .num b]
  rw [hx, ha, hb]

/-! ### Values -/

variable (hQ : Term.Closed Q)
include hQ

omit hF in
theorem within_orOverflow {n : Option Num} (h : n = none → F .overflow) :
    Within F Q (orOverflow n) := by
  cases n with
  | some n => exact hQ.num n
  | none => exact h rfl

theorem within_arithmetic (op : String) {f : Num → Num → Option Num}
    (hcount : args.length ≠ 2 → F .cannotUnpack)
    (h : ∀ a b, args = [.num a, .num b] → f a b = none → F .overflow) :
    Within F Q (arithmetic op f args) :=
  .bind (within_twoNumbers hF op hcount) fun x hx => within_orOverflow hQ (h x.1 x.2 hx)

theorem within_comparison (op : String) (f : Num → Num → Bool)
    (hcount : args.length ≠ 2 → F .cannotUnpack) : Within F Q (comparison op f args) :=
  .bind (within_twoNumbers hF op hcount) fun _ _ => hQ.truth _

theorem within_unary (op : String) (f : Num → Num)
    (hcount : args.length ≠ 1 → F .cannotUnpack) : Within F Q (unary op f args) :=
  .bind (within_one hcount) fun _ _ => .bind (within_numberArg hF op _) fun _ _ => hQ.num _

theorem within_difference
    (hcount : (args.length == 1 || args.length == 2) = false → F .cannotUnpack)
    (h : Overflows .minus args → F .overflow) : Within F Q (difference args) := by
  unfold difference
  split
  · exact within_unary hF hQ _ _ fun hlen => absurd rfl hlen
  · rename_i hne
    have hone : args.length ≠ 1 := fun hlen => by
      obtain ⟨a, rfl⟩ := List.length_eq_one_iff.1 hlen
      exact hne a rfl
    refine within_arithmetic hF hQ _ (fun hlen => hcount (by simp [hone, hlen])) ?_
    rintro a b rfl hnone
    exact h (Num.clashes_of_lift₂ hnone)

theorem within_quotient (hcount : args.length ≠ 2 → F .cannotUnpack)
    (h : Overflows .divide args → F .overflow) : Within F Q (quotient args) := by
  refine .bind (within_twoNumbers hF _ hcount) fun x hx => ?_
  obtain ⟨a, b⟩ := x
  subst hx
  exact .ite hF.divisionByZero
    (within_orOverflow hQ fun hnone => h (Num.clashes_or_outsizes_of_divide hnone))

theorem within_powerOf (hcount : args.length ≠ 2 → F .cannotUnpack) :
    Within F Q (powerOf args) := by
  refine .bind (within_twoNumbers hF _ hcount) fun x _ =>
    .ite hF.divisionByZero (.ite (hF.noRealPower _ _) ?_)
  cases x.1.power x.2 with
  | some n => exact hQ.num n
  | none => exact hF.powerOverflow _ _

theorem within_factorialOf (hcount : args.length ≠ 1 → F .cannotUnpack)
    (h : Overflows .factorial args → F .overflow) : Within F Q (factorialOf args) := by
  refine .bind (within_one hcount) fun a ha => .bind (within_integerArg hF _ a) fun n hn => ?_
  refine .ite (hF.argument _) ?_
  split
  · rename_i hlimit
    subst ha hn
    exact h hlimit
  · exact hQ.num _

theorem within_lengthOf (hcount : args.length ≠ 1 → F .cannotUnpack) :
    Within F Q (lengthOf args) := by
  refine .bind (within_one hcount) fun a _ => ?_
  split
  · exact hQ.num _
  · exact hQ.num _
  · exact hF.argument _

omit hQ in
theorem within_mapM_stringArg (op : String) (ts : List Term) :
    Within F (fun _ => True) (ts.mapM (stringArg op)) := by
  induction ts with
  | nil => trivial
  | cons t ts ih =>
    rw [List.mapM_cons]
    exact .bind (within_stringArg hF op t) fun _ _ => .bind ih fun _ _ => trivial

theorem within_joined : Within F Q (joined args) :=
  .bind (within_mapM_stringArg hF _ args) fun _ _ => hQ.str _

theorem within_substring (hcount : args.length ≠ 3 → F .cannotUnpack) :
    Within F Q (substring args) :=
  .bind (within_three hcount) fun _ _ => .bind (within_integerArg hF _ _) fun _ _ =>
    .bind (within_integerArg hF _ _) fun _ _ => .bind (within_stringArg hF _ _) fun _ _ =>
      .ite (hF.argument _) (hQ.str _)

theorem within_nameOf (hcount : args.length ≠ 1 → F .cannotUnpack) :
    Within F Q (nameOf args) := by
  refine .bind (within_one hcount) fun a _ => ?_
  split
  · exact hQ.str _
  · exact hF.argument _

theorem within_negation (hcount : args.length ≠ 1 → F .cannotUnpack) :
    Within F Q (negation args) :=
  .bind (within_one hcount) fun _ _ => .bind (within_truthArg hF _) fun _ _ => hQ.truth _

theorem within_atomOf (hcount : args.length ≠ 1 → F .cannotUnpack) : Within F Q (atomOf args) :=
  .bind (within_one hcount) fun _ _ => .bind (within_stringArg hF _ _) fun _ _ => hQ.atom _

theorem within_itemOf (hargs : ∀ t ∈ args, Q t) (hcount : args.length ≠ 2 → F .cannotUnpack) :
    Within F Q (itemOf args) := by
  refine .bind (within_two hcount) fun x hx => ?_
  have hlist : Q x.1 := hargs x.1 (by simp [hx])
  dsimp only
  split
  · rename_i items hitems
    refine .bind (within_integerArg hF _ _) fun n _ => ?_
    split
    · rename_i item hitem
      have hmem : item ∈ items := by
        split at hitem
        · cases hitem
        · exact List.mem_of_getElem? hitem
      exact hQ.item (hitems ▸ hlist) hmem
    · exact hF.argument _
  · exact hF.argument _

omit hF in
/-- Equality, and the value made of its answer. -/
theorem within_equality (hargs : ∀ t ∈ args, Q t) (hcount : args.length ≠ 2 → F .cannotUnpack)
    (hequal : ∀ a b, Q a → Q b → a.equal? b = none → F .bareValue) (value : Bool → Bool) :
    Within F Q (do
      let (a, b) ← two args
      let same ← equality a b
      return .truth (value same)) := by
  refine .bind (within_two hcount) fun x hx => ?_
  have hsame : Within F (fun _ => True) (equality x.1 x.2) := by
    unfold equality
    split
    · trivial
    · rename_i hnone
      exact hequal _ _ (hargs x.1 (by simp [hx])) (hargs x.2 (by simp [hx])) hnone
  exact .bind hsame fun _ _ => hQ.truth _

/-- **What primitives without effects compute.** -/
theorem Primitive.within_compute? {p : Primitive} {compute : List Term → Computed}
    (hp : p.compute? = some compute) (hargs : ∀ t ∈ args, Q t)
    (hcount : p.takes args.length = false → F .cannotUnpack)
    (hequal : ∀ a b, Q a → Q b → a.equal? b = none → F .bareValue)
    (hoverflow : Overflows p args → F .overflow) : Within F Q (compute args) := by
  -- most primitives unpack one number of arguments, and `takes` says which
  have hunpack {n : Nat} (hn : p.takes args.length = (args.length == n)) :
      args.length ≠ n → F .cannotUnpack := fun hne =>
    hcount (by rw [hn]; exact beq_false_of_ne hne)
  cases p <;> cases hp
  case add | subtract | multiply =>
    refine within_arithmetic hF hQ _ (hunpack rfl) ?_
    rintro a b rfl hnone
    exact hoverflow (Num.clashes_of_lift₂ hnone)
  case divide => exact within_quotient hF hQ (hunpack rfl) hoverflow
  case negate | abs => exact within_unary hF hQ _ _ (hunpack rfl)
  case power => exact within_powerOf hF hQ (hunpack rfl)
  case factorial => exact within_factorialOf hF hQ (hunpack rfl) hoverflow
  case minus => exact within_difference hF hQ hcount hoverflow
  case lessThan | greaterThan | lessOrEqual | greaterOrEqual =>
    exact within_comparison hF hQ _ _ (hunpack rfl)
  case equals => exact within_equality hQ hargs (hunpack rfl) hequal id
  case notEquals => exact within_equality hQ hargs (hunpack rfl) hequal (!·)
  case not => exact within_negation hF hQ (hunpack rfl)
  case length => exact within_lengthOf hF hQ (hunpack rfl)
  case concat => exact within_joined hF hQ
  case stringMid => exact within_substring hF hQ (hunpack rfl)
  case atom => exact within_atomOf hF hQ (hunpack rfl)
  case string => exact within_nameOf hF hQ (hunpack rfl)
  case list => exact hQ.list hargs
  case nth => exact within_itemOf hF hQ hargs (hunpack rfl)
  case hold =>
    have hone := within_one (hunpack rfl)
    revert hone
    cases one args with
    | ok a => exact fun (ha : args = [a]) => hargs a (by simp [ha])
    | error e => exact id

end

/-! ### Overflow and powers -/

/-- **Nothing but numbers that are too large is reported as overflow.** -/
theorem overflows_of_compute? {p : Primitive} {compute : List Term → Computed}
    (hp : p.compute? = some compute) {args : List Term} (h : compute args = .error .overflow) :
    Overflows p args := by
  have hadmits : Failure.Admits fun e => e = .overflow → Overflows p args :=
    { argument := fun fault he => absurd he (Failure.reported_ne nofun nofun)
      divisionByZero := nofun
      noRealPower := fun base exponent he => absurd he (Failure.reported_ne nofun nofun)
      powerOverflow := fun base exponent he => absurd he (Failure.reported_ne nofun nofun) }
  have hwithin := Primitive.within_compute? hadmits Term.closed_true hp (fun t _ => trivial)
    (fun _ => nofun) (fun _ _ _ _ _ => nofun) fun ho _ => ho
  rw [h] at hwithin
  exact hwithin rfl

/-- Where there is a power, a base below zero has an exponent that is an integer, and a base of zero
one that is not below zero. -/
theorem real_of_powerOf {args : List Term} {v : Term} (h : powerOf args = .ok v) :
    ∃ base exponent n, args = [.num base, .num exponent] ∧ v = .num n ∧
      (base.isNegative = true → exponent.isFractional = false) ∧
      (base.isZero = true → exponent.isNegative = false) := by
  have hadmits : Failure.Admits fun _ => True := by constructor <;> intros <;> trivial
  have hwithin : Within (fun _ => True) (fun v => ∃ base exponent n,
      args = [.num base, .num exponent] ∧ v = .num n ∧
        (base.isNegative = true → exponent.isFractional = false) ∧
        (base.isZero = true → exponent.isNegative = false)) (powerOf args) := by
    refine .bind (within_twoNumbers hadmits _ fun _ => trivial) fun x hx => ?_
    obtain ⟨base, exponent⟩ := x
    dsimp only
    split
    · trivial
    rename_i hzero
    split
    · trivial
    rename_i hnegative
    split
    · rename_i n hn
      exact ⟨base, exponent, n, hx, rfl, by simpa using hnegative, by simpa using hzero⟩
    · trivial
  rw [h] at hwithin
  exact hwithin

/-! ### As builtins -/

section

variable {σ : Type} [HasWorld σ] {ev : Evaluator σ} {r : Registry} {fuel : Nat} {args : List Term}
  {s s' : σ}

/-- Settling a value does not fail, and leaves a number a number. -/
theorem exists_settle (t : Term) (s : σ) :
    ∃ v s', settle t s = .value v s' ∧ ∀ n, t = .num n → ∃ m, v = .num m := by
  by_cases hnum : ∃ n, t = .num n
  · obtain ⟨n, rfl⟩ := hnum
    rw [settle_num]
    split
    · exact ⟨_, _, rfl, fun _ _ => ⟨_, rfl⟩⟩
    · exact ⟨_, _, rfl, fun _ _ => ⟨_, rfl⟩⟩
  · rw [settle_of_not_num (not_exists.1 hnum)]
    exact ⟨t, s, rfl, fun n hn => absurd ⟨n, hn⟩ hnum⟩

/-- **A builtin without effects overflows only where numbers are too large.** -/
theorem Primitive.overflows_of_run {p : Primitive} {compute : List Term → Computed}
    (hp : p.compute? = some compute) (h : p.run r fuel ev args s = .failure .overflow s') :
    Overflows p args := by
  rw [Primitive.run_of_compute? r fuel hp, Action.bind_apply] at h
  cases hcompute : compute args with
  | error e =>
    rw [hcompute] at h
    cases h
    exact overflows_of_compute? hp hcompute
  | ok v =>
    obtain ⟨v', s₁, hsettle, -⟩ := exists_settle v s
    rw [hcompute] at h
    exact absurd (hsettle.symm.trans h) nofun

/-- **The value of a power is an integer or a double**, and its operands have a real power. -/
theorem Primitive.real_of_run_power {v : Term}
    (h : Primitive.power.run r fuel ev args s = .value v s') :
    ∃ base exponent n, args = [.num base, .num exponent] ∧ v = .num n ∧
      (base.isNegative = true → exponent.isFractional = false) ∧
      (base.isZero = true → exponent.isNegative = false) := by
  rw [Primitive.run_of_compute? r fuel rfl, Action.bind_apply] at h
  cases hcompute : powerOf args with
  | error e =>
    rw [hcompute] at h
    cases h
  | ok u =>
    obtain ⟨base, exponent, n, hargs, rfl, hreal⟩ := real_of_powerOf hcompute
    obtain ⟨v', s₁, hsettle, hnum⟩ := exists_settle (.num n) s
    obtain ⟨m, rfl⟩ := hnum n rfl
    rw [hcompute] at h
    cases hsettle.symm.trans h
    exact ⟨base, exponent, m, hargs, rfl, hreal⟩

end

end TermCalc
