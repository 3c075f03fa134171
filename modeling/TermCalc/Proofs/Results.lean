import TermCalc.Evaluation.Outcome

/-!
# Results and outcomes

What can be said of a result or an outcome without looking at what made it.

* `Within`: a result is a value of some set or a failure of some set.
* `Results`, `Outcomes`: two results, or two outcomes, that agree.
* `Failure.ofReading`, `Failure.reportable`: the failures that reading a source ends in, and those
  that running a program does.
* `Failure.holds_reported`: what is known of a failure as it is reported.
-/

namespace TermCalc

theorem bind_eq_ok_iff {ε α β : Type} {x : Except ε α} {f : α → Except ε β} {b : β} :
    (x >>= f) = .ok b ↔ ∃ a, x = .ok a ∧ f a = .ok b := by
  cases x <;> simp [bind, Except.bind]

theorem bind_eq_error_iff {ε α β : Type} {x : Except ε α} {f : α → Except ε β} {e : ε} :
    (x >>= f) = .error e ↔ x = .error e ∨ ∃ a, x = .ok a ∧ f a = .error e := by
  cases x <;> simp [bind, Except.bind]

/-- Two options that are the same once mapped. -/
theorem cases_of_map_eq {α β : Type} {f : α → β} {x y : Option α} (h : x.map f = y.map f) :
    x = none ∧ y = none ∨ ∃ a b, x = some a ∧ y = some b ∧ f a = f b := by
  cases x <;> cases y <;> simp_all

/-- **A value in `Q` or a failure in `F`.** -/
def Within {α : Type} (F : Failure → Prop) (Q : α → Prop) (x : Except Failure α) : Prop :=
  match x with
  | .ok a => Q a
  | .error e => F e

namespace Within

variable {α β : Type} {F : Failure → Prop} {P : α → Prop} {Q : β → Prop}

theorem bind {x : Except Failure α} {f : α → Except Failure β} (hx : Within F P x)
    (hf : ∀ a, P a → Within F Q (f a)) : Within F Q (x >>= f) := by
  cases x with
  | ok a => exact hf a hx
  | error e => exact hx

theorem ite {c : Prop} [Decidable c] {x y : Except Failure α} (hx : Within F P x)
    (hy : Within F P y) : Within F P (if c then x else y) := by
  split
  · exact hx
  · exact hy

end Within

/-- **Results that agree**: the same failure, or values that are related. -/
inductive Results {α β : Type} (R : α → β → Prop) : Except Failure α → Except Failure β → Prop
  | ok {a : α} {b : β} (h : R a b) : Results R (.ok a) (.ok b)
  | error (e : Failure) : Results R (.error e) (.error e)

namespace Results

theorem of_eq {α : Type} {R : α → α → Prop} (hR : ∀ a, R a a) {x y : Except Failure α}
    (h : x = y) : Results R x y := by
  subst h
  cases x with
  | ok a => exact .ok (hR a)
  | error e => exact .error e

theorem bind {α β γ δ : Type} {R : α → β → Prop} {S : γ → δ → Prop} {x : Except Failure α}
    {y : Except Failure β} {f : α → Except Failure γ} {g : β → Except Failure δ}
    (hx : Results R x y) (hf : ∀ a b, R a b → Results S (f a) (g b)) :
    Results S (x >>= f) (y >>= g) := by
  cases hx with
  | ok h => exact hf _ _ h
  | error e => exact .error e

theorem bind_eq {α β γ : Type} {R : α → β → Prop} {x : Except Failure α} {y : Except Failure β}
    {f : α → Except Failure γ} {g : β → Except Failure γ} (hx : Results R x y)
    (hf : ∀ a b, R a b → f a = g b) : x >>= f = y >>= g := by
  cases hx with
  | ok h => exact hf _ _ h
  | error e => rfl

end Results

namespace Outcome

variable {σ α β : Type} {x : Outcome σ α} {f : α → Action σ β} {s' : σ}

theorem andThen_eq_value {b : β} (h : x.andThen f = .value b s') :
    ∃ a s, x = .value a s ∧ f a s = .value b s' := by
  cases x with
  | value a s => exact ⟨a, s, rfl, h⟩
  | failure | exhausted => cases h

theorem andThen_eq_failure {e : Failure} (h : x.andThen f = .failure e s') :
    x = .failure e s' ∨ ∃ a s, x = .value a s ∧ f a s = .failure e s' := by
  cases x with
  | value a s => exact .inr ⟨a, s, rfl, h⟩
  | failure => cases h; exact .inl rfl
  | exhausted => cases h

end Outcome

/-- **Outcomes that agree**, in states that are related: the same failure, values that are related,
or no end. -/
inductive Outcomes {σ τ α β : Type} (S : σ → τ → Prop) (R : α → β → Prop) :
    Outcome σ α → Outcome τ β → Prop
  | value {a : α} {b : β} {s : σ} {s' : τ} (h : R a b) (hs : S s s') :
    Outcomes S R (.value a s) (.value b s')
  | failure (e : Failure) {s : σ} {s' : τ} (hs : S s s') :
    Outcomes S R (.failure e s) (.failure e s')
  | exhausted : Outcomes S R .exhausted .exhausted

namespace Outcomes

variable {σ τ α β : Type} {S T : σ → τ → Prop} {R Q : α → β → Prop}

theorem eq_failure {e : Failure} {x : Outcome σ α} {s' : τ}
    (h : Outcomes S R x (.failure e s' : Outcome τ β)) : ∃ s, x = .failure e s ∧ S s s' := by
  cases h with
  | failure _ hs => exact ⟨_, rfl, hs⟩

theorem eq_value {x : Outcome σ α} {b : β} {s' : τ} (h : Outcomes S R x (.value b s')) :
    ∃ a s, x = .value a s ∧ R a b ∧ S s s' := by
  cases h with
  | value h hs => exact ⟨_, _, rfl, h, hs⟩

theorem trans {ρ γ : Type} {S' : τ → ρ → Prop} {S'' : σ → ρ → Prop} {R' : β → γ → Prop}
    {R'' : α → γ → Prop} {x : Outcome σ α} {y : Outcome τ β} {z : Outcome ρ γ}
    (h : Outcomes S R x y) (h' : Outcomes S' R' y z)
    (hS : ∀ s s' s'', S s s' → S' s' s'' → S'' s s'')
    (hR : ∀ a b c, R a b → R' b c → R'' a c) : Outcomes S'' R'' x z := by
  cases h with
  | value h hs => cases h' with | value h' hs' => exact .value (hR _ _ _ h h') (hS _ _ _ hs hs')
  | failure e hs => cases h' with | failure _ hs' => exact .failure e (hS _ _ _ hs hs')
  | exhausted => cases h' with | exhausted => exact .exhausted

theorem mono (hS : ∀ s s', S s s' → T s s') (hR : ∀ a b, R a b → Q a b) {x : Outcome σ α}
    {y : Outcome τ β} (h : Outcomes S R x y) : Outcomes T Q x y := by
  cases h with
  | value h hs => exact .value (hR _ _ h) (hS _ _ hs)
  | failure e hs => exact .failure e (hS _ _ hs)
  | exhausted => exact .exhausted

theorem andThen {γ δ : Type} {P : γ → δ → Prop} {x : Outcome σ α} {y : Outcome τ β}
    {f : α → Action σ γ} {g : β → Action τ δ} (h : Outcomes S R x y)
    (hST : ∀ s s', S s s' → T s s')
    (hf : ∀ a b s s', R a b → S s s' → Outcomes T P (f a s) (g b s')) :
    Outcomes T P (x.andThen f) (y.andThen g) := by
  cases h with
  | value h hs => exact hf _ _ _ _ h hs
  | failure e hs => exact .failure e (hST _ _ hs)
  | exhausted => exact .exhausted

end Outcomes

namespace Failure

/-- **The failures of reading a source**: it is faulty, or a number in it is too long. -/
def ofReading : Failure → Bool
  | source .. | tooManyDigits => true
  | _ => false

/-- **The failures of running a program.** -/
def reportable : Failure → Bool
  | source .. | unknownName _ | wrongArity _ | argument _ | divisionByZero | noRealPower ..
  | powerOverflow .. | overflow | tooManyDigits => true
  | _ => false

theorem reportable_of_ofReading {e : Failure} (h : e.ofReading = true) : e.reportable = true := by
  cases e <;> first | rfl | cases h

/-- A failure as it is reported is itself, or the limit of conversion. -/
theorem reported_cases (e : Failure) : e.reported = e ∨ e.reported = .tooManyDigits := by
  unfold reported
  split
  · exact .inl rfl
  · exact .inr rfl

/-- What is true of a failure and of the limit of conversion is true of the failure as reported. -/
theorem holds_reported (P : Failure → Prop) {e : Failure} (he : P e) (hdigits : P .tooManyDigits) :
    P e.reported := by
  rcases e.reported_cases with h | h <;> rw [h]
  · exact he
  · exact hdigits

theorem reported_ne {e e' : Failure} (he : e ≠ e') (hdigits : tooManyDigits ≠ e') :
    e.reported ≠ e' := holds_reported (· ≠ e') he hdigits

theorem ofReading_reported {e : Failure} (h : e.ofReading = true) : e.reported.ofReading = true :=
  holds_reported (·.ofReading = true) h rfl

theorem reportable_reported {e : Failure} (h : e.reportable = true) :
    e.reported.reportable = true := holds_reported (·.reportable = true) h rfl

end Failure

end TermCalc
