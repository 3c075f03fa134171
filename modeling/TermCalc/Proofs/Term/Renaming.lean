import TermCalc.Evaluation.Strict
import TermCalc.Proofs.Results
import TermCalc.Proofs.Term.Places

/-!
# Marks are names

Which mark a NaN has says no more than that it is the same NaN wherever the mark is met. What is
computed from terms whose marks have been renamed, one by one, is the same thing renamed.

* `Num.rename`, `Term.rename`, `Failure.rename`: other marks for the NaNs of a number, of a term and
  of a failure.
* `Term.equal?_rename`: **equality does not depend on marks**, but on which of them are the same.
* `Primitive.renames_compute?`: **nor does what a primitive without effects computes**.
* `Term.marksBelow`: whether all marks of a term are below a bound. `Term.rename_of_marksBelow`:
  renaming others leaves the term as it is.
* `shift`: marks moved up from a bound on. `Primitive.marksBelow_of_compute?`: **such a primitive
  gives no mark**.
-/

namespace TermCalc

variable {ρ : Nat → Nat}

/-- The marks from a bound on, moved up. -/
def shift (bound k i : Nat) : Nat := if i < bound then i else i + k

theorem shift_injective (bound k : Nat) : Function.Injective (shift bound k) := by
  intro i j h
  unfold shift at h
  split at h <;> split at h <;> omega

theorem shift_of_lt {bound k i : Nat} (h : i < bound) : shift bound k i = i := if_pos h

theorem shift_add (bound k i : Nat) : shift bound k (bound + i) = bound + k + i := by
  unfold shift
  rw [if_neg (by omega)]
  omega

namespace Num

/-- A number, with another mark if it is a NaN that has one. -/
def rename (ρ : Nat → Nat) : Num → Num
  | nan k => nan (ρ k)
  | n => n

section

variable (ρ : Nat → Nat) (a b : Num)

@[simp] theorem value?_rename : (a.rename ρ).value? = a.value? := by cases a <;> rfl

@[simp] theorem toDouble?_rename : (a.rename ρ).toDouble? = a.toDouble? := by cases a <;> rfl

@[simp] theorem isFresh_rename : (a.rename ρ).isFresh = a.isFresh := by cases a <;> rfl

@[simp] theorem isFractional_rename : (a.rename ρ).isFractional = a.isFractional := by
  cases a <;> rfl

@[simp] theorem writable_rename : (a.rename ρ).writable = a.writable := by cases a <;> rfl

@[simp] theorem text_rename : (a.rename ρ).text = a.text := by cases a <;> rfl

@[simp] theorem equal_rename : (a.rename ρ).equal (b.rename ρ) = a.equal b := by
  cases a <;> cases b <;> rfl

@[simp] theorem less_rename : (a.rename ρ).less (b.rename ρ) = a.less b := by
  cases a <;> cases b <;> rfl

@[simp] theorem lessEq_rename : (a.rename ρ).lessEq (b.rename ρ) = a.lessEq b := by
  rw [lessEq, less_rename, equal_rename, lessEq]

@[simp] theorem isNegative_rename : (a.rename ρ).isNegative = a.isNegative :=
  less_rename ρ a (.int 0)

@[simp] theorem isZero_rename : (a.rename ρ).isZero = a.isZero := equal_rename ρ a (.int 0)

end

theorem rename_id (a : Num) : a.rename id = a := by cases a <;> rfl

theorem same_rename (hρ : Function.Injective ρ) (a b : Num) :
    (a.rename ρ).same (b.rename ρ) = a.same b := by
  cases a with
  | nan j =>
    cases b with
    | nan k =>
      have heq : (ρ j == ρ k) = (j == k) := by
        rw [Bool.eq_iff_iff, beq_iff_eq, beq_iff_eq, hρ.eq_iff]
      exact heq
    | int | float => rfl
  | int | float => cases b <;> rfl

theorem rename_inj (hρ : Function.Injective ρ) {a b : Num} : a.rename ρ = b.rename ρ ↔ a = b := by
  cases a <;> cases b <;> simp [rename, hρ.eq_iff]

/-- Whether the mark of a number, if it has one, is below a bound. -/
def markBelow (bound : Nat) : Num → Bool
  | nan k => k < bound
  | _ => true

theorem rename_of_markBelow {bound : Nat} (hρ : ∀ i, i < bound → ρ i = i) {a : Num}
    (h : a.markBelow bound = true) : a.rename ρ = a := by
  cases a with
  | nan k => rw [rename, hρ k (of_decide_eq_true h)]
  | _ => rfl

/-- Moving marks up does not leave a mark from the bound on as it is. -/
theorem markBelow_of_rename_shift {bound : Nat} {a : Num} (h : a.rename (shift bound 1) = a) :
    a.markBelow bound = true := by
  cases a with
  | nan k =>
    have hk : shift bound 1 k = k := nan.inj h
    unfold shift at hk
    split at hk
    · rename_i hlt
      exact decide_eq_true hlt
    · omega
  | _ => rfl

/-! An operation gives no mark: a NaN that comes out of it is a fresh one. -/

section

variable (ρ : Nat → Nat) (a b : Num)

/-- An operation in doubles. -/
theorem doubles_rename (f : Float → Float → Option Num)
    (hf : ∀ x y n, f x y = some n → n.rename ρ = n) (x y : Option Float) :
    (do let x ← x; let y ← y; f x y) = (do let x ← x; let y ← y; f x y).map (rename ρ) := by
  cases x with
  | none => rfl
  | some x =>
    cases y with
    | none => rfl
    | some y =>
      show f x y = (f x y).map (rename ρ)
      cases hn : f x y with
      | none => rfl
      | some n => rw [Option.map_some, hf x y n hn]

theorem lift₂_rename (onInt : Int → Int → Int) (onFloat : Float → Float → Float) :
    lift₂ onInt onFloat (a.rename ρ) (b.rename ρ) = (lift₂ onInt onFloat a b).map (rename ρ) := by
  have hdoubles := doubles_rename ρ (fun x y => some (.float (onFloat x y))) (by simp [rename])
  cases a with
  | int x =>
    cases b with
    | int y => rfl
    | float | nan => exact hdoubles _ _
  | float | nan => cases b <;> exact hdoubles _ _

theorem divide_rename : (a.rename ρ).divide (b.rename ρ) = (a.divide b).map (rename ρ) := by
  have hdoubles := doubles_rename ρ (fun x y => some (.float (x / y))) (by simp [rename])
  cases a with
  | int n =>
    cases b with
    | int d =>
      simp only [rename, divide]
      split
      · rfl
      · split
        · rfl
        · rfl
    | float | nan => exact hdoubles _ _
  | float | nan => cases b <;> exact hdoubles _ _

theorem power_rename : (a.rename ρ).power (b.rename ρ) = (a.power b).map (rename ρ) := by
  have hdoubles := doubles_rename ρ (fun x y => (floatPower x y).map .float) (by
    intro x y n hn
    obtain ⟨z, -, rfl⟩ := Option.map_eq_some_iff.1 hn
    rfl)
  cases a with
  | int m =>
    cases b with
    | int n =>
      simp only [rename, power]
      split
      · rfl
      · exact hdoubles _ _
    | float | nan => exact hdoubles _ _
  | float | nan => cases b <;> exact hdoubles _ _

theorem negate_rename : (a.rename ρ).negate = a.negate.rename ρ := by cases a <;> rfl

theorem magnitude_rename : (a.rename ρ).magnitude = a.magnitude.rename ρ := by cases a <;> rfl

end

end Num

/-! ### Terms -/

namespace Term

mutual

/-- **A term with other marks** on its NaNs. -/
def rename (ρ : Nat → Nat) : Term → Term
  | num n => num (n.rename ρ)
  | numeral n pos => numeral (n.rename ρ) pos
  | list items => list (renameAll ρ items)
  | form op args pos => form op (renameAll ρ args) pos
  | t => t

/-- Terms with other marks. -/
def renameAll (ρ : Nat → Nat) : List Term → List Term
  | [] => []
  | t :: ts => rename ρ t :: renameAll ρ ts

end

theorem renameAll_eq_map (ts : List Term) : renameAll ρ ts = ts.map (rename ρ) := by
  induction ts with
  | nil => rfl
  | cons t ts ih => rw [renameAll, ih, List.map_cons]

@[simp] theorem length_renameAll (ts : List Term) : (renameAll ρ ts).length = ts.length := by
  rw [renameAll_eq_map, List.length_map]

section

variable (ρ : Nat → Nat) (t : Term)

@[simp] theorem typeName_rename : (t.rename ρ).typeName = t.typeName := by
  cases t with
  | num n => cases n <;> rfl
  | _ => rfl

@[simp] theorem isExpr_rename : (t.rename ρ).isExpr = t.isExpr := by cases t <;> rfl

end

mutual

theorem rename_id (t : Term) : t.rename id = t := by
  cases t with
  | num n => rw [rename, Num.rename_id]
  | numeral n pos => rw [rename, Num.rename_id]
  | list items => rw [rename, renameAll_id items]
  | form op args pos => rw [rename, renameAll_id args]
  | _ => rfl

theorem renameAll_id (ts : List Term) : renameAll id ts = ts := by
  match ts with
  | [] => rfl
  | t :: ts => rw [renameAll, rename_id t, renameAll_id ts]

end

mutual

/-- **Renaming keeps terms apart.** -/
theorem rename_inj (hρ : Function.Injective ρ) {t u : Term} : t.rename ρ = u.rename ρ ↔ t = u := by
  cases t with
  | num m => cases u <;> simp [rename, Num.rename_inj hρ]
  | numeral m p => cases u <;> simp [rename, Num.rename_inj hρ]
  | list xs =>
    cases u with
    | list ys =>
      have hitems : renameAll ρ xs = renameAll ρ ys ↔ xs = ys := renameAll_inj hρ
      simp only [rename, list.injEq, hitems]
    | _ => simp [rename]
  | form f xs p =>
    cases u with
    | form g ys q =>
      have hargs : renameAll ρ xs = renameAll ρ ys ↔ xs = ys := renameAll_inj hρ
      simp only [rename, form.injEq, hargs]
    | _ => simp [rename]
  | _ => cases u <;> simp [rename]

theorem renameAll_inj (hρ : Function.Injective ρ) {ts us : List Term} :
    renameAll ρ ts = renameAll ρ us ↔ ts = us := by
  match ts, us with
  | [], [] => simp
  | [], _ :: _ => simp [renameAll]
  | _ :: _, [] => simp [renameAll]
  | t :: ts, u :: us =>
    have hhead : t.rename ρ = u.rename ρ ↔ t = u := rename_inj hρ
    have htail : renameAll ρ ts = renameAll ρ us ↔ ts = us := renameAll_inj hρ
    simp only [renameAll, List.cons.injEq, hhead, htail]

end

mutual

/-- **Expressions are compared alike** with any marks, if numbers are. -/
theorem matches?_rename {same : Num → Num → Bool}
    (hsame : ∀ m n, same (m.rename ρ) (n.rename ρ) = same m n) (t u : Term) :
    (t.rename ρ).matches? same (u.rename ρ) = t.matches? same u := by
  cases t with
  | form f xs p =>
    cases u with
    | form g ys q =>
      simp only [rename, matches?, length_renameAll, matchAll?_renameAll hsame xs ys]
    | _ => rfl
  | numeral m p =>
    cases u with
    | numeral n q => simp only [rename, matches?, hsame]
    | _ => rfl
  | list | nothing | truth | num | str => simp only [rename, matches?]
  | atom | text => cases u <;> rfl

theorem matchAll?_renameAll {same : Num → Num → Bool}
    (hsame : ∀ m n, same (m.rename ρ) (n.rename ρ) = same m n) (ts us : List Term) :
    matchAll? same (renameAll ρ ts) (renameAll ρ us) = matchAll? same ts us := by
  match ts, us with
  | [], _ => rfl
  | _ :: _, [] => rfl
  | t :: ts, u :: us =>
    simp only [renameAll, matchAll?, matches?_rename hsame t u, matchAll?_renameAll hsame ts us]

end

theorem asNum?_rename (t : Term) : (t.rename ρ).asNum? = t.asNum?.map (Num.rename ρ) := by
  cases t <;> rfl

/-- A number is compared alike with any value. -/
theorem sameNum_rename (hρ : Function.Injective ρ) (m : Num) (u : Term) :
    ((u.rename ρ).asNum?.map (m.rename ρ).same).getD false = (u.asNum?.map m.same).getD false := by
  rw [asNum?_rename, Option.map_map]
  cases u.asNum? with
  | none => rfl
  | some n => exact Num.same_rename hρ m n

mutual

/-- **Values are compared alike** with any marks. -/
theorem sameValue?_rename (hρ : Function.Injective ρ) (t u : Term) :
    (t.rename ρ).sameValue? (u.rename ρ) = t.sameValue? u := by
  cases ht : t.isExpr with
  | true =>
    have ht' : (t.rename ρ).isExpr = true := by rw [isExpr_rename, ht]
    rw [sameValue?_of_isExpr ht, sameValue?_of_isExpr ht', isExpr_rename,
      matches?_rename (Num.same_rename hρ)]
  | false =>
    cases t with
    | nothing | str => cases u <;> rfl
    | truth b =>
      simp only [rename, sameValue?]
      exact congrArg some (sameNum_rename hρ (.int (if b then 1 else 0)) u)
    | num m =>
      simp only [rename, sameValue?]
      exact congrArg some (sameNum_rename hρ m u)
    | list xs =>
      cases u with
      | list ys => simp only [rename, sameValue?, length_renameAll, sameValues?_renameAll hρ xs ys]
      | _ => rfl
    | _ => cases ht

theorem sameValues?_renameAll (hρ : Function.Injective ρ) (ts us : List Term) :
    sameValues? (renameAll ρ ts) (renameAll ρ us) = sameValues? ts us := by
  match ts, us with
  | [], _ => rfl
  | _ :: _, [] => rfl
  | t :: ts, u :: us =>
    simp only [renameAll, sameValues?, rename_inj hρ, sameValue?_rename hρ t u,
      sameValues?_renameAll hρ ts us]

end

mutual

theorem toExpr?_rename (t : Term) : (t.rename ρ).toExpr? = t.toExpr?.map (rename ρ) := by
  cases t with
  | list items =>
    simp only [rename, toExpr?, toExprs?_renameAll items, Option.map_map]
    rfl
  | _ => rfl

theorem toExprs?_renameAll (ts : List Term) :
    toExprs? (renameAll ρ ts) = (toExprs? ts).map (renameAll ρ) := by
  match ts with
  | [] => rfl
  | t :: ts =>
    simp only [renameAll, toExprs?, toExpr?_rename t, toExprs?_renameAll ts]
    cases t.toExpr? <;> cases toExprs? ts <;> rfl

end

/-- **Equality does not depend on marks**, as long as no two of them become one. -/
theorem equal?_rename (hρ : Function.Injective ρ) (a b : Term) :
    (a.rename ρ).equal? (b.rename ρ) = a.equal? b := by
  cases h : a.isExpr || b.isExpr with
  | true =>
    have h' : ((a.rename ρ).isExpr || (b.rename ρ).isExpr) = true := by
      rw [isExpr_rename, isExpr_rename, h]
    rw [equal?_of_isExpr h, equal?_of_isExpr h', toExpr?_rename, toExpr?_rename]
    cases a.toExpr? with
    | none => rfl
    | some x =>
      cases b.toExpr? with
      | none => rfl
      | some y => exact matches?_rename (Num.equal_rename ρ) x y
  | false =>
    obtain ⟨ha, hb⟩ := Bool.or_eq_false_iff.1 h
    cases a with
    | num m =>
      cases b with
      | num n => exact congrArg some (Num.equal_rename ρ m n)
      | nothing | truth | str | list => cases m <;> rfl
      | _ => cases hb
    | list xs =>
      cases b with
      | list ys => simp only [rename, equal?, length_renameAll, sameValues?_renameAll hρ xs ys]
      | num n => cases n <;> rfl
      | nothing | truth | str => rfl
      | _ => cases hb
    | nothing | truth | str =>
      cases b with
      | num n => cases n <;> rfl
      | nothing | truth | str | list => rfl
      | _ => cases hb
    | _ => cases ha

mutual

/-- **Whether all marks of a term are below a bound.** -/
def marksBelow (bound : Nat) : Term → Bool
  | num n | numeral n _ => n.markBelow bound
  | list items => allMarksBelow bound items
  | form _ args _ => allMarksBelow bound args
  | _ => true

/-- Whether all marks of all terms are below a bound. -/
def allMarksBelow (bound : Nat) : List Term → Bool
  | [] => true
  | t :: ts => marksBelow bound t && allMarksBelow bound ts

end

mutual

/-- **Renaming other marks** leaves a term as it is. -/
theorem rename_of_marksBelow {bound : Nat} (hρ : ∀ i, i < bound → ρ i = i) {t : Term}
    (h : t.marksBelow bound = true) : t.rename ρ = t := by
  cases t with
  | num n => rw [rename, Num.rename_of_markBelow hρ h]
  | numeral n pos => rw [rename, Num.rename_of_markBelow hρ h]
  | list items => rw [rename, renameAll_of_allMarksBelow hρ h]
  | form op args pos => rw [rename, renameAll_of_allMarksBelow hρ h]
  | _ => rfl

theorem renameAll_of_allMarksBelow {bound : Nat} (hρ : ∀ i, i < bound → ρ i = i) {ts : List Term}
    (h : allMarksBelow bound ts = true) : renameAll ρ ts = ts := by
  match ts with
  | [] => rfl
  | t :: ts =>
    rw [allMarksBelow, Bool.and_eq_true] at h
    rw [renameAll, rename_of_marksBelow hρ h.1, renameAll_of_allMarksBelow hρ h.2]

end

mutual

/-- **A term that stays as it is when marks are moved up** from a bound on has none of these. -/
theorem marksBelow_of_rename_shift {bound : Nat} {t : Term} (h : t.rename (shift bound 1) = t) :
    t.marksBelow bound = true := by
  cases t with
  | num n => exact Num.markBelow_of_rename_shift (num.inj h)
  | numeral n pos => exact Num.markBelow_of_rename_shift (numeral.inj h).1
  | list items => exact allMarksBelow_of_renameAll_shift (list.inj h)
  | form op args pos => exact allMarksBelow_of_renameAll_shift (form.inj h).2.1
  | _ => rfl

theorem allMarksBelow_of_renameAll_shift {bound : Nat} {ts : List Term}
    (h : renameAll (shift bound 1) ts = ts) : allMarksBelow bound ts = true := by
  match ts with
  | [] => rfl
  | t :: ts =>
    obtain ⟨ht, hts⟩ := List.cons.inj h
    rw [allMarksBelow, marksBelow_of_rename_shift ht, allMarksBelow_of_renameAll_shift hts]
    rfl

end

theorem allMarksBelow_iff {bound : Nat} {ts : List Term} :
    allMarksBelow bound ts = true ↔ ∀ t ∈ ts, t.marksBelow bound = true := by
  induction ts with
  | nil => simp [allMarksBelow]
  | cons t ts ih => simp [allMarksBelow, ih]

theorem marksBelow_mono {bound bound' : Nat} (hle : bound ≤ bound') {t : Term}
    (h : t.marksBelow bound = true) : t.marksBelow bound' = true := by
  have hbelow : ∀ i, i < bound → shift bound' 1 i = i := by
    intro i hi
    exact shift_of_lt (by omega)
  exact marksBelow_of_rename_shift (rename_of_marksBelow hbelow h)

end Term

/-! ### Failures -/

/-- **A failure with other marks** on the numbers that it tells. -/
def Failure.rename (ρ : Nat → Nat) : Failure → Failure
  | noRealPower base exponent => noRealPower (base.rename ρ) (exponent.rename ρ)
  | powerOverflow base exponent => powerOverflow (base.rename ρ) (exponent.rename ρ)
  | e => e

namespace Failure

/-- **Marks do not show** in the wording of a failure. -/
theorem message?_rename (ρ : Nat → Nat) (e : Failure) : (e.rename ρ).message? = e.message? := by
  cases e with
  | noRealPower | powerOverflow => simp only [rename, message?, Num.text_rename]
  | _ => rfl

theorem reported_rename (ρ : Nat → Nat) (e : Failure) :
    (e.rename ρ).reported = e.reported.rename ρ := by
  have hwritable : (e.rename ρ).writable = e.writable := by
    cases e with
    | noRealPower | powerOverflow => simp only [rename, writable, Num.writable_rename]
    | _ => rfl
  unfold reported
  rw [hwritable]
  split <;> rfl

end Failure

/-! ### Primitives without effects -/

/-- **A result and the same with other marks.** -/
inductive Renames {α β : Type} (ρ : Nat → Nat) (R : α → β → Prop) :
    Except Failure α → Except Failure β → Prop
  | ok {a : α} {b : β} (h : R a b) : Renames ρ R (.ok a) (.ok b)
  | error (e : Failure) : Renames ρ R (.error e) (.error (e.rename ρ))

namespace Renames

variable {α β γ δ : Type} {R : α → β → Prop} {S : γ → δ → Prop}

theorem bind {x : Except Failure α} {y : Except Failure β} {f : α → Except Failure γ}
    {g : β → Except Failure δ} (h : Renames ρ R x y)
    (hf : ∀ a b, R a b → Renames ρ S (f a) (g b)) : Renames ρ S (x >>= f) (y >>= g) := by
  cases h with
  | ok h => exact hf _ _ h
  | error e => exact .error e

theorem reported (e : Failure) :
    Renames ρ R (.error e.reported) (.error (e.rename ρ).reported) := by
  rw [Failure.reported_rename]
  exact .error _

/-- A fault in an argument tells no number that could have a mark. -/
theorem badArgument (fault : ArgumentFault) :
    Renames ρ R (TermCalc.badArgument fault) (TermCalc.badArgument fault) :=
  reported (.argument fault)

end Renames

/-- A term and the same with other marks. -/
abbrev Term.Renamed (ρ : Nat → Nat) (t u : Term) : Prop := u = t.rename ρ

open Term (Renamed)

section Arguments

variable (ρ : Nat → Nat) (args : List Term)

theorem renames_one : Renames ρ (Renamed ρ) (one args) (one (args.map (Term.rename ρ))) := by
  rcases args with _ | ⟨a, _ | ⟨b, rest⟩⟩
  · exact .error _
  · exact .ok rfl
  · exact .error _

theorem renames_two : Renames ρ (fun x y => y = (x.1.rename ρ, x.2.rename ρ)) (two args)
    (two (args.map (Term.rename ρ))) := by
  match args with
  | [] => exact .error _
  | [_] => exact .error _
  | [a, b] => exact .ok rfl
  | _ :: _ :: _ :: _ => exact .error _

theorem renames_three :
    Renames ρ (fun x y => y = (x.1.rename ρ, x.2.1.rename ρ, x.2.2.rename ρ)) (three args)
      (three (args.map (Term.rename ρ))) := by
  match args with
  | [] => exact .error _
  | [_] => exact .error _
  | [_, _] => exact .error _
  | [a, b, c] => exact .ok rfl
  | _ :: _ :: _ :: _ :: _ => exact .error _

variable (op : String) (t : Term)

theorem renames_numberArg :
    Renames ρ (fun m n => n = m.rename ρ) (numberArg op t) (numberArg op (t.rename ρ)) := by
  cases t with
  | num n => exact .ok rfl
  | _ => exact .badArgument _

theorem renames_stringArg : Renames ρ Eq (stringArg op t) (stringArg op (t.rename ρ)) := by
  cases t with
  | str s => exact .ok rfl
  | num n => cases n <;> exact .badArgument _
  | _ => exact .badArgument _

theorem renames_integerArg : Renames ρ Eq (integerArg op t) (integerArg op (t.rename ρ)) := by
  cases t with
  | num n =>
    cases n with
    | int z => exact .ok rfl
    | float | nan => exact .badArgument _
  | _ => exact .badArgument _

theorem renames_truthArg : Renames ρ Eq (truthArg t) (truthArg (t.rename ρ)) := by
  cases t with
  | truth b => exact .ok rfl
  | num n => cases n <;> exact .badArgument _
  | _ => exact .badArgument _

theorem renames_twoNumbers :
    Renames ρ (fun x y => y = (x.1.rename ρ, x.2.rename ρ)) (twoNumbers op args)
      (twoNumbers op (args.map (Term.rename ρ))) := by
  refine (renames_two ρ args).bind ?_
  rintro ⟨a, b⟩ _ rfl
  refine (renames_numberArg ρ op a).bind ?_
  rintro x _ rfl
  refine (renames_numberArg ρ op b).bind ?_
  rintro y _ rfl
  exact .ok rfl

end Arguments

section Computing

variable (ρ : Nat → Nat) (args : List Term)

theorem renames_orOverflow (n : Option Num) :
    Renames ρ (Renamed ρ) (orOverflow n) (orOverflow (n.map (Num.rename ρ))) := by
  cases n with
  | none => exact .error _
  | some n => exact .ok rfl

theorem renames_arithmetic (op : String) {f : Num → Num → Option Num}
    (hf : ∀ a b, f (a.rename ρ) (b.rename ρ) = (f a b).map (Num.rename ρ)) :
    Renames ρ (Renamed ρ) (arithmetic op f args) (arithmetic op f (args.map (Term.rename ρ))) := by
  refine (renames_twoNumbers ρ args op).bind ?_
  rintro ⟨x, y⟩ _ rfl
  show Renames ρ (Renamed ρ) (orOverflow (f x y)) (orOverflow (f (x.rename ρ) (y.rename ρ)))
  rw [hf]
  exact renames_orOverflow ρ (f x y)

theorem renames_comparison (op : String) {f : Num → Num → Bool}
    (hf : ∀ a b, f (a.rename ρ) (b.rename ρ) = f a b) :
    Renames ρ (Renamed ρ) (comparison op f args) (comparison op f (args.map (Term.rename ρ))) := by
  refine (renames_twoNumbers ρ args op).bind ?_
  rintro ⟨x, y⟩ _ rfl
  exact .ok (congrArg Term.truth (hf x y))

theorem renames_unary (op : String) {f : Num → Num}
    (hf : ∀ a, f (a.rename ρ) = (f a).rename ρ) :
    Renames ρ (Renamed ρ) (unary op f args) (unary op f (args.map (Term.rename ρ))) := by
  refine (renames_one ρ args).bind ?_
  rintro a _ rfl
  refine (renames_numberArg ρ op a).bind ?_
  rintro x _ rfl
  exact .ok (congrArg Term.num (hf x))

theorem renames_difference :
    Renames ρ (Renamed ρ) (difference args) (difference (args.map (Term.rename ρ))) := by
  rcases args with _ | ⟨a, _ | ⟨b, rest⟩⟩
  · exact renames_arithmetic ρ [] "-" (Num.lift₂_rename ρ · · _ _)
  · exact renames_unary ρ [a] "-" (Num.negate_rename ρ)
  · exact renames_arithmetic ρ (a :: b :: rest) "-" (Num.lift₂_rename ρ · · _ _)

theorem renames_quotient :
    Renames ρ (Renamed ρ) (quotient args) (quotient (args.map (Term.rename ρ))) := by
  refine (renames_twoNumbers ρ args "MathDivide").bind ?_
  rintro ⟨n, d⟩ _ rfl
  dsimp only
  rw [Num.isZero_rename, Num.divide_rename]
  split
  · exact .error _
  · exact renames_orOverflow ρ (n.divide d)

theorem renames_powerOf :
    Renames ρ (Renamed ρ) (powerOf args) (powerOf (args.map (Term.rename ρ))) := by
  refine (renames_twoNumbers ρ args "MathPower").bind ?_
  rintro ⟨base, exponent⟩ _ rfl
  dsimp only
  rw [Num.isZero_rename, Num.isNegative_rename, Num.isNegative_rename, Num.isFractional_rename,
    Num.power_rename]
  split
  · exact .error _
  · split
    · exact .reported (.noRealPower base exponent)
    · cases base.power exponent with
      | none => exact .reported (.powerOverflow base exponent)
      | some n => exact .ok rfl

theorem renames_factorialOf :
    Renames ρ (Renamed ρ) (factorialOf args) (factorialOf (args.map (Term.rename ρ))) := by
  refine (renames_one ρ args).bind ?_
  rintro a _ rfl
  refine (renames_integerArg ρ "Factorial" a).bind ?_
  rintro n _ rfl
  split
  · exact .badArgument _
  · split
    · exact .error _
    · exact .ok rfl

theorem renames_lengthOf :
    Renames ρ (Renamed ρ) (lengthOf args) (lengthOf (args.map (Term.rename ρ))) := by
  refine (renames_one ρ args).bind ?_
  rintro a _ rfl
  cases a with
  | str s => exact .ok rfl
  | list items =>
    simp only [Term.rename, Term.length_renameAll]
    exact .ok rfl
  | num n => cases n <;> exact .badArgument _
  | _ => exact .badArgument _

theorem renames_strings (op : String) :
    Renames ρ Eq (args.mapM (stringArg op)) ((args.map (Term.rename ρ)).mapM (stringArg op)) := by
  induction args with
  | nil => exact .ok rfl
  | cons t ts ih =>
    rw [List.map_cons, List.mapM_cons, List.mapM_cons]
    refine (renames_stringArg ρ op t).bind ?_
    rintro s _ rfl
    refine ih.bind ?_
    rintro ss _ rfl
    exact .ok rfl

theorem renames_joined :
    Renames ρ (Renamed ρ) (joined args) (joined (args.map (Term.rename ρ))) := by
  refine (renames_strings ρ args "Concat").bind ?_
  rintro parts _ rfl
  exact .ok rfl

theorem renames_substring :
    Renames ρ (Renamed ρ) (substring args) (substring (args.map (Term.rename ρ))) := by
  refine (renames_three ρ args).bind ?_
  rintro ⟨a, b, c⟩ _ rfl
  refine (renames_integerArg ρ "StringMid" a).bind ?_
  rintro index _ rfl
  refine (renames_integerArg ρ "StringMid" b).bind ?_
  rintro length _ rfl
  refine (renames_stringArg ρ "StringMid" c).bind ?_
  rintro text _ rfl
  split
  · exact .badArgument _
  · exact .ok rfl

theorem renames_nameOf :
    Renames ρ (Renamed ρ) (nameOf args) (nameOf (args.map (Term.rename ρ))) := by
  refine (renames_one ρ args).bind ?_
  rintro a _ rfl
  cases a with
  | atom name pos => exact .ok rfl
  | num n => cases n <;> exact .badArgument _
  | _ => exact .badArgument _

theorem renames_itemOf :
    Renames ρ (Renamed ρ) (itemOf args) (itemOf (args.map (Term.rename ρ))) := by
  refine (renames_two ρ args).bind ?_
  rintro ⟨a, b⟩ _ rfl
  cases a with
  | list items =>
    refine (renames_integerArg ρ "Nth" b).bind ?_
    rintro n _ rfl
    by_cases hlow : n < 1
    · rw [if_pos hlow, if_pos hlow, Term.length_renameAll]
      exact .badArgument _
    · rw [if_neg hlow, if_neg hlow, Term.length_renameAll, Term.renameAll_eq_map,
        List.getElem?_map]
      cases items[(n - 1).toNat]? with
      | none => exact .badArgument _
      | some item => exact .ok rfl
  | num n => cases n <;> exact .badArgument _
  | _ => exact .badArgument _

theorem renames_negation :
    Renames ρ (Renamed ρ) (negation args) (negation (args.map (Term.rename ρ))) := by
  refine (renames_one ρ args).bind ?_
  rintro a _ rfl
  refine (renames_truthArg ρ a).bind ?_
  rintro b _ rfl
  exact .ok rfl

theorem renames_atomOf :
    Renames ρ (Renamed ρ) (atomOf args) (atomOf (args.map (Term.rename ρ))) := by
  refine (renames_one ρ args).bind ?_
  rintro a _ rfl
  refine (renames_stringArg ρ "Atom" a).bind ?_
  rintro name _ rfl
  exact .ok rfl

variable {ρ} (hρ : Function.Injective ρ)
include hρ

theorem renames_equality (a b : Term) :
    Renames ρ Eq (equality a b) (equality (a.rename ρ) (b.rename ρ)) := by
  unfold equality
  rw [Term.equal?_rename hρ]
  cases a.equal? b with
  | none => exact .error _
  | some same => exact .ok rfl

theorem renames_sameAs :
    Renames ρ (Renamed ρ) (sameAs args) (sameAs (args.map (Term.rename ρ))) := by
  refine (renames_two ρ args).bind ?_
  rintro ⟨a, b⟩ _ rfl
  refine (renames_equality hρ a b).bind ?_
  rintro same _ rfl
  exact .ok rfl

theorem renames_differs :
    Renames ρ (Renamed ρ) (differs args) (differs (args.map (Term.rename ρ))) := by
  refine (renames_two ρ args).bind ?_
  rintro ⟨a, b⟩ _ rfl
  refine (renames_equality hρ a b).bind ?_
  rintro same _ rfl
  exact .ok rfl

/-- **What a primitive without effects computes does not depend on marks.** -/
theorem Primitive.renames_compute? {p : Primitive} {compute : List Term → Computed}
    (hp : p.compute? = some compute) :
    Renames ρ (Renamed ρ) (compute args) (compute (args.map (Term.rename ρ))) := by
  cases p <;> cases hp
  case list =>
    refine .ok ?_
    rw [Renamed, Term.rename, Term.renameAll_eq_map]
  case nth => exact renames_itemOf ρ args
  case hold => exact renames_one ρ args
  case add | subtract | multiply => exact renames_arithmetic ρ args _ (Num.lift₂_rename ρ · · _ _)
  case divide => exact renames_quotient ρ args
  case negate => exact renames_unary ρ args _ (Num.negate_rename ρ)
  case abs => exact renames_unary ρ args _ (Num.magnitude_rename ρ)
  case power => exact renames_powerOf ρ args
  case factorial => exact renames_factorialOf ρ args
  case minus => exact renames_difference ρ args
  case lessThan => exact renames_comparison ρ args _ (Num.less_rename ρ)
  case greaterThan => exact renames_comparison ρ args _ fun a b => Num.less_rename ρ b a
  case lessOrEqual => exact renames_comparison ρ args _ (Num.lessEq_rename ρ)
  case greaterOrEqual => exact renames_comparison ρ args _ fun a b => Num.lessEq_rename ρ b a
  case equals => exact renames_sameAs args hρ
  case notEquals => exact renames_differs args hρ
  case not => exact renames_negation ρ args
  case length => exact renames_lengthOf ρ args
  case concat => exact renames_joined ρ args
  case stringMid => exact renames_substring ρ args
  case atom => exact renames_atomOf ρ args
  case string => exact renames_nameOf ρ args

end Computing

/-- **A primitive without effects gives no mark.** -/
theorem Primitive.marksBelow_of_compute? {p : Primitive} {compute : List Term → Computed}
    (hp : p.compute? = some compute) {bound : Nat} {args : List Term}
    (hargs : ∀ t ∈ args, t.marksBelow bound = true) {v : Term} (hv : compute args = .ok v) :
    v.marksBelow bound = true := by
  -- marks that do not occur are moved up, which changes the value no more than the arguments
  have hrenames := renames_compute? args (shift_injective bound 1) hp
  have hsame : args.map (Term.rename (shift bound 1)) = args := by
    rw [← Term.renameAll_eq_map]
    exact Term.renameAll_of_allMarksBelow (fun _ => shift_of_lt) (Term.allMarksBelow_iff.2 hargs)
  rw [hsame, hv] at hrenames
  cases hrenames with
  | ok h => exact Term.marksBelow_of_rename_shift h.symm

end TermCalc
