import TermCalc.Proofs.Syntax.Spelling
import TermCalc.Proofs.Term.Equivalence

/-!
# Regrouping of prefix operators

A prefix operator takes all that binds as tightly as it. So where the left operand of an infix
operator is the form of a prefix operator of the same precedence, and no parentheses stand around
it, the text says another expression: the prefix operator over the infix one.

* `Registry.isPrefixAt`: the forms of prefix operators of a precedence.
* `Registry.graft`: what is done behind the prefix operators that an expression starts with.
* `Registry.regroup`: **every infix form grafted so, from the inside out**.
* `Ungrafted`: the expressions that have no such left operand. `sameStructure_regroup_iff`: **they
  are those that regrouping leaves alone.**
-/

namespace TermCalc

namespace Registry

variable (r : Registry)

/-- Whether a name is a prefix operator of a precedence. -/
def isSignAt (p : Int) (name : String) : Bool :=
  (r.operator? .prefixed name).any (·.precedence == p)

/-- **Whether an expression is the form of a prefix operator** of a precedence. -/
def isPrefixAt (p : Int) : Term → Bool
  | .form name [_] _ => r.isSignAt p name
  | _ => false

/-- **Change an expression behind the prefix operators of a precedence** that it starts with. -/
def graft (p : Int) (f : Term → Term) : Term → Term
  | .form name [x] pos =>
    if r.isSignAt p name then .form name [graft p f x] pos else f (.form name [x] pos)
  | t => f t

/-- The form of a name over arguments. An infix operator goes behind the prefix operators that its
left operand starts with, if they bind as tightly as it. -/
def formOf (name : String) (args : List Term) (pos : Pos) : Term :=
  match r.operator? .infixed name, args with
  | some op, [a, b] => r.graft op.precedence (fun u => .form name [u, b] pos) a
  | _, _ => .form name args pos

mutual

/-- **Regroup an expression**: its arguments first, then itself. -/
def regroup : Term → Term
  | .form name args pos => r.formOf name (regroupAll args) pos
  | t => t

/-- Regroup arguments. -/
def regroupAll : List Term → List Term
  | [] => []
  | t :: ts => regroup t :: regroupAll ts

end

variable {r} {p : Int} {f : Term → Term} {name : String} {args : List Term} {pos : Pos}

theorem regroupAll_eq_map (ts : List Term) : r.regroupAll ts = ts.map r.regroup := by
  induction ts with
  | nil => rfl
  | cons t ts ih => rw [regroupAll, ih, List.map_cons]

theorem regroup_form :
    r.regroup (.form name args pos) = r.formOf name (args.map r.regroup) pos := by
  rw [regroup, regroupAll_eq_map]

theorem formOf_of_infixed {op : Operator} (h : r.operator? .infixed name = some op) {a b : Term} :
    r.formOf name [a, b] pos = r.graft op.precedence (fun u => .form name [u, b] pos) a := by
  unfold formOf
  rw [h]

theorem formOf_of_not_infixed (h : args.length = 2 → r.operator? .infixed name = none) :
    r.formOf name args pos = .form name args pos := by
  unfold formOf
  split
  · rename_i hop
    rw [h rfl] at hop
    cases hop
  · rfl

/-- A form is that of an infix operator over two operands, or it is of no such operator. -/
theorem infixed_or (r : Registry) (name : String) (args : List Term) :
    (∃ op a b, r.operator? .infixed name = some op ∧ args = [a, b]) ∨
      (args.length = 2 → r.operator? .infixed name = none) := by
  by_cases hlen : args.length = 2
  · obtain ⟨a, b, rfl⟩ := List.length_eq_two.1 hlen
    cases hop : r.operator? .infixed name with
    | none => exact .inr fun _ => rfl
    | some op => exact .inl ⟨op, a, b, rfl, rfl⟩
  · exact .inr fun h => absurd h hlen

theorem isSignAt_iff : r.isSignAt p name = true ↔
    ∃ op, r.operator? .prefixed name = some op ∧ op.precedence = p := by
  simp [isSignAt, Option.any_eq_true]

theorem graft_of_isSignAt (h : r.isSignAt p name = true) (x : Term) :
    r.graft p f (.form name [x] pos) = .form name [r.graft p f x] pos := by
  rw [graft, if_pos h]

theorem graft_of_not {t : Term} (h : r.isPrefixAt p t = false) : r.graft p f t = f t := by
  unfold graft
  split
  · rename_i name x pos
    have h : r.isSignAt p name = false := h
    rw [h]
    rfl
  · rfl

theorem exists_of_isPrefixAt {t : Term} (h : r.isPrefixAt p t = true) :
    ∃ name x pos, t = .form name [x] pos ∧ r.isSignAt p name = true := by
  unfold isPrefixAt at h
  split at h
  · exact ⟨_, _, _, rfl, h⟩
  · cases h

/-! ### Precedences -/

theorem precedence_of_isPrefixAt {t : Term} (h : r.isPrefixAt p t = true) : r.precedence t = p := by
  obtain ⟨name, x, pos, rfl, hsign⟩ := exists_of_isPrefixAt h
  obtain ⟨op, hop, rfl⟩ := isSignAt_iff.1 hsign
  simp [precedence, operatorOf?, hop, precedenceOf]

theorem precedence_infixed {op : Operator} (h : r.operator? .infixed name = some op) {a b : Term} :
    r.precedence (.form name [a, b] pos) = op.precedence := by
  simp [precedence, operatorOf?, h, precedenceOf]

/-- What is grafted binds as loosely as the prefix operators do. -/
theorem precedence_graft {t : Term} (hf : ∀ u, r.precedence (f u) = p) :
    r.precedence (r.graft p f t) = p := by
  cases ht : r.isPrefixAt p t with
  | false => rw [graft_of_not ht, hf]
  | true =>
    obtain ⟨name, x, pos, rfl, hsign⟩ := exists_of_isPrefixAt ht
    rw [graft_of_isSignAt hsign]
    exact precedence_of_isPrefixAt hsign

/-- Regrouping changes no precedence. -/
theorem precedence_regroup (t : Term) : r.precedence (r.regroup t) = r.precedence t := by
  cases t with
  | form name args pos =>
    rw [regroup_form]
    rcases r.infixed_or name args with ⟨op, a, b, hop, rfl⟩ | hplain
    · rw [List.map_cons, List.map_cons, List.map_nil, formOf_of_infixed hop,
        precedence_infixed hop]
      exact precedence_graft fun u => precedence_infixed hop
    · rw [formOf_of_not_infixed (by simpa using hplain)]
      simp [precedence]
  | _ => rfl

end Registry

/-! ### Equal expressions -/

theorem forall₂_congr_left {α β γ : Type} {R : α → β → Prop} {P : α → γ → Prop}
    {Q : β → γ → Prop} {xs : List α} {ys : List β} (h : List.Forall₂ R xs ys)
    (hR : ∀ x ∈ xs, ∀ y, R x y → ∀ z, P x z ↔ Q y z) (zs : List γ) :
    List.Forall₂ P xs zs ↔ List.Forall₂ Q ys zs := by
  induction h generalizing zs with
  | nil => cases zs <;> simp
  | @cons x y xs ys hxy _ ih =>
    cases zs with
    | nil => simp
    | cons z zs =>
      have hmore := ih (fun x hx => hR x (by simp [hx])) zs
      rw [List.forall₂_cons, List.forall₂_cons, hR x (by simp) y hxy z, hmore]

namespace Term

theorem equal_congr {m n : Num} (h : m.equal n = true) (k : Num) :
    m.equal k = true ↔ n.equal k = true := by
  obtain ⟨e, hm, hn⟩ := Num.equal_iff.1 h
  rw [Num.equal_iff, Num.equal_iff, hm, hn]

/-- **Equal expressions are equal to the same expressions.** -/
theorem sameStructure_congr {t u : Term} (h : t.sameStructure u = true) (v : Term) :
    t.sameStructure v = true ↔ u.sameStructure v = true := by
  cases t with
  | form f xs p =>
    cases u with
    | form g ys q =>
      obtain ⟨rfl, hargs⟩ := sameStructure_form.1 h
      cases v with
      | form k zs _ =>
        have hcongr := forall₂_congr_left hargs (fun x _ y hxy z => sameStructure_congr hxy z) zs
        rw [sameStructure_form, sameStructure_form, hcongr]
      | _ => simp [sameStructure, matches?]
    | _ => simp [sameStructure, matches?] at h
  | numeral m p =>
    cases u with
    | numeral n q =>
      have hequal : m.equal n = true := by simpa [sameStructure, matches?] using h
      cases v with
      | numeral k _ => simpa [sameStructure, matches?] using equal_congr hequal k
      | _ => simp [sameStructure, matches?]
    | _ => simp [sameStructure, matches?] at h
  | atom a p =>
    cases u with
    | atom b q =>
      obtain rfl : a = b := by simpa [sameStructure, matches?] using h
      cases v <;> simp [sameStructure, matches?]
    | _ => simp [sameStructure, matches?] at h
  | text a p =>
    cases u with
    | text b q =>
      obtain rfl : a = b := by simpa [sameStructure, matches?] using h
      cases v <;> simp [sameStructure, matches?]
    | _ => simp [sameStructure, matches?] at h
  | _ => simp [sameStructure, matches?] at h

end Term

/-! ### What is left alone -/

/-- **The expressions without a prefix operator to graft under**: no left operand of an infix form
is the form of a prefix operator that binds just as tightly. -/
inductive Ungrafted (r : Registry) : Term → Prop
  | atom {name : String} {pos : Pos} : Ungrafted r (.atom name pos)
  | numeral {n : Num} {pos : Pos} : Ungrafted r (.numeral n pos)
  | text {s : String} {pos : Pos} : Ungrafted r (.text s pos)
  | form {name : String} {args : List Term} {pos : Pos} :
      (∀ a ∈ args, Ungrafted r a) →
      (∀ op a b, r.operator? .infixed name = some op → args = [a, b] →
        r.isPrefixAt op.precedence a = false) →
      Ungrafted r (.form name args pos)

variable {r : Registry}

theorem ungrafted_form {name : String} {args : List Term} {pos : Pos} :
    Ungrafted r (.form name args pos) ↔ (∀ a ∈ args, Ungrafted r a) ∧
      ∀ op a b, r.operator? .infixed name = some op → args = [a, b] →
        r.isPrefixAt op.precedence a = false := by
  constructor
  · rintro (_ | _ | _ | ⟨hargs, hleft⟩)
    exact ⟨hargs, hleft⟩
  · exact fun ⟨hargs, hleft⟩ => .form hargs hleft

theorem Term.isPrefixAt_congr {t u : Term} (h : t.sameStructure u = true) (p : Int) :
    r.isPrefixAt p t = r.isPrefixAt p u := by
  cases t with
  | form f xs pos =>
    cases u with
    | form g ys pos' =>
      obtain ⟨rfl, hargs⟩ := Term.sameStructure_form.1 h
      have hlen := hargs.length_eq
      cases xs with
      | nil =>
        obtain rfl := List.length_eq_zero_iff.1 hlen.symm
        rfl
      | cons x xs =>
        cases hargs with
        | cons _ hmore => cases hmore <;> rfl
    | _ => simp [Term.sameStructure, Term.matches?] at h
  | _ => cases u <;> first | rfl | simp [Term.sameStructure, Term.matches?] at h

/-- Arguments that are left alone are as they were. -/
theorem forall₂_map_iff {args : List Term} {f : Term → Term} {P : Term → Prop}
    (h : ∀ a ∈ args, (f a).sameStructure a = true ↔ P a) :
    List.Forall₂ (fun x y => x.sameStructure y = true) (args.map f) args ↔ ∀ a ∈ args, P a := by
  rw [List.forall₂_map_left_iff, List.forall₂_same]
  exact forall₂_congr h

/-- A grafted form is the infix form itself only if there was nothing to graft under. -/
theorem sameStructure_graft_iff {p : Int} {name : String} {a a' b b' : Term} {pos pos' : Pos} :
    (r.graft p (fun u => .form name [u, b'] pos) a').sameStructure (.form name [a, b] pos') = true ↔
      r.isPrefixAt p a' = false ∧ a'.sameStructure a = true ∧ b'.sameStructure b = true := by
  cases hsign : r.isPrefixAt p a' with
  | false =>
    rw [Registry.graft_of_not hsign, Term.sameStructure_form]
    simp
  | true =>
    -- a prefix form now, with one argument in place of two
    obtain ⟨sign, x, spos, rfl, hat⟩ := Registry.exists_of_isPrefixAt hsign
    rw [Registry.graft_of_isSignAt hat, Term.sameStructure_form]
    simp

/-- **Regrouping leaves just those expressions alone that have nothing to graft.** -/
theorem sameStructure_regroup_iff {t : Term} (h : Writable r t) :
    (r.regroup t).sameStructure t = true ↔ Ungrafted r t := by
  induction h with
  | atom => simp [Registry.regroup, Term.sameStructure, Term.matches?, Ungrafted.atom]
  | numeral =>
    simp [Registry.regroup, Term.sameStructure, Term.matches?, Num.equal, Ungrafted.numeral]
  | text => simp [Registry.regroup, Term.sameStructure, Term.matches?, Ungrafted.text]
  | @form name args pos _ _ _ ih =>
    rw [Registry.regroup_form, ungrafted_form]
    rcases r.infixed_or name args with ⟨op, a, b, hop, rfl⟩ | hplain
    · have ha := ih a (by simp)
      have hb := ih b (by simp)
      rw [List.map_cons, List.map_cons, List.map_nil, Registry.formOf_of_infixed hop,
        sameStructure_graft_iff, ha, hb]
      constructor
      · rintro ⟨hno, hsame, hright⟩
        refine ⟨by simp [hsame, hright], ?_⟩
        rintro op' a' b' hop' hargs
        cases hop.symm.trans hop'
        cases hargs
        rwa [← Term.isPrefixAt_congr (ha.2 hsame)]
      · rintro ⟨hargs, hleft⟩
        have hsame := hargs a (by simp)
        refine ⟨?_, hsame, hargs b (by simp)⟩
        rw [Term.isPrefixAt_congr (ha.2 hsame)]
        exact hleft op a b hop rfl
    · -- the form stays as it is
      rw [Registry.formOf_of_not_infixed (by simpa using hplain), Term.sameStructure_form,
        forall₂_map_iff ih]
      have hleft : ∀ op a b, r.operator? .infixed name = some op → args = [a, b] →
          r.isPrefixAt op.precedence a = false := by
        rintro op a b hop rfl
        rw [hplain rfl] at hop
        cases hop
      simp only [true_and]
      exact (and_iff_left hleft).symm

end TermCalc
