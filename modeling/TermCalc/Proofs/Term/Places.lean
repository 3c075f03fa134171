import Mathlib.Data.List.Forall2
import TermCalc.Term.Equality
import TermCalc.Term.Printer

/-!
# Places make no difference

Where an expression stood in its source can be told from a term, but from nothing that the
calculator finds out about it.

* `Term.unplaced`: a term without places. `Term.matches?_unplaced`, `Term.toExpr?_unplaced`,
  `Registry.printAt_unplaced`: expressions are compared, converted and printed as without them.
* `Term.isDefinite`: an expression in which no value and no NaN stands, so that it equals itself.
* `Term.essence`: a term without the places in its definite expressions. An item of a list is first
  asked whether it is the very same term as another, places included; that decides nothing where an
  expression is definite.
* `Term.equal?_essence`: **equality is decided by the essence of two terms.**
* `Term.Alike`: terms of the same essence, and what is known of one from the other.
-/

namespace TermCalc

namespace Term

mutual

/-- **A term without places.** -/
def unplaced : Term → Term
  | atom name _ => atom name .none
  | numeral n _ => numeral n .none
  | text s _ => text s .none
  | form op args _ => form op (unplacedAll args) .none
  | list items => list (unplacedAll items)
  | t => t

/-- Terms without places. -/
def unplacedAll : List Term → List Term
  | [] => []
  | t :: ts => unplaced t :: unplacedAll ts

end

theorem unplacedAll_eq_map (ts : List Term) : unplacedAll ts = ts.map unplaced := by
  induction ts with
  | nil => rfl
  | cons t ts ih => rw [unplacedAll, ih, List.map_cons]

mutual

/-- **Whether an expression is equal to itself**: no value and no NaN stands in it. -/
def isDefinite : Term → Bool
  | atom .. | text .. => true
  | numeral n _ => n.equal n
  | form _ args _ => allDefinite args
  | _ => false

/-- Whether all expressions are equal to themselves. -/
def allDefinite : List Term → Bool
  | [] => true
  | t :: ts => isDefinite t && allDefinite ts

end

mutual

/-- **What matters of a term**: all but the places in definite expressions. -/
def essence : Term → Term
  | list items => list (essences items)
  | t => if t.isDefinite then t.unplaced else t

/-- What matters of terms. -/
def essences : List Term → List Term
  | [] => []
  | t :: ts => essence t :: essences ts

end

theorem essences_eq_map (ts : List Term) : essences ts = ts.map essence := by
  induction ts with
  | nil => rfl
  | cons t ts ih => rw [essences, ih, List.map_cons]

@[simp] theorem essence_list (items : List Term) :
    (list items).essence = list (essences items) := by
  rw [essence]

theorem essence_of_not_list {t : Term} (h : ∀ items, t ≠ list items) :
    t.essence = if t.isDefinite then t.unplaced else t := by
  cases t with
  | list items => exact absurd rfl (h items)
  | _ => rw [essence]; simp

theorem essence_of_isDefinite {t : Term} (h : t.isDefinite = true) : t.essence = t.unplaced := by
  cases t with
  | list items => cases h
  | _ => rw [essence_of_not_list (by simp), if_pos h]

theorem essence_of_not_isDefinite {t : Term} (hl : ∀ items, t ≠ list items)
    (h : t.isDefinite = false) : t.essence = t := by
  rw [essence_of_not_list hl, if_neg (by simp [h])]

@[simp] theorem essence_nothing : nothing.essence = nothing :=
  essence_of_not_isDefinite (by simp) rfl

@[simp] theorem essence_truth (b : Bool) : (truth b).essence = truth b :=
  essence_of_not_isDefinite (by simp) rfl

@[simp] theorem essence_num (n : Num) : (num n).essence = num n :=
  essence_of_not_isDefinite (by simp) rfl

@[simp] theorem essence_str (s : String) : (str s).essence = str s :=
  essence_of_not_isDefinite (by simp) rfl

@[simp] theorem essence_atom (name : String) (pos : Pos) :
    (atom name pos).essence = atom name .none := essence_of_isDefinite rfl

@[simp] theorem essence_text (s : String) (pos : Pos) : (text s pos).essence = text s .none :=
  essence_of_isDefinite rfl

mutual

@[simp] theorem unplaced_unplaced (t : Term) : t.unplaced.unplaced = t.unplaced := by
  cases t with
  | form op args pos => simp only [unplaced, unplacedAll_unplacedAll args]
  | list items => simp only [unplaced, unplacedAll_unplacedAll items]
  | _ => rfl

theorem unplacedAll_unplacedAll (ts : List Term) :
    unplacedAll (unplacedAll ts) = unplacedAll ts := by
  cases ts with
  | nil => rfl
  | cons t ts => simp only [unplacedAll, unplaced_unplaced t, unplacedAll_unplacedAll ts]

end

mutual

@[simp] theorem isDefinite_unplaced (t : Term) : t.unplaced.isDefinite = t.isDefinite := by
  cases t with
  | form op args pos => simp only [unplaced, isDefinite, allDefinite_unplacedAll args]
  | _ => rfl

theorem allDefinite_unplacedAll (ts : List Term) :
    allDefinite (unplacedAll ts) = allDefinite ts := by
  cases ts with
  | nil => rfl
  | cons t ts => simp only [unplacedAll, allDefinite, isDefinite_unplaced t,
      allDefinite_unplacedAll ts]

end

mutual

theorem writable_unplaced (t : Term) : t.unplaced.writable = t.writable := by
  cases t with
  | form op args pos => simp only [unplaced, writable, allWritable_unplacedAll args]
  | list items => simp only [unplaced, writable, allWritable_unplacedAll items]
  | _ => rfl

theorem allWritable_unplacedAll (ts : List Term) :
    allWritable (unplacedAll ts) = allWritable ts := by
  cases ts with
  | nil => rfl
  | cons t ts => simp only [unplacedAll, allWritable, writable_unplaced t,
      allWritable_unplacedAll ts]

end

mutual

@[simp] theorem unplaced_essence (t : Term) : t.essence.unplaced = t.unplaced := by
  cases t with
  | list items => simp only [essence_list, unplaced, unplacedAll_essences items]
  | _ =>
    rw [essence_of_not_list (by simp)]
    split
    · exact unplaced_unplaced _
    · rfl

theorem unplacedAll_essences (ts : List Term) : unplacedAll (essences ts) = unplacedAll ts := by
  cases ts with
  | nil => rfl
  | cons t ts => simp only [essences, unplacedAll, unplaced_essence t, unplacedAll_essences ts]

end

theorem unplaced_of_essence {t u : Term} (h : t.essence = u.essence) : t.unplaced = u.unplaced := by
  rw [← unplaced_essence t, h, unplaced_essence]

/-- The essence of a term is of its kind. -/
theorem typeName_unplaced (t : Term) : t.unplaced.typeName = t.typeName := by
  cases t <;> rfl

theorem isExpr_unplaced (t : Term) : t.unplaced.isExpr = t.isExpr := by cases t <;> rfl

theorem isExpr_essence (t : Term) : t.essence.isExpr = t.isExpr := by
  rw [← isExpr_unplaced, unplaced_essence, isExpr_unplaced]

/-! ### Equality -/

mutual

/-- **Expressions are compared without their places.** -/
theorem matches?_unplaced (same : Num → Num → Bool) (t u : Term) :
    t.unplaced.matches? same u.unplaced = t.matches? same u := by
  cases t with
  | form f xs p =>
    cases u with
    | form g ys q =>
      have hx : (unplacedAll xs).length = xs.length := by
        rw [unplacedAll_eq_map, List.length_map]
      have hy : (unplacedAll ys).length = ys.length := by
        rw [unplacedAll_eq_map, List.length_map]
      simp only [unplaced, matches?, hx, hy, matchAll?_unplacedAll same xs ys]
    | _ => rfl
  | list | nothing | truth | num | str => simp only [unplaced, matches?]
  | atom | numeral | text => cases u <;> rfl

theorem matchAll?_unplacedAll (same : Num → Num → Bool) (ts us : List Term) :
    matchAll? same (unplacedAll ts) (unplacedAll us) = matchAll? same ts us := by
  cases ts with
  | nil => rfl
  | cons t ts =>
    cases us with
    | nil => rfl
    | cons u us =>
      simp only [unplacedAll, matchAll?, matches?_unplaced same t u,
        matchAll?_unplacedAll same ts us]

end

mutual

/-- **A definite expression equals itself.** -/
theorem matches?_self {same : Num → Num → Bool} (hsame : ∀ n, n.equal n = true → same n n = true)
    {t : Term} (h : t.isDefinite = true) : t.matches? same t = some true := by
  cases t with
  | atom | text => simp [matches?]
  | numeral n => simp [matches?, hsame n h]
  | form f xs => simp [matches?, matchAll?_self hsame h]
  | _ => cases h

theorem matchAll?_self {same : Num → Num → Bool} (hsame : ∀ n, n.equal n = true → same n n = true)
    {ts : List Term} (h : allDefinite ts = true) : matchAll? same ts ts = some true := by
  cases ts with
  | nil => rfl
  | cons t ts =>
    simp only [allDefinite, Bool.and_eq_true] at h
    simp only [matchAll?, matches?_self hsame h.1, matchAll?_self hsame h.2]

end

theorem same_of_equal {n : Num} (h : n.equal n = true) : n.same n = true := by
  cases n with
  | nan k => simp [Num.same]
  | int | float => exact h

/-- Definite expressions in different places are equal. -/
theorem matches?_of_essence {same : Num → Num → Bool}
    (hsame : ∀ n, n.equal n = true → same n n = true) {t u : Term} (h : t.isDefinite = true)
    (he : t.essence = u.essence) : t.matches? same u = some true := by
  rw [← matches?_unplaced, unplaced_of_essence he, ← unplaced_of_essence he]
  exact matches?_self hsame (by rwa [isDefinite_unplaced])

/-- Whether an item of a list is the same as another. -/
def sameItem? (t u : Term) : Option Bool := if t = u then some true else t.sameValue? u

theorem sameValues?_cons (t u : Term) (ts us : List Term) : sameValues? (t :: ts) (u :: us) =
    match sameItem? t u with
    | some true => sameValues? ts us
    | answer => answer := by
  rw [sameValues?, sameItem?]
  split <;> rfl

theorem length_essences (ts : List Term) : (essences ts).length = ts.length := by
  rw [essences_eq_map, List.length_map]

theorem isDefinite_of_essence {t u : Term} (h : t.essence = u.essence) :
    t.isDefinite = u.isDefinite := by
  rw [← isDefinite_unplaced, unplaced_of_essence h, isDefinite_unplaced]

theorem exists_list_of_essence {t : Term} {items : List Term} (h : t.essence = list items) :
    ∃ ts, t = list ts ∧ essences ts = items := by
  cases t with
  | list ts => exact ⟨ts, rfl, by simpa using h⟩
  | _ =>
    have hunplaced := congrArg unplaced h
    rw [unplaced_essence] at hunplaced
    simp [unplaced] at hunplaced

/-- All but lists and definite expressions are told apart by what matters of them. -/
theorem eq_of_essence {t u : Term} (hl : ∀ items, t ≠ list items) (hd : t.isDefinite = false)
    (h : t.essence = u.essence) : t = u := by
  have hu : ∀ items, u ≠ list items := by
    rintro items rfl
    obtain ⟨ts, rfl, -⟩ := exists_list_of_essence (h.trans (essence_list items))
    exact hl ts rfl
  have hdu : u.isDefinite = false := isDefinite_of_essence h ▸ hd
  rwa [essence_of_not_isDefinite hl hd, essence_of_not_isDefinite hu hdu] at h

theorem isExpr_of_isDefinite {t : Term} (h : t.isDefinite = true) : t.isExpr = true := by
  cases t <;> first | rfl | cases h

theorem sameValue?_of_isExpr {t : Term} (h : t.isExpr = true) (u : Term) :
    t.sameValue? u = if u.isExpr then t.matches? Num.same u else some false := by
  cases t with
  | atom | numeral | text | form => rw [sameValue?] <;> simp
  | _ => cases h

mutual

/-- **Items with one essence are the same.** -/
theorem sameItem?_of_essence {t u : Term} (h : t.essence = u.essence) :
    sameItem? t u = some true := by
  by_cases heq : t = u
  · rw [sameItem?, if_pos heq]
  rw [sameItem?, if_neg heq]
  cases hd : t.isDefinite with
  | true =>
    have hu := isDefinite_of_essence h ▸ hd
    rw [sameValue?_of_isExpr (isExpr_of_isDefinite hd), if_pos (isExpr_of_isDefinite hu)]
    exact matches?_of_essence (fun _ => same_of_equal) hd h
  | false =>
    cases t with
    | list xs =>
      obtain ⟨ys, rfl, hys⟩ := exists_list_of_essence (h.symm.trans (essence_list xs))
      have hlen : (xs.length == ys.length) = true := by
        rw [← length_essences xs, ← hys, length_essences]; exact beq_self_eq_true _
      rw [sameValue?, if_pos hlen]
      exact sameValues?_of_essences hys.symm
    | _ => exact absurd (eq_of_essence (by simp) hd h) heq

theorem sameValues?_of_essences {ts us : List Term} (h : essences ts = essences us) :
    sameValues? ts us = some true := by
  cases ts with
  | nil => rfl
  | cons t ts =>
    cases us with
    | nil => cases h
    | cons u us =>
      obtain ⟨ht, hts⟩ := List.cons.inj h
      rw [sameValues?_cons, sameItem?_of_essence ht]
      exact sameValues?_of_essences hts

end

/-- An expression equals no value of another kind. -/
theorem sameValue?_of_not_isExpr {t u : Term} (ht : t.isExpr = false) (hu : u.isExpr = true) :
    t.sameValue? u = some false := by
  cases t <;> cases ht <;> cases u <;> cases hu <;> rw [sameValue?] <;> simp [asNum?]

mutual

/-- **Equality of values** is decided by what matters of them. -/
theorem sameValue?_essence (t u : Term) : t.essence.sameValue? u.essence = t.sameValue? u := by
  cases ht : t.isExpr with
  | true =>
    rw [sameValue?_of_isExpr ht, sameValue?_of_isExpr ((isExpr_essence t).trans ht),
      isExpr_essence, ← matches?_unplaced, unplaced_essence, unplaced_essence, matches?_unplaced]
  | false =>
    cases hu : u.isExpr with
    | true =>
      rw [sameValue?_of_not_isExpr ht hu, sameValue?_of_not_isExpr ((isExpr_essence t).trans ht)
        ((isExpr_essence u).trans hu)]
    | false =>
      cases t with
      | list xs =>
        cases u with
        | list ys =>
          simp only [essence_list, sameValue?, length_essences, sameValues?_essences xs ys]
        | nothing | truth | num | str => simp [sameValue?]
        | _ => cases hu
      | nothing | truth | num | str =>
        cases u with
        | list ys => simp [sameValue?, asNum?]
        | nothing | truth | num | str => simp
        | _ => cases hu
      | _ => cases ht

theorem sameItem?_essence (t u : Term) : sameItem? t.essence u.essence = sameItem? t u := by
  by_cases h : t.essence = u.essence
  · rw [sameItem?_of_essence h, sameItem?, if_pos h]
  · have hne : t ≠ u := fun heq => h (by rw [heq])
    rw [sameItem?, sameItem?, if_neg h, if_neg hne]
    exact sameValue?_essence t u

theorem sameValues?_essences (ts us : List Term) :
    sameValues? (essences ts) (essences us) = sameValues? ts us := by
  cases ts with
  | nil => rfl
  | cons t ts =>
    cases us with
    | nil => rfl
    | cons u us =>
      rw [essences, essences, sameValues?_cons, sameValues?_cons, sameItem?_essence t u,
        sameValues?_essences ts us]

end

/-! ### Conversion -/

mutual

/-- **A value is converted without places.** -/
theorem toExpr?_unplaced (t : Term) : t.unplaced.toExpr? = t.toExpr?.map unplaced := by
  cases t with
  | list items =>
    simp only [unplaced, toExpr?, toExprs?_unplacedAll items, Option.map_map]
    rfl
  | nothing | truth | num | str | atom | numeral | text | form => rfl

theorem toExprs?_unplacedAll (ts : List Term) :
    toExprs? (unplacedAll ts) = (toExprs? ts).map unplacedAll := by
  cases ts with
  | nil => rfl
  | cons t ts =>
    simp only [unplacedAll, toExprs?, toExpr?_unplaced t, toExprs?_unplacedAll ts]
    cases t.toExpr? <;> cases toExprs? ts <;> rfl

end

/-- The expressions of two values, compared. -/
theorem matches?_toExpr?_essence (a b : Term) :
    (match a.essence.toExpr?, b.essence.toExpr? with
      | some x, some y => x.matches? Num.equal y
      | _, _ => some false) =
    match a.toExpr?, b.toExpr? with
    | some x, some y => x.matches? Num.equal y
    | _, _ => some false := by
  have ha := toExpr?_unplaced a.essence
  have hb := toExpr?_unplaced b.essence
  rw [unplaced_essence, toExpr?_unplaced] at ha hb
  cases hx : a.toExpr? <;> cases hx' : a.essence.toExpr? <;> cases hy : b.toExpr? <;>
    cases hy' : b.essence.toExpr? <;> simp [hx, hx', hy, hy'] at ha hb ⊢
  rw [← matches?_unplaced, ← ha, ← hb, matches?_unplaced]

theorem equal?_of_isExpr {a b : Term} (h : (a.isExpr || b.isExpr) = true) :
    a.equal? b = match a.toExpr?, b.toExpr? with
      | some x, some y => x.matches? Num.equal y
      | _, _ => some false := by
  unfold equal?
  split
  · cases h
  · cases h
  · exact if_pos h

/-- **Equality is decided by what matters of two terms.** -/
theorem equal?_essence (a b : Term) : a.essence.equal? b.essence = a.equal? b := by
  cases h : a.isExpr || b.isExpr with
  | true =>
    rw [equal?_of_isExpr h, equal?_of_isExpr (by rw [isExpr_essence, isExpr_essence, h])]
    exact matches?_toExpr?_essence a b
  | false =>
    obtain ⟨ha, hb⟩ := Bool.or_eq_false_iff.1 h
    cases a with
    | list xs =>
      cases b with
      | list ys => simp only [essence_list, equal?, length_essences, sameValues?_essences xs ys]
      | nothing | truth | str => simp [equal?, isExpr, typeName]
      | num n => cases n <;> simp [equal?, isExpr, typeName]
      | _ => cases hb
    | nothing | truth | str =>
      cases b with
      | list ys => simp [equal?, isExpr, typeName]
      | nothing | truth | num | str => simp
      | _ => cases hb
    | num n =>
      cases b with
      | list ys => cases n <;> simp [equal?, isExpr, typeName]
      | nothing | truth | num | str => simp
      | _ => cases hb
    | _ => cases ha

end Term

namespace Registry

variable (r : Registry)

theorem precedence_unplaced (t : Term) : r.precedence t.unplaced = r.precedence t := by
  cases t with
  | form name args pos =>
    simp only [Term.unplaced, precedence, Term.unplacedAll_eq_map, List.length_map]
  | _ => rfl

mutual

/-- **An expression is printed without its places.** -/
theorem printAt_unplaced {τ : Type} [Output τ] (d : Int) (t : Term) (s : τ) :
    r.printAt d t.unplaced s = r.printAt d t s := by
  rw [printAt, printAt, precedence_unplaced]
  cases t with
  | form name args pos =>
    have hlen : (Term.unplacedAll args).length = args.length := by
      rw [Term.unplacedAll_eq_map, List.length_map]
    simp only [Term.unplaced, hlen, printList_unplacedAll args]
    congr 1
    funext s
    split
    · rfl
    · cases r.operatorOf? name args.length with
      | none => rfl
      | some op =>
        dsimp only
        have hbodied := printBodied_unplacedAll op.precedence true args
          (Output.put (Output.write s op.name) '(')
        generalize op.fixity = fixity
        match fixity, args with
        | .infixed, [lhs, rhs] =>
          have hrhs : r.printAt (op.precedence - 1) rhs.unplaced =
              r.printAt (σ := τ) (op.precedence - 1) rhs :=
            funext fun s => printAt_unplaced (op.precedence - 1) rhs s
          simp only [Term.unplacedAll, printAt_unplaced op.precedence lhs, hrhs]
        | .prefixed, [a] | .postfixed, [a] =>
          simp only [Term.unplacedAll, printAt_unplaced op.precedence a]
        | .bodied, _ | .infixed, [] | .infixed, [_] | .infixed, _ :: _ :: _ :: _ | .prefixed, []
        | .prefixed, _ :: _ :: _ | .postfixed, [] | .postfixed, _ :: _ :: _ => exact hbodied
  | _ => rfl

theorem printList_unplacedAll {τ : Type} [Output τ] (ts : List Term) (s : τ) :
    r.printList (Term.unplacedAll ts) s = r.printList ts s := by
  match ts with
  | [] => rfl
  | [t] => simp only [Term.unplacedAll, printList, printAt_unplaced loosest t]
  | t :: u :: rest =>
    have ih : r.printList (Term.unplacedAll (u :: rest)) = r.printList (σ := τ) (u :: rest) :=
      funext fun s => printList_unplacedAll (u :: rest) s
    simp only [Term.unplacedAll] at ih ⊢
    rw [printList, printList, printAt_unplaced loosest t, ih]

theorem printBodied_unplacedAll {τ : Type} [Output τ] (d : Int) (first : Bool) (ts : List Term)
    (s : τ) : r.printBodied d first (Term.unplacedAll ts) s = r.printBodied d first ts s := by
  match ts with
  | [] => rfl
  | [t] => simp only [Term.unplacedAll, printBodied, printAt_unplaced d t]
  | t :: u :: rest =>
    have ih : r.printBodied d false (Term.unplacedAll (u :: rest)) =
        r.printBodied (σ := τ) d false (u :: rest) :=
      funext fun s => printBodied_unplacedAll d false (u :: rest) s
    simp only [Term.unplacedAll] at ih ⊢
    rw [printBodied, printBodied, printAt_unplaced loosest t, ih]

end

end Registry

/-! ### Terms in which the same matters -/

namespace Term

/-- **Terms in which the same matters.** -/
def Alike (t u : Term) : Prop := t.essence = u.essence

namespace Alike

variable {t u : Term} {ts us : List Term}

@[refl] theorem refl (t : Term) : t.Alike t := rfl

theorem unplaced (h : t.Alike u) : t.unplaced = u.unplaced := unplaced_of_essence h

theorem all_iff : List.Forall₂ Alike ts us ↔ essences ts = essences us := by
  rw [essences_eq_map, essences_eq_map, ← List.forall₂_eq_eq_eq, List.forall₂_map_left_iff,
    List.forall₂_map_right_iff]
  rfl

theorem all_symm (h : List.Forall₂ Alike ts us) : List.Forall₂ Alike us ts :=
  all_iff.2 (all_iff.1 h).symm

theorem getElem? (h : List.Forall₂ Alike ts us) (i : Nat) :
    ts[i]?.map essence = us[i]?.map essence := by
  rw [← List.getElem?_map, ← List.getElem?_map, ← essences_eq_map, all_iff.1 h, essences_eq_map]

theorem list_iff : (list ts).Alike (list us) ↔ List.Forall₂ Alike ts us := by
  rw [all_iff, Alike, essence_list, essence_list, list.injEq]

/-- What is decided without places is decided alike. -/
theorem apply_eq {β : Type} {f : Term → β} (hf : ∀ t, f t.unplaced = f t) (h : t.Alike u) :
    f t = f u := by
  rw [← hf t, h.unplaced, hf u]

theorem typeName_eq (h : t.Alike u) : t.typeName = u.typeName := apply_eq typeName_unplaced h

/-- Definite expressions are alike where they are the same but for their places. -/
theorem of_unplaced (ht : t.isDefinite = true) (h : t.unplaced = u.unplaced) : t.Alike u := by
  have hu : u.isDefinite = true := by rw [← isDefinite_unplaced, ← h, isDefinite_unplaced, ht]
  rw [Alike, essence_of_isDefinite ht, essence_of_isDefinite hu, h]

theorem all_of_unplaced (hts : allDefinite ts = true) (h : unplacedAll ts = unplacedAll us) :
    List.Forall₂ Alike ts us := by
  induction ts generalizing us with
  | nil =>
    cases us with
    | nil => exact .nil
    | cons u us => cases h
  | cons t ts ih =>
    cases us with
    | nil => cases h
    | cons u us =>
      obtain ⟨hu, hus⟩ := List.cons.inj h
      obtain ⟨ht, hts⟩ := Bool.and_eq_true_iff.1 hts
      exact .cons (of_unplaced ht hu) (ih hts hus)

/-- Forms of alike arguments are alike where these are definite. -/
theorem form_congr {op : String} {pos pos' : Pos} (hts : allDefinite ts = true)
    (h : List.Forall₂ Alike ts us) : (form op ts pos).Alike (form op us pos') := by
  refine of_unplaced hts ?_
  rw [Term.unplaced, Term.unplaced, ← unplacedAll_essences ts, all_iff.1 h, unplacedAll_essences]

/-! What a term is alike to, by its kind. -/

theorem eq_num {n : Num} (h : (num n).Alike u) : u = num n := by
  have hu := h.unplaced
  cases u <;> cases hu
  rfl

theorem eq_list (h : (list ts).Alike u) : ∃ us, u = list us ∧ List.Forall₂ Alike ts us := by
  obtain ⟨us, rfl, -⟩ := exists_list_of_essence (h.symm.trans (essence_list ts))
  exact ⟨us, rfl, list_iff.1 h⟩

theorem eq_atom {name : String} {pos : Pos} (h : (atom name pos).Alike u) :
    ∃ pos', u = atom name pos' := by
  have hu := h.unplaced
  cases u <;> cases hu
  exact ⟨_, rfl⟩

theorem eq_numeral {n : Num} {pos : Pos} (h : (numeral n pos).Alike u) :
    ∃ pos', u = numeral n pos' := by
  have hu := h.unplaced
  cases u <;> cases hu
  exact ⟨_, rfl⟩

theorem eq_text {s : String} {pos : Pos} (h : (text s pos).Alike u) :
    ∃ pos', u = text s pos' := by
  have hu := h.unplaced
  cases u <;> cases hu
  exact ⟨_, rfl⟩

/-- A form that is definite has alike arguments wherever it stands; one that is not is alike to
itself only. -/
theorem eq_form {op : String} {pos : Pos} (h : (form op ts pos).Alike u) :
    ∃ us pos', u = form op us pos' ∧ List.Forall₂ Alike ts us := by
  cases hd : allDefinite ts with
  | true =>
    have hu := h.unplaced
    cases u with
    | form op' us pos' =>
      simp only [Term.unplaced, form.injEq, and_true] at hu
      obtain ⟨rfl, hus⟩ := hu
      exact ⟨us, pos', rfl, all_of_unplaced hd hus⟩
    | _ => cases hu
  | false =>
    have hform : (form op ts pos).isDefinite = false := hd
    obtain rfl := eq_of_essence (by simp) hform h
    exact ⟨ts, pos, rfl, List.forall₂_same.2 fun t _ => refl t⟩

/-- Values that are alike are the same expression but for places. -/
theorem toExpr? (h : t.Alike u) : t.toExpr?.map Term.unplaced = u.toExpr?.map Term.unplaced := by
  rw [← toExpr?_unplaced, h.unplaced, toExpr?_unplaced]

theorem equal? {t' u' : Term} (h : t.Alike u) (h' : t'.Alike u') :
    t.equal? t' = u.equal? u' := by
  rw [← equal?_essence, h, h', equal?_essence]

/-- Definite expressions that are alike have one structure. -/
theorem all_sameStructure (h : List.Forall₂ Alike ts us) (hts : allDefinite ts = true) :
    List.Forall₂ (fun t u => t.sameStructure u = true) ts us := by
  induction h with
  | nil => exact .nil
  | @cons t u ts us h _ ih =>
    rw [allDefinite, Bool.and_eq_true] at hts
    have hmatch := matches?_of_essence (fun _ hn => hn) hts.1 h
    exact .cons (by rw [sameStructure, hmatch]; rfl) (ih hts.2)

end Alike

end Term

end TermCalc
