import TermCalc.Proofs.Term.Places

/-!
# Proper terms

The terms that programs and their values are made of. An expression is a tree of nodes, and no value
stands in it; a value is no missing one, and its items are values again.

* `Term.isTree`: atoms, literals and forms of trees.
* `Term.isProper`: trees, truth values, numbers, strings and lists of proper terms.
* `Term.exists_toExpr?_of_isProper`: a proper term has an expression, and that is a tree.
* `Term.exists_equal?_of_isProper`: **equality with a proper term is always decided.**
-/

namespace TermCalc.Term

mutual

/-- **A tree of expressions.** -/
def isTree : Term → Bool
  | atom .. | numeral .. | text .. => true
  | form _ args _ => allTrees args
  | _ => false

/-- Whether all terms are trees. -/
def allTrees : List Term → Bool
  | [] => true
  | t :: ts => isTree t && allTrees ts

end

mutual

/-- **A value that is not missing, or a tree.** -/
def isProper : Term → Bool
  | nothing => false
  | truth _ | num _ | str _ => true
  | list items => allProper items
  | t => t.isTree

/-- Whether all terms are proper. -/
def allProper : List Term → Bool
  | [] => true
  | t :: ts => isProper t && allProper ts

end

theorem allTrees_iff {ts : List Term} : allTrees ts = true ↔ ∀ t ∈ ts, t.isTree = true := by
  induction ts with
  | nil => simp [allTrees]
  | cons t ts ih => simp [allTrees, ih]

theorem allProper_iff {ts : List Term} : allProper ts = true ↔ ∀ t ∈ ts, t.isProper = true := by
  induction ts with
  | nil => simp [allProper]
  | cons t ts ih => simp [allProper, ih]

mutual

theorem isTree_of_isDefinite {t : Term} (h : t.isDefinite = true) : t.isTree = true := by
  cases t with
  | atom | numeral | text => rfl
  | form op args pos => exact allTrees_of_allDefinite h
  | _ => cases h

theorem allTrees_of_allDefinite {ts : List Term} (h : allDefinite ts = true) :
    allTrees ts = true := by
  match ts with
  | [] => rfl
  | t :: ts =>
    simp only [allDefinite, Bool.and_eq_true] at h
    simp [allTrees, isTree_of_isDefinite h.1, allTrees_of_allDefinite h.2]

end

theorem isProper_of_isExpr {t : Term} (h : t.isExpr = true) : t.isProper = t.isTree := by
  cases t with
  | atom | numeral | text | form => rw [isProper] <;> simp
  | _ => cases h

theorem isExpr_of_isTree {t : Term} (h : t.isTree = true) : t.isExpr = true := by
  cases t <;> first | rfl | cases h

theorem isProper_of_isTree {t : Term} (h : t.isTree = true) : t.isProper = true := by
  rw [isProper_of_isExpr (isExpr_of_isTree h), h]

/-- The arguments of a proper form. -/
theorem isProper_of_mem_args {op : String} {args : List Term} {pos : Pos}
    (h : (form op args pos).isProper = true) {t : Term} (ht : t ∈ args) : t.isProper = true := by
  rw [isProper_of_isExpr rfl] at h
  exact isProper_of_isTree (allTrees_iff.1 h t ht)

/-! ### Values as expressions -/

mutual

/-- **A proper term has an expression**, and that is a tree. -/
theorem exists_toExpr?_of_isProper {t : Term} (h : t.isProper = true) :
    ∃ e, t.toExpr? = some e ∧ e.isTree = true := by
  cases t with
  | nothing => cases h
  | truth | num | str => exact ⟨_, rfl, rfl⟩
  | list items =>
    obtain ⟨es, hes, htrees⟩ := exists_toExprs?_of_allProper h
    exact ⟨form "List" es .none, by rw [toExpr?, hes]; rfl, htrees⟩
  | atom | numeral | text | form =>
    rw [isProper_of_isExpr rfl] at h
    exact ⟨_, by rw [toExpr?] <;> simp, h⟩

theorem exists_toExprs?_of_allProper {ts : List Term} (h : allProper ts = true) :
    ∃ es, toExprs? ts = some es ∧ allTrees es = true := by
  match ts with
  | [] => exact ⟨[], rfl, rfl⟩
  | t :: ts =>
    simp only [allProper, Bool.and_eq_true] at h
    obtain ⟨e, he, htree⟩ := exists_toExpr?_of_isProper h.1
    obtain ⟨es, hes, htrees⟩ := exists_toExprs?_of_allProper h.2
    exact ⟨e :: es, by simp [toExprs?, he, hes], by simp [allTrees, htree, htrees]⟩

end

/-! ### Equality is decided -/

mutual

theorem exists_matches?_of_isTree (same : Num → Num → Bool) {t : Term} (h : t.isTree = true)
    (u : Term) : ∃ b, t.matches? same u = some b := by
  cases t with
  | atom | numeral | text => cases u <;> exact ⟨_, rfl⟩
  | form f xs pos =>
    cases u with
    | form g ys pos' =>
      rw [matches?]
      split
      · exact exists_matchAll?_of_allTrees same h ys
      · exact ⟨false, rfl⟩
    | _ => exact ⟨false, rfl⟩
  | _ => cases h

theorem exists_matchAll?_of_allTrees (same : Num → Num → Bool) {ts : List Term}
    (h : allTrees ts = true) (us : List Term) : ∃ b, matchAll? same ts us = some b := by
  match ts, us with
  | [], _ => exact ⟨true, rfl⟩
  | _ :: _, [] => exact ⟨true, rfl⟩
  | t :: ts, u :: us =>
    simp only [allTrees, Bool.and_eq_true] at h
    obtain ⟨b, hb⟩ := exists_matches?_of_isTree same h.1 u
    rw [matchAll?, hb]
    cases b with
    | true => exact exists_matchAll?_of_allTrees same h.2 us
    | false => exact ⟨false, rfl⟩

end

mutual

theorem exists_sameValue?_of_isProper {t : Term} (h : t.isProper = true) (u : Term) :
    ∃ b, t.sameValue? u = some b := by
  cases ht : t.isExpr with
  | true =>
    rw [isProper_of_isExpr ht] at h
    rw [sameValue?_of_isExpr ht]
    split
    · exact exists_matches?_of_isTree _ h u
    · exact ⟨false, rfl⟩
  | false =>
    cases t with
    | nothing => cases h
    | truth | num => exact ⟨_, by rw [sameValue?]⟩
    | str s => cases u <;> exact ⟨_, rfl⟩
    | list xs =>
      cases u with
      | list ys =>
        rw [sameValue?]
        split
        · exact exists_sameValues?_of_allProper h ys
        · exact ⟨false, rfl⟩
      | _ => exact ⟨false, rfl⟩
    | _ => cases ht

theorem exists_sameValues?_of_allProper {ts : List Term} (h : allProper ts = true)
    (us : List Term) : ∃ b, sameValues? ts us = some b := by
  match ts, us with
  | [], _ => exact ⟨true, rfl⟩
  | _ :: _, [] => exact ⟨true, rfl⟩
  | t :: ts, u :: us =>
    simp only [allProper, Bool.and_eq_true] at h
    obtain ⟨b, hb⟩ := exists_sameValue?_of_isProper h.1 u
    rw [sameValues?]
    split
    · exact exists_sameValues?_of_allProper h.2 us
    · rw [hb]
      cases b with
      | true => exact exists_sameValues?_of_allProper h.2 us
      | false => exact ⟨false, rfl⟩

end

/-- **Equality with a proper term is decided.** -/
theorem exists_equal?_of_isProper {a : Term} (ha : a.isProper = true) (b : Term) :
    ∃ x, a.equal? b = some x := by
  unfold equal?
  split
  · exact ⟨_, rfl⟩
  · split
    · exact exists_sameValues?_of_allProper ha _
    · exact ⟨false, rfl⟩
  · split
    · obtain ⟨e, he, htree⟩ := exists_toExpr?_of_isProper ha
      rw [he]
      split
      · rename_i x y hx hy
        cases hx
        exact exists_matches?_of_isTree _ htree y
      · exact ⟨false, rfl⟩
    · split
      · exact exists_sameValue?_of_isProper ha b
      · exact ⟨false, rfl⟩

end TermCalc.Term
