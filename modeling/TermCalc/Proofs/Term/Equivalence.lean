import TermCalc.Proofs.Evaluation.Stackless
import TermCalc.Proofs.Registry.Table
import TermCalc.Proofs.Term.Proper

/-!
# Equality as an equivalence

Two values without NaN are equal where they have the same key. There are two keys of a value,
though: lists are compared with each other item by item, where truth values count as numbers and no
expression equals a value of another kind, and everything else is compared as expressions. Either
comparison is an equivalence. Together they are not, where a list stands beside an expression.

* `Term.isComparable`: the values whose equality with each other is decided.
  `Term.isComparable_iff`: they are the proper ones without NaN.
* `Key`, `Term.exprKey`, `Term.itemKey`: what decides equality as expressions, and as items of
  lists. `Term.decides_matches?`, `Term.decides_sameValue?`: that it does.
* `Term.decides_equal?_lists`, `Term.decides_equal?`: **which key decides**.
* `Term.isData`, `Term.exprKey_eq_iff`: lists for which the two keys agree.
* `Registry.Answers`: what a call answers, on any stack and in any world.
* `equals_equivalence`: **equality is reflexive and symmetric, and transitive** for values among
  which no expression stands or whose lists hold data. `equals_not_transitive`: it is not for all
  values.
-/

namespace TermCalc

/-! ### Numbers -/

namespace Num

theorem stepsOfOne_pos : 0 < stepsOfOne := by
  unfold stepsOfOne
  generalize 1074 = n
  exact Nat.pow_pos (by decide)

/-- **Numbers are equal where they have the same exact value.** -/
theorem equal_iff {a b : Num} : a.equal b = true ↔ ∃ e, a.value? = some e ∧ b.value? = some e := by
  by_cases hints : ∃ x y, a = .int x ∧ b = .int y
  · obtain ⟨x, y, rfl, rfl⟩ := hints
    have hsteps : (stepsOfOne : Int) ≠ 0 := by
      have := stepsOfOne_pos
      omega
    simp only [equal, value?, beq_iff_eq]
    constructor
    · rintro rfl
      exact ⟨_, rfl, rfl⟩
    · rintro ⟨e, hx, hy⟩
      have hproduct := Exact.finite.inj (Option.some.inj (hx.trans hy.symm))
      exact Int.eq_of_mul_eq_mul_right hsteps hproduct
  · rw [equal]
    · rcases a.value? with _ | x <;> rcases b.value? with _ | y
      · simp only [reduceCtorEq, false_and, exists_false]
      · simp only [reduceCtorEq, false_and, exists_false]
      · simp only [reduceCtorEq, and_false, exists_false]
      · simp only [beq_iff_eq, Option.some.injEq]
        exact ⟨fun h => ⟨x, rfl, h.symm⟩, fun ⟨_, hx, hy⟩ => hx.trans hy.symm⟩
    · intro x y hx hy
      exact hints ⟨x, y, hx, hy⟩

/-- A number that equals itself is compared by its exact value. -/
theorem equal_iff_value {a b : Num} (h : a.equal a = true) :
    a.equal b = true ↔ a.value? = b.value? := by
  obtain ⟨e, he, -⟩ := equal_iff.1 h
  rw [equal_iff, he]
  constructor
  · rintro ⟨e', ha, hb⟩
    rw [ha, hb]
  · intro hb
    exact ⟨e, rfl, hb.symm⟩

theorem same_iff_value {a b : Num} (h : a.equal a = true) :
    a.same b = true ↔ a.value? = b.value? := by
  cases a with
  | nan k => simp [equal, value?] at h
  | int x => exact equal_iff_value h
  | float x => exact equal_iff_value h

end Num

/-! ### Keys -/

/-- **What decides an equality.** -/
inductive Key where
  | nothing
  | number (value : Option Exact)
  | text (s : String)
  | atom (name : String)
  | form (op : String) (args : List Key)
  | list (items : List Key)
  /-- An expression among values. -/
  | expr (e : Key)

/-- An answer is given, and it says whether something is so. -/
def Decides (answer : Option Bool) (p : Prop) : Prop := ∃ b, answer = some b ∧ (b = true ↔ p)

namespace Decides

variable {p q : Prop}

theorem yes (h : p) : Decides (some true) p := ⟨true, rfl, by simp [h]⟩

theorem no (h : ¬ p) : Decides (some false) p := ⟨false, rfl, by simp [h]⟩

theorem of_iff {b : Bool} (h : b = true ↔ p) : Decides (some b) p := ⟨b, rfl, h⟩

/-- The answer for a first part, and where that is so for the rest. -/
theorem and {x y : Option Bool} : Decides x p → Decides y q →
    Decides (match x with | some true => y | answer => answer) (p ∧ q) := by
  rintro ⟨b, rfl, hb⟩ ⟨c, rfl, hc⟩
  cases b with
  | true =>
    exact ⟨c, rfl, by simp [hc, hb.1 rfl]⟩
  | false =>
    have hp : ¬ p := fun h => Bool.false_ne_true (hb.2 h)
    exact ⟨false, rfl, by simp [hp]⟩

theorem congr {x : Option Bool} (h : Decides x p) (hpq : p ↔ q) : Decides x q := by
  obtain ⟨b, hb, hp⟩ := h
  exact ⟨b, hb, hp.trans hpq⟩

theorem eq_some_iff {x : Option Bool} (h : Decides x p) : x = some true ↔ p := by
  obtain ⟨b, rfl, hb⟩ := h
  rw [Option.some.injEq, hb]

end Decides

namespace Term

mutual

/-- **A value whose equality with others is decided**: one in which no NaN stands, and no value
inside an expression. -/
def isComparable : Term → Bool
  | nothing => false
  | truth _ | str _ => true
  | num n => n.equal n
  | list items => allComparable items
  | t => t.isDefinite

/-- Whether the equality of all values with others is decided. -/
def allComparable : List Term → Bool
  | [] => true
  | t :: ts => isComparable t && allComparable ts

end

mutual

/-- **What a value is as an expression.** -/
def exprKey : Term → Key
  | nothing => .nothing
  | truth b => .atom (truthName b)
  | num n => .number n.value?
  | str s => .text s
  | list items => .form "List" (exprKeys items)
  | atom name _ => .atom name
  | numeral n _ => .number n.value?
  | text s _ => .text s
  | form op args _ => .form op (exprKeys args)

/-- What values are as expressions. -/
def exprKeys : List Term → List Key
  | [] => []
  | t :: ts => exprKey t :: exprKeys ts

end

/-- The number that a truth value counts as among items. -/
def truthNumber (b : Bool) : Num := .int (if b then 1 else 0)

mutual

/-- **What a value is as an item of a list.** -/
def itemKey : Term → Key
  | nothing => .nothing
  | truth b => .number (truthNumber b).value?
  | num n => .number n.value?
  | str s => .text s
  | list items => .list (itemKeys items)
  | t => .expr t.exprKey

/-- What values are as items of a list. -/
def itemKeys : List Term → List Key
  | [] => []
  | t :: ts => itemKey t :: itemKeys ts

end

theorem itemKey_of_isExpr {t : Term} (h : t.isExpr = true) : t.itemKey = .expr t.exprKey := by
  cases t with
  | atom | numeral | text | form => rw [itemKey] <;> simp
  | _ => cases h

theorem isComparable_of_isExpr {t : Term} (h : t.isExpr = true) :
    t.isComparable = t.isDefinite := by
  cases t with
  | atom | numeral | text | form => rw [isComparable] <;> simp
  | _ => cases h

/-! ### Values without NaN -/

mutual

/-- **No NaN stands in a term.** -/
def nanFree : Term → Bool
  | num n | numeral n _ => n.equal n
  | list items => allNanFree items
  | form _ args _ => allNanFree args
  | _ => true

/-- Whether no NaN stands in any term. -/
def allNanFree : List Term → Bool
  | [] => true
  | t :: ts => nanFree t && allNanFree ts

end

mutual

theorem isDefinite_iff {t : Term} : t.isDefinite = true ↔ t.isTree = true ∧ t.nanFree = true := by
  cases t with
  | form op args pos => exact allDefinite_iff
  | _ => simp [isDefinite, isTree, nanFree]

theorem allDefinite_iff {ts : List Term} :
    allDefinite ts = true ↔ allTrees ts = true ∧ allNanFree ts = true := by
  match ts with
  | [] => simp [allDefinite, allTrees, allNanFree]
  | t :: ts =>
    simp only [allDefinite, allTrees, allNanFree, Bool.and_eq_true, @isDefinite_iff t,
      @allDefinite_iff ts]
    tauto

end

mutual

/-- **The values whose equality is decided are the proper ones without NaN.** -/
theorem isComparable_iff {t : Term} :
    t.isComparable = true ↔ t.isProper = true ∧ t.nanFree = true := by
  cases t with
  | list items => exact allComparable_iff
  | atom | numeral | text | form =>
    rw [isComparable_of_isExpr rfl, isProper_of_isExpr rfl, isDefinite_iff]
  | _ => simp [isComparable, isProper, nanFree]

theorem allComparable_iff {ts : List Term} :
    allComparable ts = true ↔ allProper ts = true ∧ allNanFree ts = true := by
  match ts with
  | [] => simp [allComparable, allProper, allNanFree]
  | t :: ts =>
    simp only [allComparable, allProper, allNanFree, Bool.and_eq_true, @isComparable_iff t,
      @allComparable_iff ts]
    tauto

end

/-! ### Expressions -/

mutual

/-- **Equality of expressions is decided by their keys**, however numbers are compared, as long as
those that equal themselves are compared by value. -/
theorem decides_matches? {same : Num → Num → Bool}
    (hsame : ∀ m n, m.equal m = true → (same m n = true ↔ m.value? = n.value?)) {t u : Term}
    (ht : t.isDefinite = true) (hu : u.isDefinite = true) :
    Decides (t.matches? same u) (t.exprKey = u.exprKey) := by
  cases t with
  | atom a p =>
    cases u with
    | atom b q => exact .of_iff (by simp [exprKey])
    | numeral | text | form => exact .no (by simp [exprKey])
    | _ => cases hu
  | numeral m p =>
    cases u with
    | numeral n q => exact .of_iff (by simpa [exprKey] using hsame m n ht)
    | atom | text | form => exact .no (by simp [exprKey])
    | _ => cases hu
  | text s p =>
    cases u with
    | text r q => exact .of_iff (by simp [exprKey])
    | atom | numeral | form => exact .no (by simp [exprKey])
    | _ => cases hu
  | form f xs p =>
    cases u with
    | form g ys q =>
      rw [matches?]
      split
      · rename_i h
        simp only [Bool.and_eq_true, beq_iff_eq] at h
        obtain ⟨rfl, hlen⟩ := h
        exact (decides_matchAll? hsame ht hu hlen).congr (by simp [exprKey])
      · rename_i h
        refine .no fun hkey => h ?_
        simp only [exprKey, Key.form.injEq] at hkey
        have hlen := congrArg List.length hkey.2
        rw [length_exprKeys, length_exprKeys] at hlen
        simp [hkey.1, hlen]
    | atom | numeral | text => exact .no (by simp [exprKey])
    | _ => cases hu
  | _ => cases ht

theorem decides_matchAll? {same : Num → Num → Bool}
    (hsame : ∀ m n, m.equal m = true → (same m n = true ↔ m.value? = n.value?)) {ts us : List Term}
    (hts : allDefinite ts = true) (hus : allDefinite us = true) (hlen : ts.length = us.length) :
    Decides (matchAll? same ts us) (exprKeys ts = exprKeys us) := by
  match ts, us with
  | [], [] => exact .yes rfl
  | t :: ts, u :: us =>
    simp only [allDefinite, Bool.and_eq_true] at hts hus
    have hlen : ts.length = us.length := Nat.succ.inj hlen
    have hhead := decides_matches? hsame hts.1 hus.1
    have htail := decides_matchAll? hsame hts.2 hus.2 hlen
    exact (hhead.and htail).congr (by simp [exprKeys])

theorem length_exprKeys (ts : List Term) : (exprKeys ts).length = ts.length := by
  match ts with
  | [] => rfl
  | t :: ts => simp [exprKeys, length_exprKeys ts]

end

/-! ### Items -/

theorem itemKey_ne_expr {t : Term} (h : t.isExpr = false) (k : Key) : t.itemKey ≠ .expr k := by
  cases t with
  | nothing | truth | num | str | list => simp [itemKey]
  | _ => cases h

/-- A number is compared with whatever counts as one. -/
theorem decides_same {m : Num} (hm : m.equal m = true) {u : Term} (hu : u.isExpr = false) :
    Decides (some ((u.asNum?.map m.same).getD false)) (.number m.value? = u.itemKey) := by
  cases u with
  | truth b => exact .of_iff (by simpa [asNum?, itemKey, truthNumber] using Num.same_iff_value hm)
  | num n => exact .of_iff (by simpa [asNum?, itemKey] using Num.same_iff_value hm)
  | nothing | str | list => exact .no (by simp [itemKey])
  | _ => cases hu

mutual

/-- **Equality of values is decided by their keys as items.** -/
theorem decides_sameValue? {t u : Term} (ht : t.isComparable = true) (hu : u.isComparable = true) :
    Decides (t.sameValue? u) (t.itemKey = u.itemKey) := by
  -- an expression equals expressions only, so each side is split by what it is before its kind
  cases hte : t.isExpr with
  | true =>
    rw [sameValue?_of_isExpr hte, itemKey_of_isExpr hte]
    cases hue : u.isExpr with
    | true =>
      rw [isComparable_of_isExpr hte] at ht
      rw [isComparable_of_isExpr hue] at hu
      rw [itemKey_of_isExpr hue]
      exact (decides_matches? (fun m n => Num.same_iff_value) ht hu).congr (by simp)
    | false => exact .no (itemKey_ne_expr hue _).symm
  | false =>
    cases hue : u.isExpr with
    | true =>
      rw [sameValue?_of_not_isExpr hte hue, itemKey_of_isExpr hue]
      exact .no (itemKey_ne_expr hte _)
    | false =>
      cases t with
      | truth a =>
        rw [sameValue?, itemKey]
        exact decides_same (by cases a <;> rfl) hue
      | num m =>
        rw [sameValue?, itemKey]
        exact decides_same ht hue
      | str s =>
        cases u with
        | str r => exact .of_iff (by simp [itemKey])
        | _ => exact .no (by simp [itemKey])
      | list xs =>
        cases u with
        | list ys =>
          rw [sameValue?]
          split
          · rename_i hlen
            exact (decides_sameValues? ht hu (by simpa using hlen)).congr (by simp [itemKey])
          · rename_i hlen
            refine .no fun hkey => hlen ?_
            simp only [itemKey, Key.list.injEq] at hkey
            have hlen := congrArg List.length hkey
            rw [length_itemKeys, length_itemKeys] at hlen
            simp [hlen]
        | _ => exact .no (by simp [itemKey])
      | nothing => cases ht
      | _ => cases hte

theorem decides_sameValues? {ts us : List Term} (hts : allComparable ts = true)
    (hus : allComparable us = true) (hlen : ts.length = us.length) :
    Decides (sameValues? ts us) (itemKeys ts = itemKeys us) := by
  match ts, us with
  | [], [] => exact .yes rfl
  | t :: ts, u :: us =>
    simp only [allComparable, Bool.and_eq_true] at hts hus
    have hlen : ts.length = us.length := Nat.succ.inj hlen
    have hhead : Decides (sameItem? t u) (t.itemKey = u.itemKey) := by
      rw [sameItem?]
      split
      · rename_i heq
        exact .yes (by rw [heq])
      · exact decides_sameValue? hts.1 hus.1
    have htail := decides_sameValues? hts.2 hus.2 hlen
    rw [sameValues?_cons]
    exact (hhead.and htail).congr (by simp [itemKeys])

theorem length_itemKeys (ts : List Term) : (itemKeys ts).length = ts.length := by
  match ts with
  | [] => rfl
  | t :: ts => simp [itemKeys, length_itemKeys ts]

end

/-- **Lists are compared as items.** -/
theorem decides_equal?_lists {xs ys : List Term} (hxs : (list xs).isComparable = true)
    (hys : (list ys).isComparable = true) :
    Decides ((list xs).equal? (list ys)) ((list xs).itemKey = (list ys).itemKey) := by
  have hsame : (list xs).equal? (list ys) = (list xs).sameValue? (list ys) := by
    rw [equal?, sameValue?]
  rw [hsame]
  exact decides_sameValue? hxs hys

/-! ### Values as expressions -/

mutual

/-- A value is taken as an expression with the key that it has as one. -/
theorem exists_toExpr? {t : Term} (ht : t.isComparable = true) :
    ∃ e, t.toExpr? = some e ∧ e.isDefinite = true ∧ e.exprKey = t.exprKey := by
  cases t with
  | nothing => cases ht
  | truth b => exact ⟨_, rfl, rfl, rfl⟩
  | num n => exact ⟨_, rfl, ht, rfl⟩
  | str s => exact ⟨_, rfl, rfl, rfl⟩
  | list items =>
    obtain ⟨es, hes, hdefinite, hkeys⟩ := exists_toExprs? ht
    exact ⟨form "List" es .none, by rw [toExpr?, hes]; rfl, hdefinite, by
      rw [exprKey, exprKey, hkeys]⟩
  | atom | numeral | text | form =>
    rw [isComparable_of_isExpr rfl] at ht
    exact ⟨_, by rw [toExpr?] <;> simp, ht, rfl⟩

theorem exists_toExprs? {ts : List Term} (hts : allComparable ts = true) :
    ∃ es, toExprs? ts = some es ∧ allDefinite es = true ∧ exprKeys es = exprKeys ts := by
  match ts with
  | [] => exact ⟨[], rfl, rfl, rfl⟩
  | t :: ts =>
    simp only [allComparable, Bool.and_eq_true] at hts
    obtain ⟨e, he, hdefinite, hkey⟩ := exists_toExpr? hts.1
    obtain ⟨es, hes, hall, hkeys⟩ := exists_toExprs? hts.2
    exact ⟨e :: es, by simp [toExprs?, he, hes], by simp [allDefinite, hdefinite, hall],
      by rw [exprKeys, exprKeys, hkey, hkeys]⟩

end

/-- Where one of two values is an expression, both are compared as expressions. -/
theorem decides_equal?_of_isExpr {a b : Term} (ha : a.isComparable = true)
    (hb : b.isComparable = true) (h : (a.isExpr || b.isExpr) = true) :
    Decides (a.equal? b) (a.exprKey = b.exprKey) := by
  obtain ⟨x, hx, hxd, hxk⟩ := exists_toExpr? ha
  obtain ⟨y, hy, hyd, hyk⟩ := exists_toExpr? hb
  rw [equal?_of_isExpr h, hx, hy, ← hxk, ← hyk]
  exact decides_matches? (fun m n => Num.equal_iff_value) hxd hyd

/-- **Values that are not both lists are compared as expressions.** -/
theorem decides_equal? {a b : Term} (ha : a.isComparable = true) (hb : b.isComparable = true)
    (h : ∀ xs ys, a = list xs → b ≠ list ys) : Decides (a.equal? b) (a.exprKey = b.exprKey) := by
  cases he : a.isExpr || b.isExpr with
  | true => exact decides_equal?_of_isExpr ha hb he
  | false =>
    -- Kinds that differ have keys that differ.
    have hkinds (hfalse : a.equal? b = some false) (hkey : a.exprKey ≠ b.exprKey) :
        Decides (a.equal? b) (a.exprKey = b.exprKey) := by
      rw [hfalse]
      exact .no hkey
    cases a with
    | truth x =>
      cases b with
      | truth y =>
        have hxy : (truth x).equal? (truth y) = some (x == y) := by cases x <;> cases y <;> rfl
        rw [hxy]
        exact .of_iff (by cases x <;> cases y <;> simp [exprKey, truthName])
      | num n => exact hkinds (by cases n <;> rfl) (by simp [exprKey])
      | str | list => exact hkinds rfl (by simp [exprKey])
      | nothing => cases hb
      | _ => cases he
    | num m =>
      cases b with
      | num n => exact .of_iff (by simpa [exprKey] using Num.equal_iff_value ha)
      | truth | str | list => exact hkinds (by cases m <;> rfl) (by simp [exprKey])
      | nothing => cases hb
      | _ => cases he
    | str s =>
      cases b with
      | str r => exact .of_iff (by simp [exprKey])
      | num n => exact hkinds (by cases n <;> rfl) (by simp [exprKey])
      | truth | list => exact hkinds rfl (by simp [exprKey])
      | nothing => cases hb
      | _ => cases he
    | list xs =>
      cases b with
      | list ys => exact absurd rfl (h xs ys rfl)
      | num n => exact hkinds (by cases n <;> rfl) (by simp [exprKey])
      | truth | str => exact hkinds rfl (by simp [exprKey])
      | nothing => cases hb
      | _ => cases he
    | nothing => cases ha
    | _ => cases he

/-! ### Lists of data -/

mutual

/-- **A number, a string, or a list of such data.** -/
def isData : Term → Bool
  | num n => n.equal n
  | str _ => true
  | list items => allData items
  | _ => false

/-- Whether all terms are data. -/
def allData : List Term → Bool
  | [] => true
  | t :: ts => isData t && allData ts

end

mutual

/-- **Of data, both keys decide the same.** -/
theorem exprKey_eq_iff {t u : Term} (ht : t.isData = true) (hu : u.isData = true) :
    t.exprKey = u.exprKey ↔ t.itemKey = u.itemKey := by
  cases t with
  | num m =>
    cases u with
    | num | str | list => simp [exprKey, itemKey]
    | _ => cases hu
  | str s =>
    cases u with
    | num | str | list => simp [exprKey, itemKey]
    | _ => cases hu
  | list xs =>
    cases u with
    | list ys => simpa [exprKey, itemKey] using exprKeys_eq_iff ht hu
    | num | str => simp [exprKey, itemKey]
    | _ => cases hu
  | _ => cases ht

theorem exprKeys_eq_iff {ts us : List Term} (hts : allData ts = true) (hus : allData us = true) :
    exprKeys ts = exprKeys us ↔ itemKeys ts = itemKeys us := by
  match ts, us with
  | [], [] | [], _ :: _ | _ :: _, [] => simp [exprKeys, itemKeys]
  | t :: ts, u :: us =>
    simp only [allData, Bool.and_eq_true] at hts hus
    simp only [exprKeys, itemKeys, List.cons.injEq, exprKey_eq_iff hts.1 hus.1,
      exprKeys_eq_iff hts.2 hus.2]

end

/-! ### Equality of values -/

section

variable {a b c : Term} (ha : a.isComparable = true) (hb : b.isComparable = true)
  (hc : c.isComparable = true)

include ha

theorem equal?_self : a.equal? a = some true := by
  by_cases hl : ∃ xs, a = list xs
  · obtain ⟨xs, rfl⟩ := hl
    exact (decides_equal?_lists ha ha).eq_some_iff.2 rfl
  · exact (decides_equal? ha ha fun xs _ hxs => absurd ⟨xs, hxs⟩ hl).eq_some_iff.2 rfl

include hb

/-- **Equality is decided by one of two keys.** -/
theorem exists_decides_equal? : ∃ key : Term → Key, Decides (a.equal? b) (key a = key b) ∧
    Decides (b.equal? a) (key b = key a) := by
  by_cases hl : ∃ xs ys, a = list xs ∧ b = list ys
  · obtain ⟨xs, ys, rfl, rfl⟩ := hl
    exact ⟨itemKey, decides_equal?_lists ha hb, decides_equal?_lists hb ha⟩
  · have hab (xs ys : List Term) (hxs : a = list xs) : b ≠ list ys := fun hys =>
      hl ⟨xs, ys, hxs, hys⟩
    exact ⟨exprKey, decides_equal? ha hb hab,
      decides_equal? hb ha fun ys xs hys hxs => hab xs ys hxs hys⟩

/-- **Equality is decided**, in the same way from both sides. -/
theorem equal?_comm : ∃ x, a.equal? b = some x ∧ b.equal? a = some x := by
  obtain ⟨key, ⟨x, hx, hxk⟩, ⟨y, hy, hyk⟩⟩ := exists_decides_equal? ha hb
  have hxy : x = y := by
    rw [Bool.eq_iff_iff, hxk, hyk, eq_comm]
  exact ⟨x, hx, hxy ▸ hy⟩

/-- Among values that are no expressions, a list equals only lists. -/
theorem exists_list_of_equal? (he : b.isExpr = false) (h : a.equal? b = some true) {xs : List Term}
    (hxs : a = list xs) : ∃ ys, b = list ys := by
  by_contra hl
  have hkey := (decides_equal? ha hb fun _ ys _ hys => hl ⟨ys, hys⟩).eq_some_iff.1 h
  rw [hxs] at hkey
  cases b with
  | list ys => exact hl ⟨ys, rfl⟩
  | nothing | truth | num | str => simp [exprKey] at hkey
  | _ => cases he

/-- Values whose lists hold data are compared as expressions. -/
theorem equal?_iff_exprKey (had : ∀ xs, a = list xs → a.isData = true)
    (hbd : ∀ ys, b = list ys → b.isData = true) :
    a.equal? b = some true ↔ a.exprKey = b.exprKey := by
  by_cases hl : ∃ xs ys, a = list xs ∧ b = list ys
  · obtain ⟨xs, ys, rfl, rfl⟩ := hl
    rw [(decides_equal?_lists ha hb).eq_some_iff, exprKey_eq_iff (had xs rfl) (hbd ys rfl)]
  · exact (decides_equal? ha hb fun xs ys hxs hys => hl ⟨xs, ys, hxs, hys⟩).eq_some_iff

include hc

/-- **Equality is transitive** among values that are no expressions. -/
theorem equal?_trans_of_not_isExpr (hae : a.isExpr = false) (hbe : b.isExpr = false)
    (hce : c.isExpr = false) (hab : a.equal? b = some true) (hbc : b.equal? c = some true) :
    a.equal? c = some true := by
  -- lists equal only lists here, so that one key decides all three
  by_cases hl : ∃ ys, b = list ys
  · obtain ⟨ys, rfl⟩ := hl
    obtain ⟨x, hx, hba⟩ := equal?_comm ha hb
    obtain rfl : x = true := Option.some.inj (hx.symm.trans hab)
    obtain ⟨xs, rfl⟩ := exists_list_of_equal? hb ha hae hba rfl
    obtain ⟨zs, rfl⟩ := exists_list_of_equal? hb hc hce hbc rfl
    rw [(decides_equal?_lists ha hb).eq_some_iff] at hab
    rw [(decides_equal?_lists hb hc).eq_some_iff] at hbc
    rw [(decides_equal?_lists ha hc).eq_some_iff, hab, hbc]
  · have hal (xs : List Term) : a ≠ list xs := fun hxs =>
      hl (exists_list_of_equal? ha hb hbe hab hxs)
    rw [(decides_equal? ha hb fun xs _ hxs => absurd hxs (hal xs)).eq_some_iff] at hab
    rw [(decides_equal? hb hc fun ys _ hys => absurd ⟨ys, hys⟩ hl).eq_some_iff] at hbc
    rw [(decides_equal? ha hc fun xs _ hxs => absurd hxs (hal xs)).eq_some_iff, hab, hbc]

/-- **Equality is transitive** among values whose lists hold data. -/
theorem equal?_trans_of_isData (had : ∀ xs, a = list xs → a.isData = true)
    (hbd : ∀ ys, b = list ys → b.isData = true) (hcd : ∀ zs, c = list zs → c.isData = true)
    (hab : a.equal? b = some true) (hbc : b.equal? c = some true) : a.equal? c = some true := by
  rw [equal?_iff_exprKey ha hb had hbd] at hab
  rw [equal?_iff_exprKey hb hc hbd hcd] at hbc
  rw [equal?_iff_exprKey ha hc had hcd, hab, hbc]

end

end Term

/-! ### Calls -/

namespace Registry

/-- **What a call answers**: the values of its arguments, pushed on any stack, are replaced by one
value, and the world stays as it was. -/
def Answers (r : Registry) (name : String) (args : List Term) (v : Term) : Prop :=
  ∀ (rounds fuel : Nat) (stack : Stack) (w : World),
    r.invoke rounds (r.evaluate fuel) name args.length ⟨stack.pushAll args, w⟩ =
      .value v ⟨stack.push v, w⟩

theorem lookup_equals :
    coreRegistry.lookup "Equals" = some ⟨"Equals", .primitive .equals, 2, .fixed, none⟩ := by
  rw [lookup, CoreTable.entries_eq]
  rfl

/-- A call of `Equals` answers what equality decides. -/
theorem answers_equals_iff {a b : Term} {x : Bool} :
    coreRegistry.Answers "Equals" [a, b] (.truth x) ↔ a.equal? b = some x := by
  have hr := build_callsPrimitives build_coreDeclarations
  have haccepts :
      Entry.accepts ⟨"Equals", .primitive .equals, 2, .fixed, none⟩ [a, b].length = true := rfl
  have hinvoke (rounds fuel : Nat) (stack : Stack) (w : World) :=
    coreRegistry.invoke_pushAll rounds (coreRegistry.evaluate_stackless hr fuel) lookup_equals rfl
      haccepts stack w
  have hsame : sameAs [a, b] =
      (a.equal? b).elim (.error .bareValue) fun same => .ok (.truth same) := by
    change (equality a b).bind (fun same => .ok (Term.truth same)) = _
    rw [equality]
    cases a.equal? b <;> rfl
  have hrun (rounds fuel : Nat) (w : World) :
      Primitive.run coreRegistry rounds (coreRegistry.evaluateDirect fuel) .equals [a, b] w =
        (a.equal? b).elim (.failure .bareValue w) fun same => .value (.truth same) w := by
    simp only [Primitive.run, Primitive.compute?, hsame]
    cases a.equal? b <;> rfl
  constructor
  · intro h
    have hone := (hinvoke 0 0 .empty .empty).symm.trans (h 0 0 .empty .empty)
    rw [hrun] at hone
    cases heq : a.equal? b with
    | none => simp [heq] at hone
    | some y =>
      simp only [heq, Option.elim, Outcome.value.injEq, Term.truth.injEq] at hone
      rw [hone.1]
  · intro h rounds fuel stack w
    refine (hinvoke rounds fuel stack w).trans ?_
    rw [hrun, h]
    rfl

end Registry

/-- **Equality is an equivalence of values without NaN, but for lists that stand beside
expressions**: every value equals itself, two values are equal from both sides or from neither, and
equality is transitive among values that are no expressions, and among all values where those that
are lists hold data. -/
theorem equals_equivalence {a b c : Term} (ha : a.isComparable = true) (hb : b.isComparable = true)
    (hc : c.isComparable = true) :
    coreRegistry.Answers "Equals" [a, a] (.truth true) ∧
      (∃ x, coreRegistry.Answers "Equals" [a, b] (.truth x) ∧
        coreRegistry.Answers "Equals" [b, a] (.truth x)) ∧
      ((∀ t ∈ [a, b, c], t.isExpr = false) ∨
          (∀ t ∈ [a, b, c], ∀ items, t = .list items → t.isData = true) →
        coreRegistry.Answers "Equals" [a, b] (.truth true) →
        coreRegistry.Answers "Equals" [b, c] (.truth true) →
        coreRegistry.Answers "Equals" [a, c] (.truth true)) := by
  simp only [Registry.answers_equals_iff, List.forall_mem_cons, List.not_mem_nil, false_implies,
    implies_true, and_true]
  refine ⟨Term.equal?_self ha, Term.equal?_comm ha hb, ?_⟩
  rintro (⟨hae, hbe, hce⟩ | ⟨had, hbd, hcd⟩) hab hbc
  · exact Term.equal?_trans_of_not_isExpr ha hb hc hae hbe hce hab hbc
  · exact Term.equal?_trans_of_isData ha hb hc had hbd hcd hab hbc

/-- `{1, "a"}`, the same list held, and the list of a double and a string. -/
theorem equals_equivalence_held_list :
    let a := Term.list [.num (.int 1), .str "a"]
    let b := Term.form "List" [.numeral (.int 1) ⟨1, 7⟩, .text "a" ⟨1, 10⟩] ⟨1, 6⟩
    let c := Term.list [.num (.int 1), .str "a"]
    (a.isComparable = true ∧ b.isComparable = true ∧ c.isComparable = true) ∧
      coreRegistry.Answers "Equals" [a, b] (.truth true) ∧
      coreRegistry.Answers "Equals" [b, c] (.truth true) ∧
      coreRegistry.Answers "Equals" [a, c] (.truth true) := by
  intro a b c
  have ha : a.isComparable = true := by decide
  have hb : b.isComparable = true := by decide
  have hab : coreRegistry.Answers "Equals" [a, b] (.truth true) :=
    Registry.answers_equals_iff.2 (by rfl)
  have hba : coreRegistry.Answers "Equals" [b, c] (.truth true) :=
    Registry.answers_equals_iff.2 (by rfl)
  have hlists : ∀ t ∈ [a, b, c], ∀ items, t = .list items → t.isData = true := by
    simp [a, b, c, Term.isData, Term.allData, Num.equal]
  exact ⟨⟨ha, hb, ha⟩, hab, hba, (equals_equivalence ha hb ha).2.2 (.inr hlists) hab hba⟩

/-- **Equality is not transitive**: `{1}`, `{True}` and `Hold({True})` evaluate to values of which
the first equals the second and the second the third, but the first differs from the third. -/
theorem equals_not_transitive :
    let ones := Term.form "List" [.numeral (.int 1) ⟨1, 2⟩] ⟨1, 1⟩
    let trues := Term.form "List" [.atom "True" ⟨1, 2⟩] ⟨1, 1⟩
    let a := Term.list [.num (.int 1)]
    let b := Term.list [.truth true]
    (coreRegistry.evaluate 3 ones .empty = .value a .empty ∧
      coreRegistry.evaluate 3 trues .empty = .value b .empty ∧
      coreRegistry.evaluate 3 (.form "Hold" [trues] ⟨1, 1⟩) .empty = .value trues .empty) ∧
    (a.isComparable = true ∧ b.isComparable = true ∧ trues.isComparable = true) ∧
      coreRegistry.Answers "Equals" [a, b] (.truth true) ∧
      coreRegistry.Answers "Equals" [b, trues] (.truth true) ∧
      coreRegistry.Answers "Equals" [a, trues] (.truth false) := by
  simp only [Registry.answers_equals_iff]
  exact ⟨⟨rfl, rfl, rfl⟩, by decide⟩

end TermCalc
