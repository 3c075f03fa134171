import TermCalc.Term.Basic

/-!
# Equality of terms

* `Term.decEq`: whether two terms are the same in every respect, places and marks included.
* `Term.matches?`, `Term.sameStructure`: equality of expressions, which ignores places.
* `Term.sameValue?`: equality of values; truth values count as the numbers 0 and 1, and an
  expression equals no value of another kind.
* `Term.equal?`: equality as the calculator decides it.

An equality is undecided, `none`, where it asks a value that stands inside an expression without
having been converted whether it is the same expression as another.
-/

namespace TermCalc.Term

mutual

/-- Decide whether two terms are the same in every respect. -/
def decEq (t u : Term) : Decidable (t = u) :=
  if h : t.ctorIdx = u.ctorIdx then
    match t, u, h with
    | nothing, nothing, _ => isTrue rfl
    | truth a, truth b, _ => decidable_of_iff (a = b) (by simp)
    | num m, num n, _ => decidable_of_iff (m = n) (by simp)
    | str s, str r, _ => decidable_of_iff (s = r) (by simp)
    | list xs, list ys, _ =>
      match decEqAll xs ys with
      | isTrue h => isTrue (by rw [h])
      | isFalse h => isFalse (by simp [h])
    | atom a p, atom b q, _ => decidable_of_iff (a = b ∧ p = q) (by simp)
    | numeral m p, numeral n q, _ => decidable_of_iff (m = n ∧ p = q) (by simp)
    | text s p, text r q, _ => decidable_of_iff (s = r ∧ p = q) (by simp)
    | form f xs p, form g ys q, _ =>
      match decEqAll xs ys with
      | isTrue h => decidable_of_iff (f = g ∧ p = q) (by simp [h])
      | isFalse h => isFalse (by simp [h])
  else isFalse fun e => h (by rw [e])

/-- Decide whether two lists of terms are the same. A term that both lists share in memory is not
gone through. -/
def decEqAll (ts us : List Term) : Decidable (ts = us) :=
  match ts, us with
  | [], [] => isTrue rfl
  | t :: ts, u :: us =>
    match withPtrEqDecEq t u fun _ => decEq t u with
    | isTrue h =>
      match decEqAll ts us with
      | isTrue hs => isTrue (by rw [h, hs])
      | isFalse hs => isFalse (by simp [hs])
    | isFalse h => isFalse (by simp [h])
  | [], _ :: _ | _ :: _, [] => isFalse nofun

end

instance : DecidableEq Term := fun t u => withPtrEqDecEq t u fun _ => decEq t u

mutual

/-- **Equality of expressions**: of kind, name, content and arguments, wherever they stand. Forms
are compared argument by argument, up to the first that differs. -/
def matches? (same : Num → Num → Bool) : Term → Term → Option Bool
  | atom a _, u => match u with | atom b _ => some (a == b) | _ => some false
  | numeral m _, u => match u with | numeral n _ => some (same m n) | _ => some false
  | text s _, u => match u with | text r _ => some (s == r) | _ => some false
  | form f xs _, u =>
    match u with
    | form g ys _ =>
      if f == g && xs.length == ys.length then matchAll? same xs ys else some false
    | _ => some false
  | _, _ => none

/-- Equality of as many arguments as both lists have. -/
def matchAll? (same : Num → Num → Bool) : List Term → List Term → Option Bool
  | [], _ => some true
  | t :: ts, us =>
    match us with
    | [] => some true
    | u :: us =>
      match matches? same t u with
      | some true => matchAll? same ts us
      | answer => answer

end

/-- Whether two expressions are equal, numbers being compared by exact value. -/
def sameStructure (t u : Term) : Bool := t.matches? Num.equal u == some true

/-- The number that a value counts as in a comparison of values. -/
def asNum? : Term → Option Num
  | truth b => some (.int (if b then 1 else 0))
  | num n => some n
  | _ => none

mutual

/-- **Equality of values.** A NaN is the same as itself here. -/
def sameValue? : Term → Term → Option Bool
  | nothing, u => match u with | nothing => some true | _ => some false
  | str s, u => match u with | str r => some (s == r) | _ => some false
  | list xs, u =>
    match u with
    | list ys => if xs.length == ys.length then sameValues? xs ys else some false
    | _ => some false
  | truth b, u => some ((u.asNum?.map (Num.same (.int (if b then 1 else 0)))).getD false)
  | num m, u => some ((u.asNum?.map m.same).getD false)
  | t, u => if u.isExpr then matches? Num.same t u else some false

/-- Equality of as many values as both lists have, up to the first that differs. An item is the same
as itself, whatever it holds: one that both lists share is not gone through, which is what keeps
lists of shared lists cheap. -/
def sameValues? : List Term → List Term → Option Bool
  | [], _ => some true
  | t :: ts, us =>
    match us with
    | [] => some true
    | u :: us =>
      if t = u then sameValues? ts us
      else
        match sameValue? t u with
        | some true => sameValues? ts us
        | answer => answer

end

/-- **Equality as the calculator decides it.** Numbers are compared by exact value. Where one side
is an expression, both are taken as expressions; else the kinds must agree and the values be
equal. -/
def equal? (a b : Term) : Option Bool :=
  match a, b with
  | num m, num n => some (m.equal n)
  | list xs, list ys => if xs.length == ys.length then sameValues? xs ys else some false
  | a, b =>
    if a.isExpr || b.isExpr then
      match a.toExpr?, b.toExpr? with
      | some x, some y => x.matches? Num.equal y
      | _, _ => some false
    else if a.typeName == b.typeName then a.sameValue? b
    else some false

end TermCalc.Term
