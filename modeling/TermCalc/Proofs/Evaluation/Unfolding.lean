import TermCalc.Proofs.Evaluation.Stackless
import TermCalc.Proofs.Registry.Table
import TermCalc.Proofs.Session.Statements

/-!
# Unfolding control

The builtins of the core table that decide what is evaluated are alike to others, one step further
on: a loop is a branch around its body and the loop.

* `Registry.Equivalent`: **expressions that end together and alike**, whatever they start from.
* `Registry.Covered`: an expression ends as another does, with fuel enough. Both ways, that is
  equivalence.
* `CoreTable.evaluateDirect_and`, `CoreTable.evaluateDirect_while`, …: what the builtins evaluate,
  without a stack.
* `CoreTable.equivalent_and`, `CoreTable.equivalent_while`, …: the laws one by one.
* `Registry.evaluateAll_of_not_writable`: statements are evaluated in order up to one that cannot be
  shown.
* `CoreTable.evaluateAll_eq`, `Session.onMachine_evaluateAll`: otherwise they are the sequence of
  them, and a session evaluates them as the registry does.
* `control_unfolds`: **all laws together.**
-/

namespace TermCalc

/-! ### Equivalent expressions -/

namespace Action

/-- **An action ends as another does**, wherever that one ends. -/
abbrev Below {α : Type} (x y : Action World α) : Prop := (Simulation.extension World).Related x y

variable {α : Type} {x y z : Action World α}

theorem Below.refl (x : Action World α) : Below x x := fun _ _ => rfl

theorem Below.trans (h : Below x y) (h' : Below y z) : Below x z := fun w hw =>
  (h' w (by rwa [h w hw])).trans (h w hw)

theorem below_exhausted : Below exhausted x := fun _ h => absurd rfl h

end Action

open TermCalc.Action (Below below_exhausted)

namespace Registry

variable {r : Registry} {t u : Term}

/-- **Expressions that are evaluated alike.** From every machine both end, and in the same value or
failure and the same machine, or neither ends. -/
def Equivalent (r : Registry) (t u : Term) : Prop :=
  ∀ m o, Ends (fun fuel => r.evaluate fuel t m) o ↔ Ends (fun fuel => r.evaluate fuel u m) o

/-- Whatever the fuel for one expression, with some fuel another ends as it does. -/
def Covered (r : Registry) (t u : Term) : Prop :=
  ∀ n, ∃ m, Below (r.evaluateDirect n t) (r.evaluateDirect m u)

theorem Covered.of_succ
    (h : ∀ n, ∃ m, Below (r.evaluateDirect (n + 1) t) (r.evaluateDirect m u)) : r.Covered t u
  | 0 => ⟨0, below_exhausted⟩
  | n + 1 => h n

theorem Covered.ends (h : r.Covered t u) {w : World} {o : Outcome World Term}
    (ht : Ends (fun fuel => r.evaluateDirect fuel t w) o) :
    Ends (fun fuel => r.evaluateDirect fuel u w) o := by
  obtain ⟨hne, n, hn⟩ := ht
  obtain ⟨m, hm⟩ := h n
  obtain rfl := hn n (Nat.le_refl n)
  have hends := r.ends_evaluateDirect (n := m) (t := u) (w := w) (by rwa [hm w hne])
  rwa [hm w hne] at hends

/-- **Expressions that cover each other** are equivalent. -/
theorem Covered.equivalent (hr : r.CallsPrimitives) (h : r.Covered t u) (h' : r.Covered u t) :
    r.Equivalent t u := by
  rintro ⟨stack, w⟩ o
  rw [r.ends_evaluate_iff hr, r.ends_evaluate_iff hr]
  exact ⟨fun ⟨o', ho', heq⟩ => ⟨o', h.ends ho', heq⟩, fun ⟨o', ho', heq⟩ => ⟨o', h'.ends ho', heq⟩⟩

/-- A builtin that holds its operands is its primitive on them. -/
theorem evaluateDirect_held {name : String} {entry : Entry} {p : Primitive} {ts : List Term}
    (he : r.lookup name = some entry) (hp : entry.implementation = .primitive p)
    (hholds : entry.flags.holds = true) (ha : entry.accepts ts.length = true) (n : Nat)
    (pos : Pos) :
    r.evaluateDirect (n + 1) (.form name ts pos) = p.run r n (r.evaluateDirect n) ts := by
  have hvalues (ts : List Term) (w : World) :
      operandValues (r.evaluateDirect n) true ts w = .value ts w := by
    induction ts generalizing w with
    | nil => rfl
    | cons t ts ih =>
      change ((operandValues (r.evaluateDirect n) true ts w).andThen _) = _
      rw [ih]
      rfl
  funext w
  rw [evaluateDirect, evaluateDirectOnce, r.applyDirect_accepted n he hp ha]
  dsimp only
  rw [hholds, hvalues]
  rfl

end Registry

/-- Nothing is left of the value before a sequence that is not empty. -/
theorem sequence_eq {σ : Type} [HasWorld σ] (ev : Evaluator σ) {ts : List Term} (hts : ts ≠ [])
    (v v' : Term) : sequence ev v ts = sequence ev v' ts := by
  cases ts with
  | nil => exact absurd rfl hts
  | cons t ts => rfl

/-- A sequence in two parts goes on from the first to the second. -/
theorem sequence_append {σ : Type} [HasWorld σ] (ev : Evaluator σ) (v : Term) (ts us : List Term) :
    sequence ev v (ts ++ us) = sequence ev v ts >>= fun v => sequence ev v us := by
  induction ts generalizing v with
  | nil => rfl
  | cons t ts ih => simp only [List.cons_append, sequence, ih, bind_assoc]

namespace CoreTable

attribute [local irreducible] coreRegistry

theorem callsPrimitives : coreRegistry.CallsPrimitives :=
  Registry.build_callsPrimitives build_coreDeclarations

/-- How the core table evaluates without a stack. -/
abbrev eval (fuel : Nat) : Evaluator World := coreRegistry.evaluateDirect fuel

variable {ts es : List Term} {c e b : Term} {n : Nat} {p q s u : Pos}

/-- A builtin that takes all of enough operands unevaluated. -/
theorem evaluateDirect_heldAtLeast {name : String} {f : Primitive} {arity : Nat}
    (he : coreRegistry.lookup name = some ⟨name, .primitive f, arity, .heldAtLeast, none⟩)
    (hts : arity ≤ ts.length) : eval (n + 1) (.form name ts p) = f.run coreRegistry n (eval n) ts :=
  Registry.evaluateDirect_held he rfl rfl (by simpa [Entry.accepts, Flags.heldAtLeast]) n p

theorem evaluateDirect_and (hts : ts ≠ []) :
    eval (n + 1) (.form "And" ts p) = conjunction (eval n) ts := by
  have he : coreRegistry.lookup "And" = some ⟨"And", .primitive .and, 1, .heldAtLeast, none⟩ := by
    rw [Registry.lookup, entries_eq]; rfl
  exact evaluateDirect_heldAtLeast he (List.length_pos_iff.2 hts)

theorem evaluateDirect_or (hts : ts ≠ []) :
    eval (n + 1) (.form "Or" ts p) = disjunction (eval n) ts := by
  have he : coreRegistry.lookup "Or" = some ⟨"Or", .primitive .or, 1, .heldAtLeast, none⟩ := by
    rw [Registry.lookup, entries_eq]; rfl
  exact evaluateDirect_heldAtLeast he (List.length_pos_iff.2 hts)

theorem evaluateDirect_prog (ts : List Term) :
    eval (n + 1) (.form "Prog" ts p) = sequence (eval n) (.truth true) ts := by
  have he : coreRegistry.lookup "Prog" =
      some ⟨"Prog", .primitive .prog, 0, .heldAtLeast, none⟩ := by
    rw [Registry.lookup, entries_eq]; rfl
  exact evaluateDirect_heldAtLeast he (Nat.zero_le _)

theorem evaluateDirect_if : eval (n + 1) (.form "If" [c, e, b] p) = branch (eval n) [c, e, b] := by
  have he : coreRegistry.lookup "If" =
      some ⟨"If", .primitive .ifThen, 2, .heldAtLeast, some 3⟩ := by
    rw [Registry.lookup, entries_eq]; rfl
  exact Registry.evaluateDirect_held he rfl rfl rfl n p

theorem evaluateDirect_while : eval (n + 1) (.form "While" [c, b] p) = loop (eval n) c b n := by
  have he : coreRegistry.lookup "While" = some ⟨"While", .primitive .whileDo, 2, .held, none⟩ := by
    rw [Registry.lookup, entries_eq]; rfl
  exact Registry.evaluateDirect_held he rfl rfl rfl n p

theorem evaluateDirect_hold (he : e.isExpr = true) :
    eval (n + 1) (.form "Hold" [e] p) = pure e := by
  have hentry : coreRegistry.lookup "Hold" = some ⟨"Hold", .primitive .hold, 1, .held, none⟩ := by
    rw [Registry.lookup, entries_eq]; rfl
  have hsettle : (settle e : Action World Term) = pure e :=
    settle_of_not_num (by rintro m rfl; cases he)
  exact (Registry.evaluateDirect_held hentry rfl rfl rfl n p).trans hsettle

theorem evaluateDirect_eval : eval (n + 1) (.form "Eval" [e] p) = eval n e >>= eval n := by
  have he : coreRegistry.lookup "Eval" = some ⟨"Eval", .primitive .eval, 1, .fixed, none⟩ := by
    rw [Registry.lookup, entries_eq]; rfl
  funext w
  rw [eval, Registry.evaluateDirect, Registry.evaluateDirectOnce,
    Registry.applyDirect_accepted _ n he rfl rfl]
  change ((eval n e w).andThen _).andThen _ = (eval n e w).andThen _
  cases eval n e w <;> rfl

/-! ### The laws one by one -/

/-- **Expressions are equivalent** if every step of either is one of the other, with fuel enough. -/
theorem equivalent_of_steps {t t' : Term} (h : ∀ n, ∃ m, Below (eval (n + 1) t) (eval m t'))
    (h' : ∀ n, ∃ m, Below (eval (n + 1) t') (eval m t)) : coreRegistry.Equivalent t t' :=
  Registry.Covered.equivalent callsPrimitives (.of_succ h) (.of_succ h')

theorem below_eval {n m : Nat} (h : n ≤ m) (t : Term) : Below (eval n t) (eval m t) :=
  fun _ hw => coreRegistry.evaluateDirect_mono h hw

theorem below_condition {n m : Nat} (h : n ≤ m) (c : Term) :
    Below (condition (eval n) c) (condition (eval m) c) :=
  (Simulation.extension World).condition (below_eval h) c

theorem below_bind {α β : Type} {x y : Action World α} {f g : α → Action World β} (h : Below x y)
    (hf : ∀ a, Below (f a) (g a)) : Below (x >>= f) (y >>= g) :=
  (Simulation.extension World).related_bind h hf

/-- A branch goes on from its condition with one of two expressions. -/
theorem branch_eq (ev : Evaluator World) (c e b : Term) :
    branch ev [c, e, b] = condition ev c >>= fun holds => if holds then ev e else ev b := rfl

theorem sequence_pair (ev : Evaluator World) (v t t' : Term) :
    sequence ev v [t, t'] = ev t >>= fun _ => ev t' :=
  congrArg (ev t >>= ·) (funext fun _ => bind_pure (ev t'))

/-- **What decides a condition first** and goes on with one of two expressions is a branch. -/
theorem equivalent_if {t x y : Term} (h : ∀ n, eval (n + 1) t =
    condition (eval n) c >>= fun holds => if holds then eval (n + 1) x else eval (n + 1) y) :
    coreRegistry.Equivalent t (.form "If" [c, x, y] p) := by
  refine equivalent_of_steps (fun n => ⟨n + 2, ?_⟩) fun n => ⟨n + 1, ?_⟩
  · rw [h, evaluateDirect_if, branch_eq]
    exact below_bind (below_condition (Nat.le_succ n) c) fun holds => .refl _
  · rw [h, evaluateDirect_if, branch_eq]
    refine below_bind (.refl _) fun holds => ?_
    cases holds with
    | true => exact below_eval (Nat.le_succ n) x
    | false => exact below_eval (Nat.le_succ n) y

theorem equivalent_and (hes : es ≠ []) : coreRegistry.Equivalent (.form "And" (e :: es) p)
    (.form "If" [e, .form "And" es q, .atom "False" s] u) :=
  equivalent_if fun n => by
    rw [evaluateDirect_and (List.cons_ne_nil e es), evaluateDirect_and hes]
    rfl

theorem equivalent_or (hes : es ≠ []) : coreRegistry.Equivalent (.form "Or" (e :: es) p)
    (.form "If" [e, .atom "True" s, .form "Or" es q] u) :=
  equivalent_if fun n => by
    rw [evaluateDirect_or (List.cons_ne_nil e es), evaluateDirect_or hes]
    rfl

theorem equivalent_prog (hes : es ≠ []) : coreRegistry.Equivalent (.form "Prog" (e :: es) p)
    (.form "Prog" [e, .form "Prog" es q] u) := by
  have hmany (n : Nat) : eval (n + 1) (.form "Prog" (e :: es) p) =
      eval n e >>= fun _ => sequence (eval n) (.truth true) es :=
    (evaluateDirect_prog _).trans
      (congrArg (eval n e >>= ·) (funext fun v => sequence_eq _ hes v _))
  refine equivalent_of_steps (fun n => ⟨n + 2, ?_⟩) fun n => ⟨n + 1, ?_⟩
  · rw [hmany, evaluateDirect_prog, sequence_pair, evaluateDirect_prog]
    exact below_bind (below_eval (Nat.le_succ n) e) fun _ => .refl _
  · rw [hmany, evaluateDirect_prog, sequence_pair]
    have hprog := below_eval (Nat.le_succ n) (.form "Prog" es q)
    rw [evaluateDirect_prog] at hprog
    exact below_bind (.refl _) fun _ => hprog

theorem equivalent_while : coreRegistry.Equivalent (.form "While" [c, b] p)
    (.form "If" [c, .form "Prog" [b, .form "While" [c, b] p] q, .atom "True" s] u) := by
  refine equivalent_of_steps (fun n => ?_) fun n => ⟨n + 2, ?_⟩
  · -- the loop with one round less is evaluated two levels further down
    cases n with
    | zero => rw [evaluateDirect_while]; exact ⟨0, below_exhausted⟩
    | succ n =>
      refine ⟨n + 4, ?_⟩
      rw [evaluateDirect_while, loop_succ, evaluateDirect_if, branch_eq, evaluateDirect_prog,
        sequence_pair, evaluateDirect_while]
      refine below_bind (below_condition (by omega) c) fun holds => ?_
      cases holds with
      | true =>
        have hrounds := Simulation.extension_loop (fun t => Below.refl (eval (n + 1) t)) c b n
        exact below_bind (below_eval (by omega) b) fun _ => hrounds
      | false => exact .refl _
  · rw [evaluateDirect_while, loop_succ, evaluateDirect_if, branch_eq]
    refine below_bind (below_condition (Nat.le_succ n) c) fun holds => ?_
    cases holds with
    | true =>
      have hround := below_eval (Nat.le_succ n) (.form "Prog" [b, .form "While" [c, b] p] q)
      rw [evaluateDirect_prog, sequence_pair] at hround
      have hloop := below_eval (Nat.le_succ n) (.form "While" [c, b] p)
      rw [evaluateDirect_while] at hloop
      have hmore := (Simulation.extension World).loop (below_eval (Nat.le_succ n)) c b n
      exact hround.trans (below_bind (below_eval (Nat.le_succ n) b) fun _ => hloop.trans hmore)
    | false => exact below_eval (Nat.le_succ n) (.atom "True" s)

theorem equivalent_eval (he : e.isExpr = true) :
    coreRegistry.Equivalent (.form "Eval" [.form "Hold" [e] p] q) e := by
  have heval (n : Nat) : eval (n + 2) (.form "Eval" [.form "Hold" [e] p] q) = eval (n + 1) e := by
    rw [evaluateDirect_eval, evaluateDirect_hold he, pure_bind]
  refine equivalent_of_steps (fun n => ⟨n, ?_⟩) fun n => ⟨n + 2, ?_⟩
  · cases n with
    | zero => rw [evaluateDirect_eval]; exact below_exhausted
    | succ n => rw [heval]; exact .refl _
  · rw [heval]
    exact .refl _

end CoreTable

/-! ### Statements -/

/-- What a run ends in does not depend on where its fuel is counted from. -/
theorem ends_succ_iff {σ α : Type} {run : Nat → Outcome σ α} {o : Outcome σ α} :
    Ends (fun fuel => run (fuel + 1)) o ↔ Ends run o := by
  refine and_congr_right fun _ => ⟨fun ⟨n, hn⟩ => ⟨n + 1, fun fuel hfuel => ?_⟩,
    fun ⟨n, hn⟩ => ⟨n, fun fuel hfuel => hn _ (by omega)⟩⟩
  obtain ⟨fuel, rfl⟩ : ∃ k, fuel = k + 1 := ⟨fuel - 1, by omega⟩
  exact hn fuel (by omega)

namespace Registry

variable {r : Registry} {t : Term}

/-- A statement that can be shown is evaluated. -/
theorem evaluateStatement_of_writable (h : t.writable = true) (fuel : Nat) :
    r.evaluateStatement fuel t = r.evaluate fuel t := by
  rw [evaluateStatement, Term.noted, if_pos h]
  rfl

/-- **A statement with a number that is too long** fails where it is shown. -/
theorem evaluateStatement_of_not_writable (h : t.writable = false) (fuel : Nat) :
    r.evaluateStatement fuel t = Action.fail .tooManyDigits := by
  rw [evaluateStatement, Term.noted, h]
  rfl

/-- Statements that can be shown are the sequence of them. -/
theorem sequence_evaluateStatement {ts : List Term} (h : Term.allWritable ts = true) (fuel : Nat)
    (last : Term) :
    sequence (r.evaluateStatement fuel) last ts = sequence (r.evaluate fuel) last ts := by
  induction ts generalizing last with
  | nil => rfl
  | cons t ts ih =>
    rw [Term.allWritable, Bool.and_eq_true] at h
    rw [sequence, sequence, evaluateStatement_of_writable h.1]
    exact congrArg (r.evaluate fuel t >>= ·) (funext fun v => ih h.2 v)

/-- **Statements end at the first that cannot be shown**, behind the evaluation of those before. -/
theorem evaluateAll_of_not_writable (h : t.writable = false) (fuel : Nat)
    (before after : List Term) : r.evaluateAll fuel (before ++ t :: after) =
      r.evaluateAll fuel before >>= fun _ => Action.fail .tooManyDigits := by
  rw [evaluateAll, evaluateAll, sequence_append]
  refine congrArg (sequence _ _ before >>= ·) (funext fun v => ?_)
  rw [sequence, evaluateStatement_of_not_writable h]
  rfl

end Registry

/-- Statements are evaluated as their sequence is, one level further up. -/
theorem CoreTable.evaluateAll_eq {ts : List Term} (hts : ts ≠ []) (hw : Term.allWritable ts = true)
    (fuel : Nat) (m : Machine) (p : Pos) : coreRegistry.evaluateAll fuel ts m =
      coreRegistry.evaluate (fuel + 1) (.form "Prog" ts p) m := by
  obtain ⟨stack, w⟩ := m
  have hprog : coreRegistry.evaluateDirect (fuel + 1) (.form "Prog" ts p) = _ :=
    evaluateDirect_prog ts
  rw [coreRegistry.evaluate_stackless callsPrimitives _ _ stack w, hprog, Registry.evaluateAll,
    Registry.sequence_evaluateStatement hw, sequence_eq _ hts .nothing (.truth true)]
  exact Simulation.stackless.sequence (coreRegistry.evaluate_stackless callsPrimitives fuel) ts
    (.truth true) stack w

/-- **Statements in a session** are those on its machine, but for the notes. -/
theorem Session.evaluateFrom_eq_onMachine (fuel : Nat) (last : Term) (ts : List Term)
    (s : Session) : ∃ notes, evaluateFrom fuel last ts s =
      onMachine (sequence (s.registry.evaluateStatement fuel) last ts)
        { s with notes := notes } := by
  induction ts generalizing last s with
  | nil => exact ⟨s.notes, rfl⟩
  | cons t ts ih =>
    by_cases hw : t.writable = true
    · obtain ⟨notes, hnotes⟩ := evaluateFrom_cons hw fuel last ts s
      simp only [hnotes, sequence, Registry.evaluateStatement_of_writable hw, Action.bind_apply,
        Outcome.andThen, Session.onMachine]
      cases s.registry.evaluate fuel t s.machine with
      | value v m =>
        obtain ⟨notes', hmore⟩ := ih v { s with machine := m, notes := notes }
        exact ⟨notes', hmore⟩
      | failure e m => exact ⟨notes, rfl⟩
      | exhausted => exact ⟨notes, rfl⟩
    · -- a statement that cannot be shown fails in both, before there is a note
      have hnot := Bool.eq_false_iff.2 hw
      have hnoted : t.noted = .error .tooManyDigits := if_neg hw
      refine ⟨s.notes, ?_⟩
      simp only [evaluateFrom, sequence, Registry.evaluateStatement_of_not_writable hnot, hnoted,
        Action.ofExcept, Action.fail, Action.bind_apply, Outcome.andThen, Session.onMachine]

/-- The outcome of a session, on its machine alone. -/
def Outcome.onMachine {α : Type} : Outcome Session α → Outcome Machine α
  | .value a s => .value a s.machine
  | .failure e s => .failure e s.machine
  | .exhausted => .exhausted

/-- **A session evaluates statements as its registry does**, and takes notes. -/
theorem Session.onMachine_evaluateAll (fuel : Nat) (ts : List Term) (s : Session) :
    (evaluateAll fuel ts s).onMachine = s.registry.evaluateAll fuel ts s.machine := by
  obtain ⟨notes, hnotes⟩ := evaluateFrom_eq_onMachine fuel .nothing ts s
  rw [evaluateAll, hnotes, Session.onMachine, Registry.evaluateAll]
  dsimp only
  cases sequence (s.registry.evaluateStatement fuel) .nothing ts s.machine <;> rfl

/-! ### All laws -/

/-- **Control unfolds.** On the core table the expressions on both sides are equivalent: from every
machine, whatever its stack, globals and output, both end in the same value or failure and leave
the same machine, or neither ends. Statements that can be shown are evaluated as the sequence of
them; the first that cannot ends the evaluation behind those before it. A session evaluates
statements as its registry does. -/
theorem control_unfolds {c b e : Term} {es : List Term} (hes : es ≠ []) (he : e.isExpr = true)
    (p q s u : Pos) :
    coreRegistry.Equivalent (.form "And" (e :: es) p)
        (.form "If" [e, .form "And" es q, .atom "False" s] u) ∧
      coreRegistry.Equivalent (.form "Or" (e :: es) p)
        (.form "If" [e, .atom "True" s, .form "Or" es q] u) ∧
      coreRegistry.Equivalent (.form "Prog" (e :: es) p)
        (.form "Prog" [e, .form "Prog" es q] u) ∧
      coreRegistry.Equivalent (.form "While" [c, b] p)
        (.form "If" [c, .form "Prog" [b, .form "While" [c, b] p] q, .atom "True" s] u) ∧
      coreRegistry.Equivalent (.form "Eval" [.form "Hold" [e] p] q) e ∧
      (Term.allWritable es = true → ∀ m o,
        Ends (fun fuel => coreRegistry.evaluateAll fuel es m) o ↔
          Ends (fun fuel => coreRegistry.evaluate fuel (.form "Prog" es p) m) o) ∧
      (∀ before t after, es = before ++ t :: after → t.writable = false → ∀ fuel,
        coreRegistry.evaluateAll fuel es =
          coreRegistry.evaluateAll fuel before >>= fun _ => Action.fail .tooManyDigits) ∧
      ∀ session : Session, session.registry = coreRegistry → ∀ fuel,
        (Session.evaluateAll fuel es session).onMachine =
          coreRegistry.evaluateAll fuel es session.machine := by
  refine ⟨CoreTable.equivalent_and hes, CoreTable.equivalent_or hes, CoreTable.equivalent_prog hes,
    CoreTable.equivalent_while, CoreTable.equivalent_eval he, ?_, ?_, ?_⟩
  · intro hw m o
    simp only [CoreTable.evaluateAll_eq hes hw _ m p]
    exact @ends_succ_iff _ _ (fun fuel => coreRegistry.evaluate fuel (.form "Prog" es p) m) o
  · rintro before t after rfl ht fuel
    exact Registry.evaluateAll_of_not_writable ht fuel before after
  · intro session hsession fuel
    rw [Session.onMachine_evaluateAll, hsession]

/-! ### A statement that is too long -/

/-- A statement that cannot be shown fails by itself. -/
theorem Registry.ends_of_not_writable {r : Registry} {t : Term} (h : t.writable = false)
    (m : Machine) :
    Ends (fun fuel => r.evaluateAll fuel [t] m) (.failure .tooManyDigits m) := by
  refine ⟨nofun, 0, fun fuel _ => ?_⟩
  have hstatement := r.evaluateAll_of_not_writable h fuel [] []
  dsimp only
  rw [← List.nil_append [t], hstatement]
  rfl

/-- The sequence of one number is that number. -/
theorem CoreTable.ends_prog_numeral (n : Num) (pos : Pos) (m : Machine) :
    Ends (fun fuel => coreRegistry.evaluate fuel (.form "Prog" [.numeral n pos] .none) m)
      (.value (.num n) m) := by
  refine ⟨nofun, 2, fun fuel hfuel => ?_⟩
  obtain ⟨k, rfl⟩ : ∃ k, fuel = k + 2 := ⟨fuel - 2, by omega⟩
  obtain ⟨stack, w⟩ := m
  have hprog : coreRegistry.evaluateDirect (k + 2) (.form "Prog" [.numeral n pos] .none) = _ :=
    evaluateDirect_prog [.numeral n pos]
  dsimp only
  rw [coreRegistry.evaluate_stackless callsPrimitives _ _ stack w, hprog]
  rfl

/-- **Not every statement is evaluated as the sequence of it**: a number of 5001 digits fails where
it is shown, though it has a value. -/
theorem not_control_unfolds_long :
    let t : Term := .numeral (.int (Nat.pow 10 5000)) .none
    Ends (fun fuel => coreRegistry.evaluateAll fuel [t] .empty) (.failure .tooManyDigits .empty) ∧
      Ends (fun fuel => coreRegistry.evaluate fuel (.form "Prog" [t] .none) .empty)
        (.value (.num (.int (Nat.pow 10 5000))) .empty) ∧
      ¬ ∀ m o, Ends (fun fuel => coreRegistry.evaluateAll fuel [t] m) o ↔
        Ends (fun fuel => coreRegistry.evaluate fuel (.form "Prog" [t] .none) m) o := by
  have hn : Num.maxDigits ≤ 5000 := by decide
  -- only the number of digits matters, and the power is never computed
  generalize 5000 = n at hn ⊢
  intro t
  have hlong : t.writable = false := Term.writable_numeral_pow hn .none
  have hfailure := coreRegistry.ends_of_not_writable hlong .empty
  have hvalue := CoreTable.ends_prog_numeral (.int (Nat.pow 10 n)) .none .empty
  refine ⟨hfailure, hvalue, fun h => ?_⟩
  cases ((h .empty _).1 hfailure).unique hvalue

/-! ### Counting to three -/

namespace Counting

/-- The counter set to zero. -/
def start : Term := .form "Set" [.atom "x" .none, .numeral (.int 0) .none] .none

/-- That it is below three. -/
def below : Term := .form "<" [.atom "x" .none, .numeral (.int 3) .none] .none

/-- The counter increased. -/
def step : Term :=
  .form "Set" [.atom "x" .none, .form "+" [.atom "x" .none, .numeral (.int 1) .none] .none] .none

/-- The loop. -/
def rounds : Term := .form "While" [below, step] .none

/-- The program, its loop one step unfolded, and its two parts as statements. -/
theorem control_unfolds_rounds :
    [start, rounds] ≠ [] ∧ start.isExpr = true ∧ Term.allWritable [start, rounds] = true ∧
      coreRegistry.Equivalent (.form "Prog" [start, start, rounds] .none)
        (.form "Prog" [start, .form "Prog" [start, rounds] .none] .none) ∧
      coreRegistry.Equivalent rounds
        (.form "If" [below, .form "Prog" [step, rounds] .none, .atom "True" .none] .none) ∧
      ∀ m o, Ends (fun fuel => coreRegistry.evaluateAll fuel [start, rounds] m) o ↔
        Ends (fun fuel => coreRegistry.evaluate fuel (.form "Prog" [start, rounds] .none) m) o := by
  have hwritable : Term.allWritable [start, rounds] = true := by decide +kernel
  obtain ⟨-, -, hprog, hwhile, -, hstatements, -⟩ := control_unfolds (c := below) (b := step)
    (e := start) (List.cons_ne_nil start [rounds]) rfl .none .none .none .none
  exact ⟨List.cons_ne_nil start [rounds], rfl, hwritable, hprog, hwhile, hstatements hwritable⟩

end Counting

end TermCalc
