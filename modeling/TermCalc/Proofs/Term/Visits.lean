import Mathlib.Data.List.Nodup
import TermCalc.Proofs.Results
import TermCalc.Proofs.Term.Settling

/-!
# How often nodes are visited

Printing visits every node of a tree once, or twice where there are parentheses around it.

* `Term.nodup_paths`: no path leads to two nodes.
* `OnceOrTwice`, `Visits`: what an action visits, each node once or twice.
* `Registry.thorough_visit`: **every node is visited once or twice**, wherever printing ends.
* `Registry.printing_ends`: **printing a tree ends, and ends well.**
-/

namespace TermCalc

namespace Term

theorem paths_eq_cons (path : Path) (t : Term) : t.paths path = path :: (t.paths path).tail := by
  cases t <;> rfl

theorem pathsOfList_concat (path : Path) (i : Nat) (ts : List Term) (t : Term) :
    pathsOfList path i (ts ++ [t]) =
      pathsOfList path i ts ++ t.paths (path ++ [i + ts.length]) := by
  induction ts generalizing i with
  | nil => simp [pathsOfList]
  | cons u us ih =>
    rw [List.cons_append, pathsOfList, ih, pathsOfList, List.append_assoc, List.length_cons]
    rw [show i + 1 + us.length = i + (us.length + 1) by omega]

mutual

theorem prefix_of_mem_paths {t : Term} {path q : Path} (h : q ∈ t.paths path) : path <+: q := by
  cases t with
  | form name args pos =>
    rcases List.mem_cons.mp h with rfl | h
    · exact List.prefix_rfl
    · obtain ⟨j, -, hj⟩ := prefix_of_mem_pathsOfList h
      exact (List.prefix_append path [j]).trans hj
  | _ =>
    obtain rfl := List.mem_singleton.mp h
    exact List.prefix_rfl

theorem prefix_of_mem_pathsOfList {ts : List Term} {path q : Path} {i : Nat}
    (h : q ∈ pathsOfList path i ts) : ∃ j, i ≤ j ∧ path ++ [j] <+: q := by
  match ts with
  | [] => cases h
  | t :: ts =>
    rcases List.mem_append.mp h with h | h
    · exact ⟨i, Nat.le_refl i, prefix_of_mem_paths h⟩
    · obtain ⟨j, hj, hq⟩ := prefix_of_mem_pathsOfList h
      exact ⟨j, by omega, hq⟩

end

/-- Paths into different arguments of a node differ. -/
theorem eq_of_prefix_prefix {path q : Path} {i j : Nat} (hi : path ++ [i] <+: q)
    (hj : path ++ [j] <+: q) : i = j := by
  have h := (List.prefix_of_prefix_length_le hi hj (by simp)).eq_of_length (by simp)
  simpa using h

mutual

/-- **No path leads to two nodes.** -/
theorem nodup_paths (t : Term) (path : Path) : (t.paths path).Nodup := by
  cases t with
  | form name args pos =>
    refine List.nodup_cons.mpr ⟨fun h => ?_, nodup_pathsOfList args path 0⟩
    obtain ⟨j, -, hj⟩ := prefix_of_mem_pathsOfList h
    have hlength := hj.length_le
    rw [List.length_append, List.length_singleton] at hlength
    omega
  | _ => exact List.pairwise_singleton _ path

theorem nodup_pathsOfList (ts : List Term) (path : Path) (i : Nat) :
    (pathsOfList path i ts).Nodup := by
  match ts with
  | [] => exact List.nodup_nil
  | t :: ts =>
    refine List.nodup_append.mpr ⟨nodup_paths t _, nodup_pathsOfList ts path (i + 1), ?_⟩
    rintro p hp q hq rfl
    obtain ⟨j, hj, hq⟩ := prefix_of_mem_pathsOfList hq
    have hij := eq_of_prefix_prefix (prefix_of_mem_paths hp) hq
    omega

end

end Term

/-- **Every path as many times among the visits as among the nodes**, or twice as many. -/
def OnceOrTwice (nodes visits : List Path) : Prop :=
  ∀ path, nodes.count path ≤ visits.count path ∧ visits.count path ≤ 2 * nodes.count path

namespace OnceOrTwice

theorem nil : OnceOrTwice [] [] := fun _ => by simp

theorem once (path : Path) : OnceOrTwice [path] [path] := fun _ => by omega

theorem twice (path : Path) : OnceOrTwice [path] [path, path] := fun q => by
  rw [show [path, path] = [path] ++ [path] from rfl, List.count_append]
  omega

theorem append {nodes visits nodes' visits' : List Path} (h : OnceOrTwice nodes visits)
    (h' : OnceOrTwice nodes' visits') : OnceOrTwice (nodes ++ nodes') (visits ++ visits') := by
  intro path
  have hfirst := h path
  have hsecond := h' path
  rw [List.count_append, List.count_append]
  omega

end OnceOrTwice

/-- **What an action visits** where it comes to an end. -/
def Visits {σ α : Type} (act : Action (Tour σ) α) (nodes : List Path) : Prop :=
  ∀ tour a tour', act tour = .value a tour' →
    ∃ visits, tour'.visited = tour.visited ++ visits ∧ OnceOrTwice nodes visits

namespace Visits

variable {σ α β : Type} {nodes nodes' : List Path}

theorem bind {x : Action (Tour σ) α} {f : α → Action (Tour σ) β} (hx : Visits x nodes)
    (hf : ∀ a, Visits (f a) nodes') : Visits (x >>= f) (nodes ++ nodes') := by
  intro tour b tour' h
  obtain ⟨a, mid, hmid, h⟩ := Outcome.andThen_eq_value h
  obtain ⟨visits, hvisits, hnodes⟩ := hx tour a mid hmid
  obtain ⟨visits', hvisits', hnodes'⟩ := hf a mid b tour' h
  exact ⟨visits ++ visits', by rw [hvisits', hvisits, List.append_assoc], hnodes.append hnodes'⟩

/-- An action that changes no more than the output visits nothing. -/
theorem change (f : σ → σ) : Visits (Tour.change f) [] := by
  intro tour a tour' h
  cases h
  exact ⟨[], by simp, .nil⟩

theorem nothing : Visits (pure () : Action (Tour σ) Unit) [] := change id

theorem enter (path : Path) : Visits (Tour.enter path : Action (Tour σ) Unit) [path] := by
  intro tour a tour' h
  cases h
  exact ⟨[path], rfl, .once path⟩

theorem fail (e : Failure) : Visits (Action.fail e : Action (Tour σ) α) nodes := nofun

theorem aside {print : Action (Tour Buffer) Unit} (h : Visits print nodes) :
    Visits (Tour.aside print : Action (Tour σ) String) nodes := by
  intro tour text tour' haside
  unfold Tour.aside at haside
  cases hinner : print ⟨Buffer.empty, tour.visited⟩ with
  | value a inner =>
    rw [hinner] at haside
    cases haside
    exact h _ a inner hinner
  | failure | exhausted => rw [hinner] at haside; cases haside

variable [Output σ]

theorem put (c : Char) : Visits (Tour.put c : Action (Tour σ) Unit) [] := change _

theorem write (text : String) : Visits (Tour.write text : Action (Tour σ) Unit) [] := change _

/-- The second visit of a node is behind its opening parenthesis. -/
theorem enter_twice (path : Path) : Visits
    (Tour.enter path >>= fun _ => Tour.put '(' >>= fun _ => Tour.enter path : Action (Tour σ) Unit)
    [path] := by
  intro tour a tour' h
  cases h
  exact ⟨[path, path], List.append_assoc _ _ _, .twice path⟩

theorem behindPrefix (op : Operator) {operand : Action (Tour Buffer) Unit}
    (h : Visits operand nodes) :
    Visits (Tour.behindPrefix op operand : Action (Tour σ) Unit) nodes := by
  rw [← List.append_nil nodes]
  refine h.aside.bind fun text => ?_
  cases op.name.toList.getLast? with
  | none => exact fail _
  | some last =>
    dsimp only
    split
    · exact (put ' ').bind fun _ => write text
    · exact write text

end Visits

/-- **A thorough visitor**: where a visit comes to an end, it went to every node from there down,
once or twice. -/
def Visitor.Thorough (self : Visitor) : Prop :=
  ∀ {σ : Type} [Output σ] (path : Path) (depth : Int) (t : Term),
    Visits (self path depth t : Action (Tour σ) Unit) (t.paths path)

namespace Registry

variable {r : Registry} {self : Visitor} {σ : Type} [Output σ]

theorem visits_arguments (h : self.Thorough) (path : Path) (i : Nat) (ts : List Term) :
    Visits (visitArguments self path i ts : Action (Tour σ) Unit) (Term.pathsOfList path i ts) := by
  induction ts generalizing i with
  | nil => exact Visits.nothing
  | cons t ts ih =>
    have ht : Visits (do self (path ++ [i]) loosest t; visitArguments self path (i + 1) ts :
        Action (Tour σ) Unit) (Term.pathsOfList path i (t :: ts)) :=
      (h (path ++ [i]) loosest t).bind fun _ => ih (i + 1)
    cases i with
    | zero => exact ht
    | succ i => exact (Visits.write ", ").bind fun _ => ht

theorem visits_operands (h : self.Thorough) {name : String} {args : List Term} {op : Operator}
    (hop : r.operatorOf? name args.length = some op) (path : Path) :
    Visits (visitOperands self op path args : Action (Tour σ) Unit)
      (Term.pathsOfList path 0 args) := by
  rcases operands_of_operatorOf? hop with
    ⟨hf, lhs, rhs, rfl⟩ | ⟨hf, operand, rfl⟩ | ⟨hf, operand, rfl⟩ | ⟨hf, init, last, rfl⟩
  · simp only [visitOperands, hf, Term.pathsOfList]
    exact (h _ _ lhs).bind fun _ => (Visits.write _).bind fun _ => by simpa using h _ _ rhs
  · simp only [visitOperands, hf, Term.pathsOfList, List.append_nil]
    exact (Visits.write op.name).bind fun _ => .behindPrefix op (h _ _ operand)
  · simp only [visitOperands, hf, Term.pathsOfList]
    exact (h _ _ operand).bind fun _ => .write op.name
  · simp only [visitOperands, hf, List.dropLast_concat, List.getLast?_concat]
    rw [Term.pathsOfList_concat]
    refine (Visits.write op.name).bind fun _ => (Visits.put '(').bind fun _ => ?_
    refine (visits_arguments h path 0 init).bind fun _ => (Visits.write ") ").bind fun _ => ?_
    simpa using h _ _ last

/-- Printing a node visits what is below it. -/
theorem visits_node (h : self.Thorough) (path : Path) (t : Term) :
    Visits (r.visitNode self path t : Action (Tour σ) Unit) (t.paths path).tail := by
  cases t with
  | form name args pos =>
    simp only [visitNode, Term.paths, List.tail_cons]
    have hargs := visits_arguments (σ := σ) h path 0 args
    split
    · rw [← List.append_nil (Term.pathsOfList path 0 args)]
      exact (Visits.put _).bind fun _ => hargs.bind fun _ => .put _
    · split
      · rw [← List.append_nil (Term.pathsOfList path 0 args)]
        exact (Visits.write name).bind fun _ => (Visits.put _).bind fun _ => hargs.bind fun _ =>
          .put _
      · rename_i op hop
        exact visits_operands h hop path
  | numeral m pos =>
    simp only [visitNode]
    split
    · exact .write m.text
    · exact .fail _
  | text content pos =>
    exact (Visits.put '"').bind fun _ => (Visits.change _).bind fun _ => .put '"'
  | atom name pos => exact .write name
  | nothing | truth | num | str | list => exact .fail _

/-- **Every node is visited once or twice**, whatever the fuel, where printing comes to an end. -/
theorem thorough_visit (r : Registry) (fuel : Nat) : Visitor.Thorough (r.visit fuel) := by
  induction fuel using Nat.strongRecOn with
  | ind fuel ih =>
    intro σ _ path depth t
    change Visits (r.visit fuel path depth t : Action (Tour σ) Unit) (t.paths path)
    rw [Term.paths_eq_cons, ← List.singleton_append]
    cases fuel with
    | zero => exact nofun
    | succ fuel =>
      -- the arguments are visited with one fuel less, or with two behind parentheses
      have hnode {k : Nat} (hk : k < fuel + 1) :
          Visits (r.visitNode (r.visit k) path t : Action (Tour σ) Unit) (t.paths path).tail :=
        visits_node (ih k hk) path t
      by_cases hdepth : depth < r.precedence t
      · by_cases hloose : loosest < r.precedence t
        · intro tour a tour' h
          rw [visit_endless hloose _ path hdepth tour] at h
          cases h
        · rw [visit_parenthesized r _ path hdepth]
          cases fuel with
          | zero => exact nofun
          | succ fuel =>
            rw [visit_bare r fuel path hloose]
            have htwice := (Visits.enter_twice path).bind fun _ =>
              (hnode (by omega : fuel < fuel + 1 + 1)).bind fun _ => .put ')'
            simpa only [bind_assoc, List.append_nil] using htwice
      · rw [visit_bare r fuel path hdepth]
        exact (Visits.enter path).bind fun _ => hnode (Nat.lt_succ_self fuel)

/-- **Printing a tree ends, and ends well**, at every depth and on every output, if operators have
names and parentheses can hold all of them, and no number is too long. The same is put behind what
any buffer holds. Two visits of every node above one another may be open at once; visits go to all
nodes and nowhere else, and to none more than twice. -/
theorem printing_ends {r : Registry} (hr : r.Printable) {t : Term} (ht : t.isTree = true)
    (hw : t.writable = true) (depth : Int) :
    (∃ printed : Buffer, ∀ b : Buffer, r.printAt depth t b = .done (b.behind printed)) ∧
      ∀ {σ : Type} [Output σ] (s : σ), ∃ s' visits, r.printAt depth t s = .done s' ∧
        (∀ fuel, 2 * t.height ≤ fuel →
          r.visit fuel [] depth t (.start s) = .value () ⟨s', visits⟩) ∧
        ∀ path, (path ∈ visits ↔ path ∈ t.paths []) ∧ visits.count path ≤ 2 := by
  have hdone {σ : Type} [Output σ] (s : σ) :
      r.printAt depth t s = .done (r.printAt depth t s).output := by
    have hfailure := failure_printAt hr ht depth s
    rw [hw] at hfailure
    exact congrArg (Printed.mk _) hfailure
  refine ⟨⟨(r.printAt depth t Buffer.empty).output, fun b => ?_⟩, fun {σ} _ s => ?_⟩
  · rw [r.printAt_behind depth t b, hdone Buffer.empty]
    rfl
  · obtain ⟨visited, hrun⟩ := (settles_visit r t [] depth).exists_value (.start s) (hdone s)
    obtain ⟨visits, hvisits, htwice⟩ :=
      thorough_visit r _ [] depth t (.start s) () ⟨_, visited⟩ (hrun _ (Nat.le_refl _))
    obtain rfl : visited = visits := hvisits
    refine ⟨_, visited, hdone s, hrun, fun path => ?_⟩
    have hcount := htwice path
    have honce := List.nodup_iff_count_le_one.mp (Term.nodup_paths t []) path
    rw [← List.count_pos_iff, ← List.count_pos_iff]
    omega

end Registry

namespace BelowZero

/-- Operators of which one binds tighter than atoms do, and one is the loosest there can be. -/
def table : Registry :=
  ⟨[], [⟨.prefixed, 0, "-", 0⟩, ⟨.infixed, -5, "-", 1⟩, ⟨.postfixed, loosest, "!", 2⟩], true⟩

/-- An expression that gets parentheses around its root, an operator further down and a number. -/
def tree : Term :=
  .form "!" [.form "-" [.form "-" [.atom "a" .none] .none, .numeral (.int (-3)) .none] .none] .none

/-- The text of the expression, and the nodes in the order of the visits. -/
example :
    (match table.visit 8 [] (-20) tree (.start Buffer.empty) with
      | .value _ tour => some (tour.output.text, tour.visited)
      | _ => none) =
    some ("((-a) - (-3)!)", [[], [], [0], [0, 0], [0, 0], [0, 0, 0], [0, 1], [0, 1]]) := by
  decide +kernel

theorem printing_ends_below_zero :
    table.Printable ∧ tree.isTree = true ∧ tree.writable = true ∧
      (∃ printed : Buffer, ∀ b : Buffer, table.printAt (-20) tree b = .done (b.behind printed)) ∧
      ∀ {σ : Type} [Output σ] (s : σ), ∃ s' visits, table.printAt (-20) tree s = .done s' ∧
        (∀ fuel, 8 ≤ fuel →
          table.visit fuel [] (-20) tree (.start s) = .value () ⟨s', visits⟩) ∧
        ∀ path, (path ∈ visits ↔ path ∈ [[], [0], [0, 0], [0, 0, 0], [0, 1]]) ∧
          visits.count path ≤ 2 := by
  have hprintable : table.Printable := by
    unfold Registry.Printable
    decide
  have hwritable : tree.writable = true := by decide +kernel
  exact ⟨hprintable, rfl, hwritable, Registry.printing_ends hprintable rfl hwritable (-20)⟩

end BelowZero

end TermCalc
