import TermCalc.Proofs.Registry.Table
import TermCalc.Proofs.Term.Proper

/-!
# Printing onto outputs

What is printed does not depend on what it is printed to, and of trees everything is printed but
numbers that are too long.

* `Output.Hom`: a map from outputs to outputs that writing commutes with. `Buffer.behind` puts a
  text in front of a buffer, and is one.
* `Printed.map`, `Registry.printAt_map`: **printing commutes with such maps.**
  `Registry.printAt_behind` says so of buffers.
* `Registry.Printable`: every operator has a name and a precedence that parentheses can hold.
* `limit`, `Registry.failure_printAt`: **printing a tree fails exactly where a number is too long.**
-/

namespace TermCalc

/-- **A map of outputs** that writing commutes with. -/
structure Output.Hom {σ τ : Type} [Output σ] [Output τ] (f : σ → τ) : Prop where
  put (s : σ) (c : Char) : f (Output.put s c) = Output.put (f s) c
  write (s : σ) (text : String) : f (Output.write s text) = Output.write (f s) text

/-- A buffer behind another one. -/
def Buffer.behind (before b : Buffer) : Buffer := ⟨before.text ++ b.text, before.pieces + b.pieces⟩

theorem Buffer.hom_behind (before : Buffer) : Output.Hom before.behind where
  put b c := by
    have htext : before.text ++ b.text.push c = (before.text ++ b.text).push c := by
      rw [String.push_eq_append, String.push_eq_append, String.append_assoc]
    simp only [behind, Output.put, htext, Nat.add_assoc]
  write b text := by
    simp only [behind, Output.write, String.append_assoc, Nat.add_assoc]

namespace Printed

variable {σ τ : Type}

/-- The output changed, however printing ended. -/
def map (f : σ → τ) (p : Printed σ) : Printed τ := ⟨f p.output, p.failure⟩

@[simp] theorem map_done (f : σ → τ) (s : σ) : (done s).map f = done (f s) := rfl

@[simp] theorem map_fail (f : σ → τ) (s : σ) (e : Failure) : (fail s e).map f = fail (f s) e := rfl

theorem map_andThen (f : σ → τ) {p : Printed σ} {more : σ → Printed σ} {more' : τ → Printed τ}
    (h : ∀ s, more' (f s) = (more s).map f) :
    (p.map f).andThen more' = (p.andThen more).map f := by
  obtain ⟨s, _ | e⟩ := p
  · exact h s
  · rfl

variable [Output σ] [Output τ] {f : σ → τ} (hf : Output.Hom f)
include hf

theorem map_put (p : Printed σ) (c : Char) : (p.map f).put c = (p.put c).map f :=
  map_andThen f fun s => by rw [map_done, hf.put]

theorem map_write (p : Printed σ) (text : String) : (p.map f).write text = (p.write text).map f :=
  map_andThen f fun s => by rw [map_done, hf.write]

end Printed

namespace Registry

variable (r : Registry)

/-! ### Outputs -/

section

variable {σ τ : Type} [Output σ] [Output τ] {f : σ → τ} (hf : Output.Hom f)
include hf

theorem writeEscaped_map (s : σ) (content : String) :
    f (writeEscaped s content) = writeEscaped (f s) content := by
  unfold writeEscaped
  induction content.toList generalizing s with
  | nil => rfl
  | cons c cs ih => rw [List.foldl_cons, List.foldl_cons, ih, hf.write]

theorem printPrefixed_map (op : Operator) (operand : Printed Buffer) (s : σ) :
    printPrefixed op operand (f s) = (printPrefixed op operand s).map f := by
  unfold printPrefixed
  dsimp only
  split
  · rw [Printed.map_fail, hf.write]
  · rw [Printed.map_fail, hf.write]
  · split
    · rw [Printed.map_done, hf.write, hf.put, hf.write]
    · rw [Printed.map_done, hf.write, hf.write]

theorem enclosed_map (d precedence : Int) {body : σ → Printed σ} {body' : τ → Printed τ}
    (h : ∀ s, body' (f s) = (body s).map f) (s : σ) :
    enclosed d precedence body' (f s) = (enclosed d precedence body s).map f := by
  unfold enclosed
  split
  · split
    · rfl
    · rw [← hf.put, h, Printed.map_put hf]
  · exact h s

mutual

/-- **Printing commutes with maps of outputs.** -/
theorem printAt_map (d : Int) (t : Term) (s : σ) :
    r.printAt d t (f s) = (r.printAt d t s).map f := by
  rw [printAt, printAt]
  refine enclosed_map hf _ _ (fun s => ?_) s
  cases t with
  | numeral n pos =>
    dsimp only
    split
    · rw [Printed.map_done, hf.write]
    · rfl
  | text content pos =>
    dsimp only
    rw [Printed.map_done, hf.put, writeEscaped_map hf, hf.put]
  | atom name pos =>
    dsimp only
    rw [Printed.map_done, hf.write]
  | form name args pos =>
    dsimp only
    split
    · rw [← hf.put, printList_map args, Printed.map_put hf]
    · split
      · rw [← hf.write, ← hf.put, printList_map args, Printed.map_put hf]
      · rename_i op _
        split
        · rename_i lhs rhs _ _
          rw [printAt_map op.precedence lhs, Printed.map_write hf]
          exact Printed.map_andThen f fun s => printAt_map (op.precedence - 1) rhs s
        · exact printPrefixed_map hf op _ s
        · rename_i operand _ _
          rw [printAt_map op.precedence operand, Printed.map_write hf]
        · rw [← hf.write, ← hf.put, printBodied_map op.precedence true _]
  | nothing | truth | num | str | list => rfl

theorem printList_map (ts : List Term) (s : σ) :
    r.printList ts (f s) = (r.printList ts s).map f := by
  match ts with
  | [] => simp only [printList, Printed.map_done]
  | [t] => simp only [printList, printAt_map loosest t]
  | t :: u :: rest =>
    simp only [printList]
    rw [printAt_map loosest t, Printed.map_write hf]
    exact Printed.map_andThen f fun s => printList_map (u :: rest) s

theorem printBodied_map (d : Int) (first : Bool) (ts : List Term) (s : σ) :
    r.printBodied d first ts (f s) = (r.printBodied d first ts s).map f := by
  match ts with
  | [] => simp only [printBodied, Printed.map_done]
  | [t] =>
    simp only [printBodied]
    rw [← hf.write, printAt_map d t]
  | t :: u :: rest =>
    simp only [printBodied]
    have hstart : (if first then f s else Output.write (f s) ", ") =
        f (if first then s else Output.write s ", ") := by
      cases first
      · exact (hf.write s ", ").symm
      · rfl
    rw [hstart, printAt_map loosest t]
    exact Printed.map_andThen f fun s => printBodied_map d false (u :: rest) s

end

end

/-- A buffer gets what an empty one would, behind what it holds. -/
theorem printAt_behind (d : Int) (t : Term) (b : Buffer) :
    r.printAt d t b = (r.printAt d t Buffer.empty).map b.behind := by
  have hbehind := r.printAt_map b.hom_behind d t Buffer.empty
  have hempty : b.behind Buffer.empty = b := by simp [Buffer.behind, Buffer.empty]
  rwa [hempty] at hbehind

/-! ### Failures -/

/-- **Operators that can be printed**: each has a name, and none is looser than the loosest. -/
def Printable : Prop := ∀ op ∈ r.operators, op.name ≠ "" ∧ op.precedence ≤ loosest

end Registry

/-- The failure of printing, by whether everything may be written out. -/
def limit (writable : Bool) : Option Failure := if writable then none else some .tooManyDigits

namespace Printed

variable {τ : Type} {a b : Bool}

theorem failure_andThen {p : Printed τ} {more : τ → Printed τ} (hp : p.failure = limit a)
    (hmore : ∀ s, (more s).failure = limit b) : (p.andThen more).failure = limit (a && b) := by
  obtain ⟨s, failure⟩ := p
  obtain rfl : failure = limit a := hp
  cases a with
  | true => exact hmore s
  | false => rfl

variable [Output τ]

theorem failure_put {p : Printed τ} (hp : p.failure = limit a) (c : Char) :
    (p.put c).failure = limit a := by
  obtain ⟨s, _ | e⟩ := p <;> exact hp

theorem failure_write {p : Printed τ} (hp : p.failure = limit a) (text : String) :
    (p.write text).failure = limit a := by
  obtain ⟨s, _ | e⟩ := p <;> exact hp

end Printed

namespace Registry

variable {τ : Type} [Output τ] {a : Bool} {r : Registry}

theorem failure_printPrefixed {op : Operator} {operand : Printed Buffer} (hname : op.name ≠ "")
    (h : operand.failure = limit a) (s : τ) : (printPrefixed op operand s).failure = limit a := by
  have hlast : op.name.toList.getLast? ≠ none := by
    simpa [List.getLast?_eq_none_iff] using hname
  unfold printPrefixed
  dsimp only
  split
  · rename_i e he
    rw [← h, he]
    rfl
  · rename_i hnone
    exact absurd hnone hlast
  · rename_i hnone _
    rw [← h, hnone]
    rfl

theorem failure_enclosed {d precedence : Int} (hloose : precedence ≤ loosest)
    {body : τ → Printed τ} (h : ∀ s, (body s).failure = limit a) (s : τ) :
    (enclosed d precedence body s).failure = limit a := by
  unfold enclosed
  split
  · rw [if_neg (by omega)]
    exact Printed.failure_put (h _) ')'
  · exact h s

theorem precedenceOf_le (hr : r.Printable) {op : Option Operator}
    (h : ∀ o, op = some o → o ∈ r.operators) : precedenceOf op ≤ loosest := by
  cases op with
  | none => decide
  | some o => exact (hr o (h o rfl)).2

theorem precedence_le (hr : r.Printable) (t : Term) : r.precedence t ≤ loosest := by
  cases t with
  | numeral n pos =>
    rw [precedence]
    split
    · exact precedenceOf_le hr fun o ho => (operator?_eq_some ho).1
    · decide
  | form name args pos => exact precedenceOf_le hr fun o ho => (operatorOf?_eq_some ho).1
  | _ => exact (by decide : (0 : Int) ≤ loosest)

mutual

/-- **Printing a tree fails exactly where a number is too long.** -/
theorem failure_printAt (hr : r.Printable) {τ : Type} [Output τ] {t : Term} (ht : t.isTree = true)
    (d : Int) (s : τ) : (r.printAt d t s).failure = limit t.writable := by
  rw [printAt]
  refine failure_enclosed (precedence_le hr t) (fun s => ?_) s
  cases t with
  | numeral n pos =>
    simp only [Term.writable]
    cases n.writable <;> rfl
  | text content pos => rfl
  | atom name pos => rfl
  | form name args pos =>
    have hargs : Term.allTrees args = true := ht
    simp only [Term.writable]
    split
    · exact Printed.failure_put (failure_printList hr hargs _) _
    · split
      · exact Printed.failure_put (failure_printList hr hargs _) _
      · rename_i op hop
        split
        · rename_i lhs rhs _ _
          simp only [Term.allTrees, Bool.and_eq_true, and_true] at hargs
          simp only [Term.allWritable, Bool.and_true]
          exact Printed.failure_andThen
            (Printed.failure_write (failure_printAt hr hargs.1 op.precedence s) _)
            fun s => failure_printAt hr hargs.2 _ s
        · rename_i operand _ _
          simp only [Term.allTrees, Bool.and_true] at hargs
          simp only [Term.allWritable, Bool.and_true]
          exact failure_printPrefixed (hr op (operatorOf?_eq_some hop).1).1
            (failure_printAt hr hargs op.precedence Buffer.empty) s
        · rename_i operand _ _
          simp only [Term.allTrees, Bool.and_true] at hargs
          simp only [Term.allWritable, Bool.and_true]
          exact Printed.failure_write (failure_printAt hr hargs op.precedence s) _
        · exact failure_printBodied hr hargs op.precedence true _
  | nothing | truth | num | str | list => cases ht

theorem failure_printList (hr : r.Printable) {τ : Type} [Output τ] {ts : List Term}
    (hts : Term.allTrees ts = true) (s : τ) :
    (r.printList ts s).failure = limit (Term.allWritable ts) := by
  match ts with
  | [] => simp only [printList]; rfl
  | [t] =>
    simp only [Term.allTrees, Bool.and_true] at hts
    simp only [printList, Term.allWritable, Bool.and_true]
    exact failure_printAt hr hts loosest s
  | t :: u :: rest =>
    have hts' := (Bool.and_eq_true _ _).mp hts
    simp only [printList]
    exact Printed.failure_andThen (Printed.failure_write (failure_printAt hr hts'.1 loosest s) _)
      fun s => failure_printList hr hts'.2 s

theorem failure_printBodied (hr : r.Printable) {τ : Type} [Output τ] {ts : List Term}
    (hts : Term.allTrees ts = true) (d : Int) (first : Bool) (s : τ) :
    (r.printBodied d first ts s).failure = limit (Term.allWritable ts) := by
  match ts with
  | [] => simp only [printBodied]; rfl
  | [t] =>
    simp only [Term.allTrees, Bool.and_true] at hts
    simp only [printBodied, Term.allWritable, Bool.and_true]
    exact failure_printAt hr hts d _
  | t :: u :: rest =>
    have hts' := (Bool.and_eq_true _ _).mp hts
    simp only [printBodied]
    exact Printed.failure_andThen (failure_printAt hr hts'.1 loosest _)
      fun s => failure_printBodied hr hts'.2 d false s

end

/-- The text of a tree, unless a number in it is too long. -/
theorem textOf_of_isTree (hr : r.Printable) {t : Term} (ht : t.isTree = true) :
    r.textOf t = if t.writable then .ok (r.print t Buffer.empty).output.text
      else .error .tooManyDigits := by
  have hfailure : (r.print t Buffer.empty).failure = limit t.writable :=
    failure_printAt hr ht loosest Buffer.empty
  unfold textOf
  dsimp only
  rw [hfailure]
  cases t.writable <;> rfl

end Registry

theorem CoreTable.printable : coreRegistry.Printable := by
  unfold Registry.Printable
  rw [operators_eq]
  decide

end TermCalc
