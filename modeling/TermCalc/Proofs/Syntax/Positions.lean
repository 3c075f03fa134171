import TermCalc.Proofs.Syntax.Tiling

/-!
# Cursors under calls

Whatever is asked of a cursor, and in whatever order, it answers as a plain offset into its text
would, and the line that it keeps count of is that of the offset.

* `Cursor.Call`, `Cursor.Answer`: what may be asked of a cursor, and what it answers.
  `Cursor.perform` makes a call, `Cursor.run` makes one after the other.
* `Cursor.Call.expected`: a call on a text and an offset, without a cursor.
* `Cursor.Stands.perform`, `Cursor.Stands.run`: a cursor in a text stays in it, with the right line,
  through one call and through all.
* `Cursor.InStep`: cursor and line agree with the text. `Cursor.inStep_run`: **they do so behind any
  calls**, from any offset on.
-/

namespace TermCalc

namespace Cursor

/-! ### Calls -/

/-- **A call on a cursor.** -/
inductive Call where
  | next
  | peek
  | moveTo (position : Int)
  | position
  | atEnd

/-- What a call answers. -/
inductive Answer where
  | char (ch : Char)
  | offset (n : Nat)
  | flag (b : Bool)
  | nothing

/-- **Make a call**: its answer, or why there is none, and the cursor behind it. -/
def perform (c : Cursor) : Call → Except Failure Answer × Cursor
  | .next =>
    match c.next with
    | .ok (ch, c') => (.ok (.char ch), c')
    | .error e => (.error e, c)
  | .peek => (c.peek.map .char, c)
  | .moveTo p =>
    match c.moveTo p with
    | .ok c' => (.ok .nothing, c')
    | .error e => (.error e, c)
  | .position => (.ok (.offset c.position), c)
  | .atEnd => (.ok (.flag c.atEnd), c)

/-- **The cursor behind calls.** A call that fails does not end them. -/
def run (c : Cursor) (calls : List Call) : Cursor := calls.foldl (fun c call => (c.perform call).2) c

/-- **A call on a text and an offset.** Only the next character and a place inside the text move the
offset. -/
def Call.expected (text : List Char) (offset : Nat) : Call → Except Failure Answer × Nat
  | .next =>
    match text[offset]? with
    | some ch => (.ok (.char ch), offset + 1)
    | none => (.error (.endOfText offset), offset)
  | .peek =>
    match text[offset]? with
    | some ch => (.ok (.char ch), offset)
    | none => (.error (.endOfText offset), offset)
  | .moveTo p =>
    if 0 ≤ p ∧ p ≤ text.length then (.ok .nothing, p.toNat)
    else (.error (Failure.outsideText p text.length).reported, offset)
  | .position => (.ok (.offset offset), offset)
  | .atEnd => (.ok (.flag (offset == text.length)), offset)

/-! ### Moving back -/

theorem passed_back (n : Nat) (c : Cursor) : (c.back n).passed = c.passed.drop n := by
  induction n generalizing c with
  | zero => rfl
  | succ n ih =>
    obtain ⟨passed, ahead, line, column, h⟩ := c
    cases passed with
    | nil => rfl
    | cons ch rest => rw [back, ih, List.drop_succ_cons]

theorem line_back (n : Nat) (c : Cursor) :
    (c.back n).line = c.line - (c.passed.take n).count '\n' := by
  induction n generalizing c with
  | zero => simp [back]
  | succ n ih =>
    obtain ⟨passed, ahead, line, column, h⟩ := c
    cases passed with
    | nil => simp [back]
    | cons ch rest =>
      rw [back, ih, List.take_succ_cons, List.count_cons, lineStep]
      dsimp only
      split <;> omega

variable {text : List Char} {first : Int} {c : Cursor}

theorem Stands.back (h : c.Stands text first) (n : Nat) : (c.back n).Stands text first where
  text_eq := by rw [text_back, h.text_eq]
  line_eq := by
    have hsplit : c.passed.count '\n' =
        (c.passed.take n).count '\n' + (c.passed.drop n).count '\n' := by
      rw [← List.count_append, List.take_append_drop]
    rw [line_back, passed_back, h.line_eq, hsplit]
    omega

theorem position_back (n : Nat) (c : Cursor) : (c.back n).position = c.position - n := by
  rw [position, passed_back, List.length_drop, position]

/-! ### One call -/

theorem Stands.text_length (h : c.Stands text first) : c.length = text.length := by
  rw [h.length_eq, length, position]

/-- **A cursor can be moved to every place of its text.** -/
theorem Stands.exists_moveTo (h : c.Stands text first) {p : Int} (hp : 0 ≤ p)
    (hle : p ≤ text.length) :
    ∃ c', c.moveTo p = .ok c' ∧ c'.Stands text first ∧ c'.position = p.toNat := by
  have hinside : ¬(p < 0 ∨ (c.length : Int) < p) := by
    rw [h.text_length]
    omega
  refine ⟨_, by rw [moveTo, if_neg hinside], ?_⟩
  split
  · rename_i hlt
    have hlength := h.length_eq
    refine ⟨h.forward _, ?_⟩
    rw [position_forward (by omega)]
    omega
  · refine ⟨h.back _, ?_⟩
    rw [position_back]
    omega

/-- To no other place. -/
theorem Stands.moveTo_outside (h : c.Stands text first) {p : Int}
    (hp : ¬(0 ≤ p ∧ p ≤ text.length)) :
    c.moveTo p = .error (Failure.outsideText p text.length).reported := by
  have houtside : p < 0 ∨ (c.length : Int) < p := by
    rw [h.text_length]
    omega
  rw [moveTo, if_pos houtside, h.text_length]

/-- What is at a cursor. -/
theorem Stands.getElem?_position (h : c.Stands text first) :
    text[c.position]? = c.ahead.head? := by
  rw [← h.drop_eq, List.head?_drop]

theorem next_of_head? {ch : Char} (hch : c.ahead.head? = some ch) :
    c.next = .ok (ch, c.forward 1) ∧ (c.forward 1).position = c.position + 1 := by
  obtain ⟨rest, ha⟩ := List.head?_eq_some_iff.1 hch
  refine ⟨by rw [next, ha], position_forward ?_⟩
  simp [ha]

theorem Stands.atEnd_eq (h : c.Stands text first) : c.atEnd = (c.position == text.length) := by
  have hlength := h.length_eq
  rw [Bool.eq_iff_iff, atEnd, List.isEmpty_iff, ← List.length_eq_zero_iff, beq_iff_eq]
  omega

/-- **One call** leaves a cursor in its text, and does what is expected of it there. -/
theorem Stands.perform (h : c.Stands text first) (call : Call) :
    (c.perform call).2.Stands text first ∧
      ((c.perform call).1, (c.perform call).2.position) = call.expected text c.position := by
  cases call with
  | next =>
    rw [Call.expected, h.getElem?_position, Cursor.perform]
    cases hch : c.ahead.head? with
    | some ch =>
      obtain ⟨hnext, hposition⟩ := next_of_head? hch
      rw [hnext]
      exact ⟨h.forward 1, by rw [hposition]⟩
    | none =>
      have ha : c.ahead = [] := List.head?_eq_none_iff.1 hch
      rw [next, ha]
      exact ⟨h, rfl⟩
  | peek =>
    rw [Call.expected, h.getElem?_position, Cursor.perform, peek]
    refine ⟨h, ?_⟩
    cases c.ahead <;> rfl
  | moveTo p =>
    rw [Call.expected, Cursor.perform]
    by_cases hp : 0 ≤ p ∧ p ≤ text.length
    · obtain ⟨c', hmove, hstands, hposition⟩ := h.exists_moveTo hp.1 hp.2
      rw [hmove, if_pos hp]
      exact ⟨hstands, by rw [hposition]⟩
    · rw [h.moveTo_outside hp, if_neg hp]
      exact ⟨h, rfl⟩
  | position => exact ⟨h, rfl⟩
  | atEnd => exact ⟨h, by rw [Call.expected, Cursor.perform, h.atEnd_eq]⟩

/-- **All calls** leave a cursor in its text. -/
theorem Stands.run (h : c.Stands text first) (calls : List Call) :
    (c.run calls).Stands text first := by
  induction calls generalizing c with
  | nil => exact h
  | cons call calls ih =>
    have hstep := (h.perform call).1
    exact ih hstep

/-- A call that fails leaves a cursor as it was. -/
theorem perform_of_error {call : Call} {e : Failure} (h : (c.perform call).1 = .error e) :
    (c.perform call).2 = c := by
  cases call with
  | next =>
    rw [perform] at h ⊢
    split at h
    · cases h
    · rfl
  | moveTo p =>
    rw [perform] at h ⊢
    split at h
    · cases h
    · rfl
  | peek | position | atEnd => rfl

/-! ### Lines -/

/-- The line feeds before a place, and those from there on. -/
theorem count_take_add {p q : Nat} (text : List Char) (h : p ≤ q) :
    (text.take q).count '\n' = (text.take p).count '\n' + ((text.take q).drop p).count '\n' := by
  have hsplit := List.take_append_drop p (text.take q)
  rw [List.take_take, Nat.min_eq_left h] at hsplit
  rw [← List.count_append, hsplit]

/-- A part of a line is passed on that line. -/
theorem line_forward_of_not_mem {part : List Char} (h : part <+: c.ahead) (hfeed : '\n' ∉ part) :
    (c.forward part.length).line = c.line := by
  have htake : c.ahead.take part.length = part := (List.prefix_iff_eq_take.1 h).symm
  have hcount : part.count '\n' = 0 := List.count_eq_zero.2 hfeed
  rw [line_forward, htake, hcount]
  omega

theorem Stands.line_eq_count (h : c.Stands text first) :
    c.line = first + (text.take c.position).count '\n' := by
  rw [h.line_eq, h.take_eq, List.count_reverse]

/-- **The line of a place** that a cursor has passed. -/
theorem Stands.lineAt_eq (h : c.Stands text first) {p : Nat} (hp : p ≤ c.position) :
    c.lineAt p = first + (text.take p).count '\n' := by
  have hoffset : c.offset p = p := by
    have hlength := h.length_eq
    rw [offset, if_neg (by omega), h.text_length]
    omega
  have hcount := count_take_add text hp
  rw [lineAt, h.text_eq, hoffset, ← List.count_eq_countP, h.line_eq_count]
  omega

/-- **Cursor and line agree with the text** whose first line has a number, and go on to do so. -/
structure InStep (text : List Char) (first : Int) (c : Cursor) : Prop where
  position_le : c.position ≤ text.length
  atEnd_iff : c.atEnd = true ↔ c.position = text.length
  line_eq : c.line = first + (text.take c.position).count '\n'
  lineAt_eq : ∀ p : Nat, p ≤ c.position → c.lineAt p = first + (text.take p).count '\n'
  performs : ∀ call : Call,
    ((c.perform call).1, (c.perform call).2.position) = call.expected text c.position
  keeps : ∀ call e, (c.perform call).1 = .error e → (c.perform call).2 = c

theorem Stands.inStep (h : c.Stands text first) : c.InStep text first where
  position_le := by
    have hlength := h.length_eq
    omega
  atEnd_iff := by rw [h.atEnd_eq, beq_iff_eq]
  line_eq := h.line_eq_count
  lineAt_eq _ hp := h.lineAt_eq hp
  performs call := (h.perform call).2
  keeps _ _ he := perform_of_error he

/-- **Cursor and line stay in step**, from any offset of a buffer on, behind any calls. There is no
cursor at an offset outside the buffer. -/
theorem inStep_run (buffer : String) (first place : Int) :
    if 0 ≤ place ∧ place ≤ buffer.length then
      ∃ c, (start buffer first).moveTo place = .ok c ∧
        ∀ calls, (c.run calls).InStep buffer.toList first
    else (start buffer first).moveTo place =
      .error (Failure.outsideText place buffer.length).reported := by
  have hstart := stands_start buffer first
  rw [← String.length_toList]
  split
  · rename_i hinside
    obtain ⟨c, hmove, hstands, -⟩ := hstart.exists_moveTo hinside.1 hinside.2
    exact ⟨c, hmove, fun calls => (hstands.run calls).inStep⟩
  · rename_i houtside
    exact hstart.moveTo_outside houtside

/-- Forward over a line feed, to nowhere, and back before it. -/
example : ((start "a\nb" 7).run [.next, .next, .moveTo 4]).line = 8 ∧
    ((start "a\nb" 7).run [.next, .next, .moveTo 4, .moveTo 1]).line = 7 := by decide

end Cursor

end TermCalc
