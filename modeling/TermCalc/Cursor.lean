import TermCalc.Failure

/-!
# Cursors

A cursor is a place in a text with the number of its line and its column, which are kept up while
the cursor moves, in either direction.

* `Cursor`, `Cursor.forward`, `Cursor.back`, `Cursor.next`, `Cursor.peek`, `Cursor.moveTo`.
* `sinceLineFeed`: the characters of the line before a place.
* `Cursor.pos`: line and column of the cursor.
* `Cursor.columnAt`, `Cursor.lineAt`: those of another place. A negative offset counts from the end
  of the text.
* `text_forward`, `text_back`: moving leaves the text alone.
* `ahead_forward`: what is ahead after a move.
* `Cursor.ext`: the column of a cursor is determined by what it has passed.
-/

namespace TermCalc

/-- How many characters there are up to the nearest line feed, given them nearest first. -/
def sinceLineFeed (passed : List Char) : Nat := (passed.takeWhile (· != '\n')).length

/-- **A place in a text.** The characters before it are kept nearest first. Columns count from 1. -/
structure Cursor where
  passed : List Char
  ahead : List Char
  line : Int
  column : Nat
  column_eq : column = sinceLineFeed passed + 1
  deriving DecidableEq, Repr

namespace Cursor

/-- The start of a text. -/
def start (text : String) (line : Int) : Cursor := ⟨[], text.toList, line, 1, rfl⟩

/-- The whole text. -/
def text (c : Cursor) : List Char := c.passed.reverse ++ c.ahead

/-- The number of characters before the cursor. -/
def position (c : Cursor) : Nat := c.passed.length

/-- The number of characters in the text. -/
def length (c : Cursor) : Nat := c.passed.length + c.ahead.length

/-- Whether nothing is ahead. -/
def atEnd (c : Cursor) : Bool := c.ahead.isEmpty

/-- What a character adds to the line number. -/
def lineStep (ch : Char) : Int := if ch == '\n' then 1 else 0

/-- The column behind a character. -/
def columnBehind (ch : Char) (column : Nat) : Nat := if ch == '\n' then 1 else column + 1

/-- The column before a character, given the one behind it and what is passed before it. -/
def columnBefore (ch : Char) (column : Nat) (rest : List Char) : Nat :=
  if ch == '\n' then sinceLineFeed rest + 1 else column - 1

theorem columnBehind_eq {passed : List Char} {column : Nat}
    (h : column = sinceLineFeed passed + 1) (ch : Char) :
    columnBehind ch column = sinceLineFeed (ch :: passed) + 1 := by
  by_cases hc : ch = '\n' <;> simp [columnBehind, sinceLineFeed, hc, h]

theorem columnBefore_eq {ch : Char} {rest : List Char} {column : Nat}
    (h : column = sinceLineFeed (ch :: rest) + 1) :
    columnBefore ch column rest = sinceLineFeed rest + 1 := by
  by_cases hc : ch = '\n' <;> simp_all [columnBefore, sinceLineFeed]

/-- The cursor moved over the next `n` characters, or to the end. -/
def forward : Nat → Cursor → Cursor
  | 0, c => c
  | n + 1, ⟨passed, ahead, line, column, h⟩ =>
    match ahead with
    | [] => ⟨passed, [], line, column, h⟩
    | ch :: rest =>
      forward n ⟨ch :: passed, rest, line + lineStep ch, columnBehind ch column,
        columnBehind_eq h ch⟩

/-- The cursor moved back over `n` characters, or to the start. -/
def back : Nat → Cursor → Cursor
  | 0, c => c
  | n + 1, ⟨passed, ahead, line, column, h⟩ =>
    match passed, h with
    | [], h => ⟨[], ahead, line, column, h⟩
    | ch :: rest, h =>
      back n ⟨rest, ch :: ahead, line - lineStep ch, columnBefore ch column rest,
        columnBefore_eq h⟩

/-- The character at the cursor. -/
def peek (c : Cursor) : Except Failure Char :=
  match c.ahead with
  | [] => .error (.endOfText c.position)
  | ch :: _ => .ok ch

/-- The character at the cursor, and the cursor behind it. -/
def next (c : Cursor) : Except Failure (Char × Cursor) :=
  match c.ahead with
  | [] => .error (.endOfText c.position)
  | ch :: _ => .ok (ch, c.forward 1)

/-- The cursor at a position of the text. -/
def moveTo (c : Cursor) (position : Int) : Except Failure Cursor :=
  if position < 0 ∨ (c.length : Int) < position then
    .error (Failure.outsideText position c.length).reported
  else
    let target := position.toNat
    .ok (if c.position < target then c.forward (target - c.position)
      else c.back (c.position - target))

/-- Line and column of the cursor. -/
def pos (c : Cursor) : Pos := ⟨c.line, c.column⟩

/-- The offset that an index stands for: from the end if negative, and never outside the text. -/
def offset (c : Cursor) (index : Int) : Nat :=
  if index < 0 then (index + c.length).toNat else min index.toNat c.length

/-- The column of a place: its distance from the last line feed before it. -/
def columnAt (c : Cursor) (index : Int) : Int :=
  let before := c.text.take (c.offset index)
  let lineStart := before.length - sinceLineFeed before.reverse
  index - lineStart + 1

/-- The line of a place at or before the cursor. -/
def lineAt (c : Cursor) (index : Int) : Int :=
  let between := (c.text.take c.position).drop (c.offset index)
  c.line - between.countP (· == '\n')

/-- The line of the cursor in a file, as messages show it. -/
def location (c : Cursor) (file : String) : String := file ++ ":" ++ showInt c.line

/-- A cursor as messages show it. -/
def shown (c : Cursor) : String :=
  "StringInput(" ++ showInt c.position ++ "/" ++ showInt c.length ++ ")"

/-- **The column of a cursor is determined by what it has passed.** -/
theorem ext {c d : Cursor} (hp : c.passed = d.passed) (ha : c.ahead = d.ahead)
    (hl : c.line = d.line) : c = d := by
  obtain ⟨passed, ahead, line, column, h⟩ := c
  obtain ⟨passed', ahead', line', column', h'⟩ := d
  obtain rfl : passed = passed' := hp
  obtain rfl : ahead = ahead' := ha
  obtain rfl : line = line' := hl
  obtain rfl : column = column' := h.trans h'.symm
  rfl

theorem text_forward (n : Nat) (c : Cursor) : (c.forward n).text = c.text := by
  induction n generalizing c with
  | zero => rfl
  | succ n ih =>
    obtain ⟨passed, ahead, line, column, h⟩ := c
    cases ahead with
    | nil => rfl
    | cons ch rest => rw [forward, ih]; simp [text]

theorem text_back (n : Nat) (c : Cursor) : (c.back n).text = c.text := by
  induction n generalizing c with
  | zero => rfl
  | succ n ih =>
    obtain ⟨passed, ahead, line, column, h⟩ := c
    cases passed with
    | nil => rfl
    | cons ch rest => rw [back, ih]; simp [text]

@[simp] theorem ahead_forward (n : Nat) (c : Cursor) : (c.forward n).ahead = c.ahead.drop n := by
  induction n generalizing c with
  | zero => rfl
  | succ n ih =>
    obtain ⟨passed, ahead, line, column, h⟩ := c
    cases ahead with
    | nil => rfl
    | cons ch rest => simp [forward, ih]

end Cursor

end TermCalc
