/-!
Places in a source text. A position counts rows and the bytes since the last line feed, both from
zero; a span has the byte range of a piece of text and the positions of its two ends. Messages
show positions counted from one.
-/

namespace LambdaLayout

/-- A row and a column, both counted from zero. Columns count bytes. -/
structure Position where
  /-- The number of line breaks before the place. -/
  row : Nat
  /-- The number of bytes since the last line break. -/
  column : Nat
  deriving DecidableEq, Inhabited

namespace Position

/-- The place where a text starts. -/
def origin : Position := ⟨0, 0⟩

/-- The largest number that a message shows for a line or column. -/
def displayLimit : Nat := UInt32.size - 1

/-- The line and column counted from one. Numbers beyond the display limit are shown as the
limit. -/
def oneBased (position : Position) : Nat × Nat :=
  (min (position.row + 1) displayLimit, min (position.column + 1) displayLimit)

/-- Positions are compared by row, then by column. -/
def compare (left right : Position) : Ordering :=
  (Ord.compare left.row right.row).then (Ord.compare left.column right.column)

/-- The place after one more character: a line feed starts a row, any other character takes its
bytes. -/
def after (position : Position) (c : Char) : Position :=
  if c == '\n' then ⟨position.row + 1, 0⟩ else ⟨position.row, position.column + c.utf8Size⟩

end Position

/-- A piece of a source text: its byte range and the positions of its ends. -/
structure Span where
  /-- Offset of the first byte. -/
  startByte : Nat
  /-- Offset just past the last byte. -/
  endByte : Nat
  /-- Position of the first byte. -/
  start : Position
  /-- Position just past the last byte. -/
  stop : Position
  deriving DecidableEq, Inhabited

namespace Span

/-- Says that the byte range of the other span lies inside this one's. -/
def contains (outer inner : Span) : Bool :=
  outer.startByte ≤ inner.startByte && inner.endByte ≤ outer.endByte

theorem contains_iff {outer inner : Span} : outer.contains inner = true ↔
    outer.startByte ≤ inner.startByte ∧ inner.endByte ≤ outer.endByte := by
  simp [contains]

theorem contains_refl (span : Span) : span.contains span = true :=
  contains_iff.mpr ⟨Nat.le_refl _, Nat.le_refl _⟩

theorem contains_trans {outer middle inner : Span} (first : outer.contains middle = true)
    (second : middle.contains inner = true) : outer.contains inner = true := by
  rw [contains_iff] at *
  omega

/-- The number of bytes of a span whose ends are in order. -/
def length (span : Span) : Nat := span.endByte - span.startByte

/-- The span from the start of one span to the end of another. -/
def through (first last : Span) : Span :=
  ⟨first.startByte, last.endByte, first.start, last.stop⟩

end Span

end LambdaLayout
