import LambdaLayout.Source.Position

/-!
Byte ranges of a source, where the positions of their ends do not matter.
-/

namespace LambdaLayout

/-- A range of bytes. -/
structure Extent where
  /-- Offset of the first byte. -/
  start : Nat
  /-- Offset just past the last byte. -/
  stop : Nat
  deriving DecidableEq, Inhabited

namespace Extent

/-- Says that a range lies inside this one. -/
def contains (outer inner : Extent) : Bool :=
  outer.start ≤ inner.start && inner.stop ≤ outer.stop

end Extent

/-- The byte range of a span. -/
def Span.extent (span : Span) : Extent := ⟨span.startByte, span.endByte⟩

end LambdaLayout
