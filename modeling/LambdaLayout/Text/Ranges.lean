/-!
A character class given by a standard is held as an ascending list of code point ranges. The class
has a character when one of the ranges does.
-/

namespace LambdaLayout.Text

/-- Says that one of the closed ranges holds the character's code point. -/
def inRanges (ranges : List (Nat × Nat)) (c : Char) : Bool :=
  ranges.any fun range => range.1 ≤ c.toNat && c.toNat ≤ range.2

end LambdaLayout.Text
