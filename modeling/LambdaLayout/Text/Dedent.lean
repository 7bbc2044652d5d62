import LambdaLayout.Text.Basic

/-!
Taking away the indentation that the lines of a text share. Only lines with something on them count
for what is shared.
-/

namespace LambdaLayout.Text

/-- Spaces and tabs, which indentation is made of. -/
def isIndent (c : Char) : Bool := c == ' ' || c == '\t'

/-- The indentation of a line. -/
def indentOf (line : Text) : Text := line.takeWhile isIndent

/-- What two texts have in common at their start. -/
def commonStart : Text → Text → Text
  | a :: left, b :: right => if a == b then a :: commonStart left right else []
  | _, _ => []

/-- Says that a line has nothing on it but blanks. -/
def isBlankLine (line : Text) : Bool := (trim line).isEmpty

/-- The indentation that all lines with something on them share. -/
def commonIndent (text : Text) : Text :=
  match ((lines text).filter fun line => !isBlankLine line).map indentOf with
  | [] => []
  | first :: rest => rest.foldl commonStart first

/-- The text without the indentation its lines share. A line that lacks it, which then is blank,
loses all its indentation. -/
def dedent (text : Text) : Text :=
  let shared := commonIndent text
  if shared.isEmpty then text
  else (linesWithEnds text).flatMap fun line =>
    (shared.isPrefixOf? line).getD (line.dropWhile isIndent)

end LambdaLayout.Text
