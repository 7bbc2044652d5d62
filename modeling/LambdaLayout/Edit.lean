import LambdaLayout.Text.Basic

/-!
Edits: pieces of a text, given by byte ranges, with what is to stand in their place. The edits of a
text are applied from its end backwards, so that each range still fits when its turn comes.
-/

namespace LambdaLayout

/-- A byte range and the text to stand in its place. -/
structure Edit where
  /-- Offset of the first byte. -/
  start : Nat
  /-- Offset just past the last byte. -/
  stop : Nat
  /-- The new text. -/
  text : Text
  deriving DecidableEq

namespace Edit

/-- Why an edit does not fit a text. -/
inductive Fault where
  /-- The range goes beyond the text. -/
  | outside
  /-- The range starts or ends inside a character. -/
  | boundary
  deriving DecidableEq

/-- The words of the fault. -/
def Fault.message : Fault → Text
  | .outside => "edit range lies outside the source".toList
  | .boundary => "edit range is not on a UTF-8 boundary".toList

/-- The text with the range replaced, if the range is one of its pieces. -/
def replace? (source : Text) (edit : Edit) : Option Text := do
  let before ← Text.splitAtByte source edit.start
  let after ← Text.splitAtByte source edit.stop
  return before.1 ++ edit.text ++ after.2

/-- Applies one edit. -/
def apply (source : Text) (edit : Edit) : Except Fault Text :=
  if Text.byteLength source < edit.stop then .error .outside
  else
    match edit.replace? source with
    | some text => .ok text
    | none => .error .boundary

/-- Applies edits one after the other. -/
def applyInOrder (source : Text) : List Edit → Except Fault Text
  | [] => .ok source
  | edit :: rest => do
    let text ← apply source edit
    applyInOrder text rest

/-- Applies edits, the ones with the largest offsets first. -/
def applyAll (source : Text) (edits : List Edit) : Except Fault Text :=
  applyInOrder source (edits.mergeSort fun left right => right.start ≤ left.start)

end Edit

end LambdaLayout
