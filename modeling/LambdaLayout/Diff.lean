import LambdaLayout.Text.Basic

/-!
The difference of two texts, line by line, as a shortest list of lines to take away and to put in,
and its unified form: hunks of changed lines with up to three lines of context, where changes with
at most six unchanged lines between them share a hunk.
-/

namespace LambdaLayout.Diff

/-- The lines of a text with their ends. A line ends with a line feed, a carriage return, or a
carriage return followed by a line feed. -/
def splitLines : Text → List Text
  | [] => []
  | '\r' :: '\n' :: rest => ['\r', '\n'] :: splitLines rest
  | c :: rest =>
    if c == '\n' || c == '\r' then [c] :: splitLines rest
    else
      match splitLines rest with
      | [] => [[c]]
      | line :: lines => (c :: line) :: lines

/-- A line of a comparison. -/
inductive Change where
  /-- The line is in both texts. -/
  | keep (line : Text)
  /-- The line is taken away. -/
  | delete (line : Text)
  /-- The line is put in. -/
  | insert (line : Text)
  deriving DecidableEq

/-- The changes from one list of lines to another, and the number of those that are no keeps. -/
structure Script where
  /-- The number of lines taken away and put in. -/
  cost : Nat
  /-- The changes in order. -/
  changes : List Change

namespace Script

/-- No changes. -/
def nothing : Script := ⟨0, []⟩

/-- The script after a kept line. -/
def keep (line : Text) (script : Script) : Script := ⟨script.cost, .keep line :: script.changes⟩

/-- The script after a line that is taken away. -/
def delete (line : Text) (script : Script) : Script :=
  ⟨script.cost + 1, .delete line :: script.changes⟩

/-- The script after a line that is put in. -/
def insert (line : Text) (script : Script) : Script :=
  ⟨script.cost + 1, .insert line :: script.changes⟩

/-- The scripts from no lines to each tail of the new lines, the longest tail first. -/
def fromNothing : List Text → List Script
  | [] => [nothing]
  | line :: rest =>
    match fromNothing rest with
    | [] => []
    | script :: scripts => script.insert line :: script :: scripts

/-- The scripts from some old lines to each tail of the new lines, given the scripts from the old
lines without the first. -/
def fromLine (line : Text) : List Text → List Script → List Script
  | [], below :: _ => [below.delete line]
  | other :: rest, below :: belowRest =>
    match belowRest, fromLine line rest belowRest with
    | diagonal :: _, right :: scripts =>
      let best :=
        if line = other then diagonal.keep line
        else if below.cost ≤ right.cost then below.delete line
        else right.insert other
      best :: right :: scripts
    | _, scripts => scripts
  | _, [] => []

/-- A shortest script from the old lines to the new ones. -/
def between (old new : List Text) : Script :=
  ((old.foldr (fun line scripts => fromLine line new scripts) (fromNothing new)).head?).getD nothing

end Script

/-- Neighbouring lines that are kept, or that are changed together. -/
inductive Chunk where
  /-- Lines in both texts. -/
  | same (lines : List Text)
  /-- Lines taken away, and lines put in their place. -/
  | edit (deleted inserted : List Text)

/-- The changes grouped. -/
def chunks : List Change → List Chunk
  | [] => []
  | .keep line :: rest =>
    match chunks rest with
    | .same lines :: more => .same (line :: lines) :: more
    | more => .same [line] :: more
  | .delete line :: rest =>
    match chunks rest with
    | .edit deleted inserted :: more => .edit (line :: deleted) inserted :: more
    | more => .edit [line] [] :: more
  | .insert line :: rest =>
    match chunks rest with
    | .edit deleted inserted :: more => .edit deleted (line :: inserted) :: more
    | more => .edit [] [line] :: more

/-- Changes that are shown together. -/
structure Hunk where
  /-- The number of old lines before the hunk. -/
  oldStart : Nat
  /-- The number of new lines before the hunk. -/
  newStart : Nat
  /-- The lines of the hunk. -/
  changes : List Change

namespace Hunk

/-- The hunk with further lines. -/
def push (hunk : Hunk) (changes : List Change) : Hunk :=
  { hunk with changes := hunk.changes ++ changes }

/-- Says that the hunk changes something. -/
def isEdit (hunk : Hunk) : Bool :=
  hunk.changes.any fun change =>
    match change with
    | .keep _ => false
    | _ => true

/-- The hunk, if it changes something. -/
def close (hunk : Hunk) : List Hunk := if hunk.isEdit then [hunk] else []

/-- The number of its lines in the old text. -/
def oldLength (hunk : Hunk) : Nat :=
  (hunk.changes.filter fun change =>
    match change with
    | .insert _ => false
    | _ => true).length

/-- The number of its lines in the new text. -/
def newLength (hunk : Hunk) : Nat :=
  (hunk.changes.filter fun change =>
    match change with
    | .delete _ => false
    | _ => true).length

end Hunk

/-- The number of unchanged lines shown around a change. -/
def context : Nat := 3

/-- The hunks of the chunks, given the lines already passed in each text and the hunk begun. -/
def hunksFrom (old new : Nat) (hunk : Hunk) : List Chunk → List Hunk
  | [] => hunk.close
  | [.same lines] => (hunk.push ((lines.take context).map .keep)).close
  | .same lines :: rest =>
    let count := lines.length
    if count ≤ 2 * context then
      hunksFrom (old + count) (new + count) (hunk.push (lines.map .keep)) rest
    else
      let skipped := count - context
      (hunk.push ((lines.take context).map .keep)).close ++
        hunksFrom (old + count) (new + count)
          ⟨old + skipped, new + skipped, (lines.drop skipped).map .keep⟩ rest
  | .edit deleted inserted :: rest =>
    hunksFrom (old + deleted.length) (new + inserted.length)
      (hunk.push (deleted.map .delete ++ inserted.map .insert)) rest

/-- The hunks of the chunks. Of unchanged lines at the start only the last ones are shown. -/
def hunks : List Chunk → List Hunk
  | .same lines :: rest =>
    let skipped := lines.length - context
    hunksFrom lines.length lines.length ⟨skipped, skipped, (lines.drop skipped).map .keep⟩ rest
  | chunks => hunksFrom 0 0 ⟨0, 0, []⟩ chunks

/-- The written form of a range of lines: where it starts, counted from one, and its length unless
that is one. An empty range starts at the line before it. -/
def rangeText (start length : Nat) : Text :=
  if length = 1 then Text.ofNat (start + 1)
  else if length = 0 then Text.ofNat start ++ ",0".toList
  else Text.ofNat (start + 1) ++ ',' :: Text.ofNat length

/-- What is added to a line that has no end. -/
def lineEnding (line : Text) : Text :=
  match line.getLast? with
  | some '\n' => []
  | some '\r' => []
  | _ => "\n\\ No newline at end of file\n".toList

/-- A line behind its sign. -/
def signed (sign : Char) (line : Text) : Text := sign :: line ++ lineEnding line

/-- The written form of a change. -/
def Change.render : Change → Text
  | .keep line => signed ' ' line
  | .delete line => signed '-' line
  | .insert line => signed '+' line

/-- The written form of a hunk. -/
def Hunk.render (hunk : Hunk) : Text :=
  "@@ -".toList ++ rangeText hunk.oldStart hunk.oldLength ++ " +".toList ++
    rangeText hunk.newStart hunk.newLength ++ " @@\n".toList ++ hunk.changes.flatMap Change.render

/-- The unified form of the difference between two texts with the given names. -/
def unified (oldName newName : Text) (old new : Text) : Text :=
  let script := Script.between (splitLines old) (splitLines new)
  match hunks (chunks script.changes) with
  | [] => []
  | found =>
    "--- ".toList ++ oldName ++ "\n+++ ".toList ++ newName ++ "\n".toList ++
      found.flatMap Hunk.render

end LambdaLayout.Diff
