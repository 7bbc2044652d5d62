import LambdaLayout.Extract
import LambdaLayout.FileSystem

/-!
The definition found at a line of a source: the innermost statement that covers the line, from the
start of its first line on.
-/

namespace LambdaLayout.Definition

open LambdaLayout.Python (Parsed)

/-- Says that a row lies between the first and the last row of a node. -/
def covers (row : Nat) (tree : Python.Tree) : Bool :=
  tree.span.start.row ≤ row && row ≤ tree.span.stop.row

theorem sizeOf_children (label : Python.Label) (children rest : List Python.Tree) :
    sizeOf children < sizeOf (Python.Tree.node label children :: rest) := by
  simp only [List.cons.sizeOf_spec, Python.Tree.node.sizeOf_spec]
  omega

theorem sizeOf_rest (tree : Python.Tree) (rest : List Python.Tree) :
    sizeOf rest < sizeOf (tree :: rest) := by
  simp only [List.cons.sizeOf_spec]
  omega

mutual

/-- The innermost statement that covers a row, among the statements of a module or block. -/
def innermost? (row : Nat) : List Python.Tree → Option Python.Tree
  | [] => none
  | .node label children :: rest =>
    let statement := Python.Tree.node label children
    if label.named && label.kind != "comment" && covers row statement then
      some (((nested? row children).bind id).getD statement)
    else innermost? row rest
termination_by trees => sizeOf trees
decreasing_by
  · exact sizeOf_children label children rest
  · exact sizeOf_rest (.node label children) rest

/-- The innermost statement in the first block that covers a row, if there is such a block. -/
def nested? (row : Nat) : List Python.Tree → Option (Option Python.Tree)
  | [] => none
  | .node label children :: rest =>
    if label.named && covers row (.node label children) then
      if label.kind == "block" then some (innermost? row children)
      else (nested? row children).or (nested? row rest)
    else nested? row rest
termination_by trees => sizeOf trees
decreasing_by
  · exact sizeOf_children label children rest
  · exact sizeOf_children label children rest
  · exact sizeOf_rest (.node label children) rest
  · exact sizeOf_rest (.node label children) rest

end

/-- The offset at which the line of an offset starts. -/
def lineStart (text : Text) (offset : Nat) : Nat :=
  match Text.splitAtByte text offset with
  | none => 0
  | some (before, _) => offset - Text.byteLength (before.reverse.takeWhile fun c => c != '\n')

/-- The text of the definition at a line, counted from one, of a source. -/
def inSource (source : Text) (line : Nat) (parse : Text → Parsed := Python.parse) :
    Except Failure Text :=
  let parsed := parse source
  match innermost? (line - 1) parsed.tree.children with
  | none => .error .notFound
  | some statement =>
    let start := lineStart source statement.span.startByte
    match Text.slice? source start statement.span.endByte with
    | none => .error .notFound
    | some text => .ok text

/-- The words for a file that is not a text. -/
def notText : Text := "stream did not contain valid UTF-8".toList

/-- The text of the definition at a line of a file. -/
def inFile (files : FileSystem) (path : Text) (line : Nat)
    (parse : Text → Parsed := Python.parse) : Except Failure Text :=
  match files.read path with
  | .error fault => .error (.io path fault.message)
  | .ok bytes =>
    match Utf8.decode bytes with
    | .error _ => .error (.io path notText)
    | .ok source => inSource source line parse

/-- The call of the keyword, under the name if one is given, in the definition at a line of a
file. -/
def callInFile (files : FileSystem) (path : Text) (line : Nat) (keyword identifier : Text)
    (parse : Text → Parsed := Python.parse) : Except Failure Node := do
  let source ← inFile files path line parse
  Extract.call source keyword identifier parse

end LambdaLayout.Definition
