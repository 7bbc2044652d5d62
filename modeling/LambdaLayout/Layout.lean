import LambdaLayout.Chain
import LambdaLayout.Edit
import LambdaLayout.Text.Dedent

/-!
The canonical layout of extended lambdas. The items of a lambda's body, and those of the body of
each clause of a chain, stand on lines of their own, one level deeper than the construct they belong
to. Everything else is copied from the source as it stands, with the extended lambdas inside it laid
out in turn. A layout that would have to move a comment is refused, and the text is then copied.

The functions call each other on parts of a call and on calls found inside a stretch of source, so
they count down a depth. The depth is chosen from the length of the text, and for the calls of a
parsed source it is never used up.
-/

namespace LambdaLayout

/-- An extended lambda: a call with a single argument, a lambda without comments of its own, whose
body is a list. -/
structure LambdaParts where
  /-- What is called. -/
  function : Node
  /-- The parameters of the lambda, if it has any. -/
  parameters : Option Span
  /-- The list that is the body. -/
  body : Span
  /-- The items of the body, comments included. -/
  elements : List Node

/-- The parts of an extended lambda, when the node has its shape. -/
def LambdaParts.ofNode? : Node → Option LambdaParts
  | .call _ function [.lambda _ parameters (.list body elements) []] =>
    some ⟨function, parameters, body, elements⟩
  | _ => none

/-- A source to be laid out: its text, its tokens, and its extended lambdas, the outer before the
inner ones. -/
structure Layout where
  /-- The text. -/
  source : Text
  /-- The tokens of the text. -/
  tokens : List Token
  /-- The extended lambdas. -/
  calls : List Node

namespace Layout

/-- The order of calls: by their start, and of those that start together the longer one first. -/
def precedes (left right : Node) : Bool :=
  left.span.startByte < right.span.startByte ||
    (left.span.startByte == right.span.startByte && right.span.endByte ≤ left.span.endByte)

/-- Leaves out each node that has the same span as the one before it. -/
def dropRepeats (last : Option Span) : List Node → List Node
  | [] => []
  | node :: rest =>
    if last == some node.span then dropRepeats last rest
    else node :: dropRepeats (some node.span) rest

/-- A source with its extended lambdas in order, each once. -/
def make (source : Text) (tokens : List Token) (calls : List Node) : Layout where
  source := source
  tokens := tokens
  calls := dropRepeats none (calls.mergeSort precedes)

/-- Says that a call is to be found in a range, possibly only if it is not the whole range. -/
def isWithin (extent : Extent) (strict : Bool) (call : Node) : Bool :=
  extent.contains call.span.extent && !(strict && call.span.extent == extent)

/-- The calls in a range that do not lie in the one found before them. -/
def outermostFrom (extent : Extent) (strict : Bool) (last : Option Node) : List Node → List Node
  | [] => []
  | call :: rest =>
    if !isWithin extent strict call || last.any fun outer => outer.span.contains call.span then
      outermostFrom extent strict last rest
    else call :: outermostFrom extent strict (some call) rest

/-- The extended lambdas in a range that lie in no other one of that range. If asked for strictly, a
call that is the whole range does not count. -/
def outermostCalls (layout : Layout) (extent : Extent) (strict : Bool) : List Node :=
  outermostFrom extent strict none layout.calls

/-- Says that a node is one of the extended lambdas. -/
def isConfirmed (layout : Layout) (node : Node) : Bool :=
  layout.calls.any fun call => call.span == node.span

/-- The indentation of the line of an offset, as far as it lies before the offset. -/
def lineIndent (layout : Layout) (offset : Nat) : Text :=
  match Text.splitAtByte layout.source offset with
  | none => []
  | some (before, _) => Text.indentOf (before.reverse.takeWhile fun c => c != '\n').reverse

/-- Says that what is last in a range, blanks apart, is a comment. -/
def endsWithComment (layout : Layout) (extent : Extent) : Bool :=
  let inside := layout.tokens.filter fun token =>
    extent.start ≤ token.span.startByte && token.span.startByte < extent.stop
  let last := inside.reverse.find? fun token =>
    !(token.kind == .whitespace || token.kind == .newline)
  last.any fun token => token.kind == .comment

/-- Says that a comment lies in the outer span and not in the inner one. -/
def hasCommentOutside (layout : Layout) (outer inner : Span) : Bool :=
  layout.tokens.any fun token =>
    token.kind == .comment && outer.contains token.span && !inner.contains token.span

/-- What each level of a layout is indented by. -/
def indentation : Text := "    ".toList

/-- Why there is no layout. -/
inductive Refusal where
  /-- The construct cannot be laid out. -/
  | unfit
  /-- The depth was used up. -/
  | tooDeep
  deriving DecidableEq

/-- A text, or the reason why there is none. -/
abbrev Attempt := Except Refusal Text

/-- What is unfit for one attempt is left to another. -/
def Attempt.orElse (first : Attempt) (second : Unit → Attempt) : Attempt :=
  match first with
  | .error .unfit => second ()
  | other => other

/-- The text of a range. -/
def textOf (layout : Layout) (extent : Extent) : Attempt :=
  match Text.slice? layout.source extent.start extent.stop with
  | some text => .ok text
  | none => .error .unfit

/-- A text copied from the given offset on, with each of the calls replaced. The last call is
replaced first, so that the offsets of the others stay right. -/
def replaceCalls (nested : Node → Attempt) (offset : Nat) (text : Text) : List Node → Attempt
  | [] => .ok text
  | call :: rest => do
    let text ← replaceCalls nested offset text rest
    let replacement ← nested call
    let edit : Edit :=
      ⟨call.span.startByte - offset, call.span.endByte - offset, replacement⟩
    match edit.replace? text with
    | some text => return text
    | none => throw .unfit

/-- The items of a block. A comment that starts in the row in which what is before it ends stays
behind it; any other item starts a line. -/
def itemLines (element : Node → Attempt) (indent : Text) (previousRow : Nat) :
    List Node → Attempt
  | [] => .ok []
  | .comment span text :: rest => do
    let lead := if span.start.row == previousRow then "  ".toList else '\n' :: indent
    let after ← itemLines element indent span.stop.row rest
    return lead ++ Text.trimEnd text ++ after
  | item :: rest => do
    let text ← element item
    let comma := if rest.any fun other => !other.isComment then [','] else []
    let after ← itemLines element indent item.span.stop.row rest
    return '\n' :: indent ++ text ++ comma ++ after

/-- The clauses of a chain with dots between them. -/
def clauseTexts (clause : Clause → Attempt) : List Clause → Attempt
  | [] => .ok []
  | [last] => clause last
  | first :: rest => do
    let text ← clause first
    let after ← clauseTexts clause rest
    return text ++ '.' :: after

/-- The head of a lambda with the given parameters. -/
def lambdaHead (parameters : Option Text) : Text :=
  "lambda".toList ++ ((parameters.map fun text => ' ' :: text).getD []) ++ ":".toList

mutual

/-- The canonical layout of an extended lambda. There is none when nothing but comments is in its
body, or when a comment stands in the call outside the body. -/
def callText (layout : Layout) : Nat → Node → Text → Attempt
  | 0, _, _ => .error .tooDeep
  | depth + 1, call, base =>
    match LambdaParts.ofNode? call with
    | none => .error .unfit
    | some parts =>
      if parts.elements.all Node.isComment then .error .unfit
      else if layout.hasCommentOutside call.span parts.body then .error .unfit
      else do
        let callee ← layout.textOf parts.function.span.extent
        let parameters ← parts.parameters.mapM fun span => layout.textOf span.extent
        let block ← blockText layout depth parts.elements parts.body.start.row base
        return callee ++ "(".toList ++ lambdaHead parameters ++ " [".toList ++ block ++
          "])".toList

/-- A range copied from the source, with the extended lambdas inside it laid out. Those that start
in the given row take the given indentation, and the others that of their own line. -/
def rangeText (layout : Layout) : Nat → Extent → Nat → Text → Attempt
  | 0, _, _, _ => .error .tooDeep
  | depth + 1, extent, row, indent =>
    if layout.endsWithComment extent then .error .unfit
    else do
      let text ← layout.textOf extent
      let nested := fun (call : Node) =>
        let base :=
          if call.span.start.row == row then indent else layout.lineIndent call.span.startByte
        (callText layout depth call base).orElse fun _ =>
          rangeText layout depth call.span.extent call.span.start.row base
      replaceCalls nested extent.start text (layout.outermostCalls extent true)

/-- The text between the brackets of a block: its items one level deeper, and the indentation of
the closing bracket. -/
def blockText (layout : Layout) : Nat → List Node → Nat → Text → Attempt
  | 0, _, _, _ => .error .tooDeep
  | depth + 1, items, openRow, base => do
    let indent := base ++ indentation
    let lines ← itemLines (fun item => elementText layout depth item indent) indent openRow items
    return lines ++ '\n' :: base

/-- One item of a block: the clauses of a chain, an extended lambda, or a copy. -/
def elementText (layout : Layout) : Nat → Node → Text → Attempt
  | 0, _, _ => .error .tooDeep
  | depth + 1, item, indent =>
    match Chain.ofNode? layout.tokens item with
    | some clauses =>
      let clause := fun (part : Clause) => do
        let head ← rangeText layout depth part.head part.headRow indent
        let body ← blockText layout depth part.body part.openRow indent
        return head ++ " [".toList ++ body ++ "]".toList
      clauseTexts clause clauses
    | none =>
      let copy := fun (_ : Unit) =>
        rangeText layout depth item.span.extent item.span.start.row indent
      if layout.isConfirmed item then (callText layout depth item indent).orElse copy else copy ()

end

/-- A depth that suffices for a text of so many bytes. -/
def depthFor (bytes : Nat) : Nat := 4 * bytes + 4

/-- The canonical layout of an extended lambda at an indentation. -/
def call (layout : Layout) (node : Node) (base : Text) : Attempt :=
  callText layout (depthFor node.span.length) node base

/-- The source of a node, with the extended lambdas inside it laid out. -/
def copied (layout : Layout) (node : Node) (base : Text) : Attempt :=
  rangeText layout (depthFor node.span.length) node.span.extent node.span.start.row base

/-- What stands in the place of an extended lambda: its canonical layout, or else its source with
the extended lambdas inside it laid out. -/
def replacement (layout : Layout) (node : Node) : Attempt :=
  let base := layout.lineIndent node.span.startByte
  (layout.call node base).orElse fun _ => layout.copied node base

end Layout

end LambdaLayout
