import LambdaLayout.Layout
import LambdaLayout.Lower
import LambdaLayout.Pattern
import LambdaLayout.Python.Parse
import LambdaLayout.Region

/-!
Laying out the extended lambdas of a source. Candidates found among the tokens are confirmed on the
syntax tree, each outermost confirmed call is laid out, and the result is read again: it must follow
the grammar, and apart from commas and blank space it must have the tokens that were there before. A
source that does not follow the grammar is left as it is. The parser that reads the source and the
result is an argument, for which there is one to take unless another is given.
-/

namespace LambdaLayout

/-- A laid out source. -/
structure Reformat where
  /-- The text. -/
  output : Text
  /-- The number of outermost calls whose text changed. -/
  changes : Nat
  deriving DecidableEq

namespace Reformat

/-- A source left as it is. -/
def unchanged (source : Text) : Reformat := ⟨source, 0⟩

/-- Says that a call was changed. -/
def hasChanges (reformat : Reformat) : Bool := 0 < reformat.changes

/-- A token as it is compared: its category, and its text without blanks at the end. -/
abbrev Mark := TokenKind × Text

/-- The tokens that layout may not change. -/
def significant (tokens : List Token) : List Mark :=
  (tokens.filter fun token =>
    !(token.kind == .whitespace || token.kind == .newline || token.kind == .comma)).map
    fun token => (token.kind, Text.trimEnd token.text)

/-- How a text differs from the source it was made from. -/
inductive Mismatch where
  /-- It does not follow the grammar at a line and column. -/
  | unparsable (line column : Nat)
  /-- It has another token at an index. -/
  | token (index : Nat) (before after : Mark)
  /-- It has another number of tokens. -/
  | count (before after : Nat)
  deriving DecidableEq

/-- The written form of a token in a message. -/
def Mark.render (mark : Mark) : Text :=
  "Some((".toList ++ mark.1.display.toList ++ ", ".toList ++ Text.quoted mark.2 ++ "))".toList

/-- The words of the mismatch. -/
def Mismatch.message : Mismatch → Text
  | .unparsable line column =>
    "formatted output does not parse at line ".toList ++ Text.ofNat line ++
      ", column ".toList ++ Text.ofNat column
  | .token index before after =>
    "formatting changed token ".toList ++ Text.ofNat index ++ ": ".toList ++
      Mark.render before ++ " became ".toList ++ Mark.render after
  | .count before after =>
    "formatting changed the token count from ".toList ++ Text.ofNat before ++ " to ".toList ++
      Text.ofNat after

/-- The first place, counted from an index on, where two lists differ, as far as both go. -/
def firstDifference (index : Nat) : List Mark → List Mark → Option Mismatch
  | before :: left, after :: right =>
    if before = after then firstDifference (index + 1) left right
    else some (.token index before after)
  | _, _ => none

/-- How the tokens of a text differ from those before. -/
def compareMarks (before after : List Mark) : Option Mismatch :=
  match firstDifference 0 before after with
  | some mismatch => some mismatch
  | none => if before.length = after.length then none else some (.count before.length after.length)

/-- How an output differs from the source with the given tokens in more than layout. -/
def mismatch? (tokens : List Token) (output : Text)
    (parse : Text → Python.Parsed := Python.parse) : Option Mismatch :=
  let parsed := parse output
  match parsed.errors with
  | complaint :: _ => some (.unparsable complaint.place.1 complaint.place.2)
  | [] => compareMarks (significant tokens) (significant (Token.tokenize parsed))

/-- Says that a call has the shape of an extended lambda and lies in one of the candidates, or
starts with one. -/
def isConfirmed (regions : List Region) (call : Node) : Bool :=
  match LambdaParts.ofNode? call with
  | none => false
  | some parts =>
    let start := parts.function.span.startByte
    regions.any fun region => region.keywordStart == start || region.covers start call.span.endByte

/-- The calls of the keyword, or of a name under it, that are extended lambdas. -/
def confirmedCalls (keyword : Text) (root : Node) (regions : List Region) :
    Except Failure (List Node) := do
  let bare ← Pattern.ofText (keyword ++ "(?)".toList)
  let named ← Pattern.ofText (keyword ++ ".?(?)".toList)
  return (bare.findIn root ++ named.findIn root).filter (isConfirmed regions)

/-- The edit for a call, when there is a layout and it is not what stands there already. -/
def editFor (layout : Layout) (call : Node) : Option Edit :=
  match layout.replacement call with
  | .error _ => none
  | .ok text =>
    if Text.slice? layout.source call.span.startByte call.span.endByte = some text then none
    else some ⟨call.span.startByte, call.span.endByte, text⟩

/-- The edits for the outermost calls of a source. -/
def edits (layout : Layout) : List Edit :=
  (layout.outermostCalls ⟨0, Text.byteLength layout.source⟩ false).filterMap (editFor layout)

/-- The source with the edits applied, if nothing but layout was changed. -/
def applied (source : Text) (tokens : List Token) (edits : List Edit)
    (parse : Text → Python.Parsed := Python.parse) : Except Failure Reformat :=
  match Edit.applyAll source edits with
  | .error fault => .error (.contentChanged fault.message)
  | .ok output =>
    match mismatch? tokens output parse with
    | some mismatch => .error (.contentChanged mismatch.message)
    | none => .ok ⟨output, edits.length⟩

/-- Lays out the extended lambdas of a parsed source. -/
def ofParsed (keyword : Text) (parsed : Python.Parsed)
    (parse : Text → Python.Parsed := Python.parse) : Except Failure Reformat :=
  if parsed.hasErrors then .ok (unchanged parsed.source)
  else do
    let tokens := Token.tokenize parsed
    let regions ← Region.scan tokens keyword
    if regions.isEmpty then return unchanged parsed.source
    let calls ← confirmedCalls keyword (Node.lower parsed) regions
    let edits := edits (Layout.make parsed.source tokens calls)
    if edits.isEmpty then return unchanged parsed.source
    applied parsed.source tokens edits parse

/-- Lays out the extended lambdas of a source. -/
def ofSource (keyword source : Text) (parse : Text → Python.Parsed := Python.parse) :
    Except Failure Reformat :=
  ofParsed keyword (parse source) parse

/-- The keyword of extended lambdas unless another one is chosen. -/
def defaultKeyword : Text := "def_".toList

end Reformat

end LambdaLayout
