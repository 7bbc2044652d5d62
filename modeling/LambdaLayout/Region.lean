import LambdaLayout.Failure

/-!
Candidates for extended lambdas in a stream of tokens. A pass looks for the keyword, possibly with a
name after a dot, the opening parenthesis of a call, a lambda up to the colon of its header, and a
list as its body, up to the closing parenthesis of the call. It counts brackets without telling
their kinds apart. A candidate that turns out otherwise is dropped; whether a candidate really is an
extended lambda is decided on the syntax tree.
-/

namespace LambdaLayout

/-- The byte offsets of a candidate. -/
structure Region where
  /-- Start of the keyword. -/
  keywordStart : Nat
  /-- The opening parenthesis of the call. -/
  openParen : Nat
  /-- The opening bracket of the body. -/
  bodyOpen : Nat
  /-- The closing parenthesis of the call. -/
  closeParen : Nat
  deriving DecidableEq, Inhabited

namespace Region

/-- Says that a byte range lies in the candidate. -/
def covers (region : Region) (start stop : Nat) : Bool :=
  region.keywordStart ≤ start && stop ≤ region.closeParen + 1

/-- Where the pass stands. -/
inductive State where
  /-- In no candidate. -/
  | outside
  /-- After the keyword, or after the keyword and a name. -/
  | seenKeyword
  /-- In the call, before the colon of the lambda's header. -/
  | inParameters
  /-- In the body of the lambda. -/
  | inBody
  deriving DecidableEq, Inhabited

instance : Dispatch.Shown State where
  shown
    | .outside => "Outside".toList
    | .seenKeyword => "SeenKeyword".toList
    | .inParameters => "InParamList".toList
    | .inBody => "InBody".toList

/-- What is known of the candidate at hand. -/
structure Progress where
  /-- The keyword looked for. -/
  keyword : Text
  /-- Start of the keyword. -/
  keywordStart : Nat := 0
  /-- The last token was the dot after the keyword. -/
  afterDot : Bool := false
  /-- The keyword was followed by a name. -/
  named : Bool := false
  /-- The opening parenthesis of the call. -/
  openParen : Nat := 0
  /-- The number of open brackets, the call's included. -/
  depth : Nat := 0
  /-- The number of lambdas of the header whose colon is still to come. -/
  openLambdas : Nat := 0
  /-- The opening bracket of the body. -/
  bodyOpen : Option Nat := none

/-- The context of the pass. -/
abbrev Scan := Dispatch.Context State Progress

/-- A rule of the pass. It may complete a candidate. -/
abbrev Rule := Dispatch.Handler State Progress (Option Region)

namespace Progress

/-- A new candidate. -/
def restart (progress : Progress) (offset : Nat) : Progress :=
  { progress with
    keywordStart := offset, afterDot := false, named := false, depth := 0, openLambdas := 0,
    bodyOpen := none }

/-- Counts a bracket. -/
def track (progress : Progress) (token : Token) : Progress :=
  if token.kind.opens then { progress with depth := progress.depth + 1 }
  else if token.kind.closes then { progress with depth := progress.depth - 1 }
  else progress

end Progress

/-- Goes on in a state with nothing completed. -/
def goOn (state : State) (progress : Progress) : Option Region × Scan := (none, ⟨state, progress⟩)

/-- Drops the candidate. -/
def drop : Rule := fun scan _ => goOn .outside scan.aux

/-- Outside, the keyword starts a candidate. -/
def onNameOutside : Rule := fun scan token =>
  if token.text = scan.aux.keyword then
    goOn .seenKeyword (scan.aux.restart token.span.startByte)
  else goOn scan.state scan.aux

/-- After the keyword, a name must follow a dot; the keyword itself starts anew. -/
def onNameAfterKeyword : Rule := fun scan token =>
  if scan.aux.afterDot then goOn scan.state { scan.aux with afterDot := false, named := true }
  else if token.text = scan.aux.keyword then
    goOn scan.state (scan.aux.restart token.span.startByte)
  else drop scan token

/-- After the keyword, one dot may follow. -/
def onDotAfterKeyword : Rule := fun scan token =>
  if scan.aux.afterDot || scan.aux.named then drop scan token
  else goOn scan.state { scan.aux with afterDot := true }

/-- The opening parenthesis of the call. -/
def onCallOpen : Rule := fun scan token =>
  if scan.aux.afterDot then drop scan token
  else goOn .inParameters { scan.aux with openParen := token.span.startByte, depth := 1 }

/-- A lambda in the header counts when it stands in no inner brackets. -/
def onLambda : Rule := fun scan _ =>
  if scan.aux.depth = 1 then
    goOn scan.state { scan.aux with openLambdas := scan.aux.openLambdas + 1 }
  else goOn scan.state scan.aux

/-- A colon in no inner brackets closes the header of the innermost open lambda. -/
def onHeaderColon : Rule := fun scan token =>
  if scan.aux.depth ≠ 1 then goOn scan.state scan.aux
  else if scan.aux.openLambdas = 0 then drop scan token
  else
    let progress := { scan.aux with openLambdas := scan.aux.openLambdas - 1 }
    goOn (if progress.openLambdas = 0 then .inBody else scan.state) progress

/-- Any other token of the header. The call's argument must start with a lambda. -/
def onParameterToken : Rule := fun scan token =>
  if scan.aux.depth = 1 ∧ scan.aux.openLambdas = 0 then drop scan token
  else
    let progress := scan.aux.track token
    if progress.depth = 0 then drop ⟨scan.state, progress⟩ token else goOn scan.state progress

/-- A token of the body, which must start with a bracket. The candidate is complete when the call's
parenthesis closes. -/
def onBodyToken : Rule := fun scan token =>
  let offset := token.span.startByte
  let starts := scan.aux.depth = 1 ∧ scan.aux.bodyOpen = none
  if starts ∧ token.kind ≠ .openBracket then drop scan token
  else
    let opened := if starts then { scan.aux with bodyOpen := some offset } else scan.aux
    let progress := opened.track token
    if 0 < progress.depth then goOn scan.state progress
    else
      let region :=
        match token.kind, progress.bodyOpen with
        | .closeParen, some bodyOpen =>
          some ⟨progress.keywordStart, progress.openParen, bodyOpen, offset⟩
        | _, _ => none
      (region, ⟨.outside, progress⟩)

/-- The rules of the pass with their keys. -/
def ruleList : List (Dispatch.Key State × Rule) :=
  [({ kind := some .name, state := some .outside }, onNameOutside),
   ({ kind := some .name, state := some .seenKeyword }, onNameAfterKeyword),
   ({ kind := some .dot, state := some .seenKeyword }, onDotAfterKeyword),
   ({ kind := some .openParen, state := some .seenKeyword }, onCallOpen),
   ({ state := some .seenKeyword }, drop),
   ({ kind := some .name, text := some "lambda".toList, state := some .inParameters }, onLambda),
   ({ kind := some .colon, state := some .inParameters }, onHeaderColon),
   ({ state := some .inParameters }, onParameterToken),
   ({ state := some .inBody }, onBodyToken)]

/-- The table of the rules. -/
def table : Except Dispatch.Fault (Dispatch.Table State Progress (Option Region)) :=
  ruleList.foldlM (fun table rule => table.register rule.1 rule.2) Dispatch.Table.empty

/-- The candidates for a keyword in a stream of tokens, in source order. -/
def scan (tokens : List Token) (keyword : Text) : Except Failure (List Region) :=
  match table with
  | .error fault => .error (.dispatch fault)
  | .ok table =>
    .ok ((table.dispatchAll ⟨.outside, { keyword := keyword }⟩ tokens).1.filterMap id)

end Region

end LambdaLayout
