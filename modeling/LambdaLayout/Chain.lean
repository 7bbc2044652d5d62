import LambdaLayout.Node
import LambdaLayout.Source.Extent
import LambdaLayout.Token

/-!
Chains of clauses. A compound statement inside an extended lambda is written as an expression, such
as `if_[c] [a].else_ [b]`: a keyword with its head, the body in brackets, and for each further
clause a dot and the next. In the syntax tree such a chain is a subscript whose value ends in the
last clause's head, and the clauses before it are found further down along that value. Some keywords
must have a head in brackets and some must have none; a chain that breaks this rule, or that has a
comment where none can stay, is not taken for a chain.
-/

namespace LambdaLayout

/-- One clause of a chain. -/
structure Clause where
  /-- The keyword and its head. -/
  head : Extent
  /-- The row in which the keyword starts. -/
  headRow : Nat
  /-- The items of the body, comments included. -/
  body : List Node
  /-- The row of the bracket that opens the body. -/
  openRow : Nat

namespace Chain

/-- The keywords that open a chain. -/
def starters : List Text := ["if_", "for_", "while_", "with_", "try_"].map String.toList

/-- The keywords that continue a chain. -/
def continuations : List Text := ["elif_", "else_", "except_", "finally_"].map String.toList

/-- The keywords that need a head. -/
def headed : List Text := ["if_", "elif_", "for_", "while_", "with_"].map String.toList

/-- The keywords that take no head. -/
def headless : List Text := ["else_", "try_", "finally_"].map String.toList

/-- Says that a keyword may stand with a head, or without one when it is bare. -/
def headAllowed (keyword : Text) (bare : Bool) : Bool :=
  if headed.contains keyword then !bare
  else if headless.contains keyword then bare
  else true

/-- Where the keyword of a clause stands. -/
structure Head where
  /-- The keyword. -/
  keyword : Text
  /-- Its first byte. -/
  start : Nat
  /-- Its row. -/
  row : Nat
  /-- Nothing follows the keyword before the body. -/
  bare : Bool
  /-- Where the clause before it ends, if there is one. -/
  previousEnd : Option Nat

/-- The first token from an offset on that is neither blank nor a comment, if it is an opening
bracket. -/
def openBracket? (tokens : List Token) (offset : Nat) : Option Token :=
  ((tokens.dropWhile fun token => token.span.startByte < offset).find? fun token =>
    !token.isInsignificant).filter fun token => token.kind == .openBracket

/-- Says that a comment lies in a range. -/
def hasCommentIn (tokens : List Token) (extent : Extent) : Bool :=
  tokens.any fun token => token.kind == .comment && extent.contains token.span.extent

/-- Says that a comment can be moved neither with the head of a clause nor with its body: it stands
before the body's bracket, or between a clause and the keyword that follows it. -/
def hasStuckComment (tokens : List Token) (head : Head) (items : List Node) (openByte : Nat) :
    Bool :=
  (items.any fun item => item.isComment && item.span.startByte < openByte) ||
    head.previousEnd.any fun stop => hasCommentIn tokens ⟨stop, head.start⟩

/-- The clause with the given head, when it is one. -/
def clause? (tokens : List Token) (head : Head) (value : Node) (items : List Node) :
    Option Clause := do
  let bracket ← openBracket? tokens value.span.endByte
  if !headAllowed head.keyword head.bare then none
  else if hasStuckComment tokens head items bracket.span.startByte then none
  else some ⟨⟨head.start, value.span.endByte⟩, head.row, items, bracket.span.start.row⟩

mutual

/-- The keyword at the end of a subscript's value, with the clauses before it. -/
def headOf (tokens : List Token) (bare : Bool) : Node → Option (Head × List Clause)
  | .name span id =>
    if starters.contains id then some (⟨id, span.startByte, span.start.row, bare, none⟩, [])
    else none
  | .access _ object label labelSpan =>
    if continuations.contains label then do
      let earlier ← ofNode? tokens object
      return (⟨label, labelSpan.startByte, labelSpan.start.row, bare, some object.span.endByte⟩,
        earlier)
    else headOf tokens false object
  | .subscript _ value _ => headOf tokens false value
  | .call _ function _ => headOf tokens false function
  | _ => none

/-- The clauses of a chain in source order, when the node is a chain. -/
def ofNode? (tokens : List Token) : Node → Option (List Clause)
  | .subscript _ value items => do
    let (head, earlier) ← headOf tokens true value
    let clause ← clause? tokens head value items
    return earlier ++ [clause]
  | _ => none

end

end Chain

end LambdaLayout
