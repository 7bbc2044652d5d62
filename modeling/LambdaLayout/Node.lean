import LambdaLayout.Source.Position
import LambdaLayout.Text.Basic

/-!
The syntax tree that searches and layout work on. It tells apart the constructs that extended
lambdas are made of and keeps every other construct with its parts, so that a search reaches calls
nested in arbitrary expressions.
-/

namespace LambdaLayout

/-- A construct with the text it covers. -/
inductive Node where
  /-- A whole source: its statements and comments. -/
  | module (span : Span) (statements : List Node)
  /-- A call. Comments among the arguments are kept with them. -/
  | call (span : Span) (function : Node) (arguments : List Node)
  /-- An access to an attribute. -/
  | access (span : Span) (object : Node) (label : Text) (labelSpan : Span)
  /-- A name. -/
  | name (span : Span) (id : Text)
  /-- A lambda. The comments are those inside it and outside its body. -/
  | lambda (span : Span) (parameters : Option Span) (body : Node) (comments : List Node)
  /-- A list. Comments among the elements are kept with them. -/
  | list (span : Span) (elements : List Node)
  /-- A subscript. Comments among the items are kept with them. -/
  | subscript (span : Span) (value : Node) (items : List Node)
  /-- A comment with its text. -/
  | comment (span : Span) (text : Text)
  /-- Any other construct. -/
  | other (span : Span) (kind : String) (children : List Node)
  deriving Inhabited

namespace Node

/-- The text covered by the node. -/
def span : Node → Span
  | module span _ => span
  | call span _ _ => span
  | access span _ _ _ => span
  | name span _ => span
  | lambda span _ _ _ => span
  | list span _ => span
  | subscript span _ _ => span
  | comment span _ => span
  | other span _ _ => span

/-- Says that the node is a comment. -/
def isComment : Node → Bool
  | comment _ _ => true
  | _ => false

/-- The parts of a node in source order. The comments in the head of a lambda are not parts. -/
def children : Node → List Node
  | module _ statements => statements
  | call _ function arguments => function :: arguments
  | access _ object _ _ => [object]
  | name _ _ => []
  | lambda _ _ body _ => [body]
  | list _ elements => elements
  | subscript _ value items => value :: items
  | comment _ _ => []
  | other _ _ children => children

/-- The dotted form of a name or of accesses that start at a name. -/
def path? : Node → Option Text
  | name _ id => some id
  | access _ object label _ => (path? object).map fun path => path ++ '.' :: label
  | _ => none

mutual

/-- The node and everything below it, each node before its parts. -/
def preorder : Node → List Node
  | module span statements => module span statements :: preorderOf statements
  | call span function arguments =>
    call span function arguments :: (preorder function ++ preorderOf arguments)
  | access span object label labelSpan =>
    access span object label labelSpan :: preorder object
  | name span id => [name span id]
  | lambda span parameters body comments => lambda span parameters body comments :: preorder body
  | list span elements => list span elements :: preorderOf elements
  | subscript span value items =>
    subscript span value items :: (preorder value ++ preorderOf items)
  | comment span text => [comment span text]
  | other span kind children => other span kind children :: preorderOf children

/-- Several nodes with everything below them. -/
def preorderOf : List Node → List Node
  | [] => []
  | node :: rest => preorder node ++ preorderOf rest

end

end Node

end LambdaLayout
