import LambdaLayout.Source.Position
import LambdaLayout.Text.Basic

/-!
The concrete tree of a Python source. Every token of the source is a leaf, punctuation included;
a node says what construct it is, whether the grammar names it, which role it plays in its parent,
and whether it stands for a place where the source was repaired. Nothing ties a tree to a source:
that its leaves are in order and inside the source is a property of the trees the parser builds.
-/

namespace LambdaLayout.Python

open LambdaLayout (Position Span Text)

/-- How a node relates to the text it covers. -/
inductive Standing where
  /-- The text forms the construct. -/
  | sound
  /-- The text could not be read. -/
  | unreadable
  /-- The text lacks a token, which the reader assumed. -/
  | missing
  deriving DecidableEq, Inhabited

/-- What is known of a node apart from its children. -/
structure Label where
  /-- The construct. An unnamed token has its own text as kind. -/
  kind : String
  /-- Unnamed nodes are the keywords and punctuation of the grammar. -/
  named : Bool
  /-- The part the node plays in its parent, when the grammar gives it one. -/
  role : Option String := none
  /-- Whether the node stands for text that was read as it is. -/
  standing : Standing := .sound
  /-- The text covered. -/
  span : Span
  deriving DecidableEq, Inhabited

/-- A node with its children in source order. -/
inductive Tree where
  | node (label : Label) (children : List Tree)
  deriving Inhabited

namespace Tree

/-- The label of the topmost node. -/
def label : Tree → Label
  | node label _ => label

/-- The nodes directly below. -/
def children : Tree → List Tree
  | node _ children => children

/-- The construct of the topmost node. -/
def kind (tree : Tree) : String := tree.label.kind

/-- The text covered by the topmost node. -/
def span (tree : Tree) : Span := tree.label.span

/-- Says that the topmost node is a comment. -/
def isComment (tree : Tree) : Bool := tree.kind == "comment"

/-- Says that the topmost node may stand between any two tokens: a comment or a line
continuation. -/
def isExtra (tree : Tree) : Bool := tree.isComment || tree.kind == "line_continuation"

/-- The children that the grammar names. -/
def namedChildren (tree : Tree) : List Tree := tree.children.filter fun child => child.label.named

/-- The first child that plays the given role. -/
def child? (role : String) (tree : Tree) : Option Tree :=
  tree.children.find? fun child => child.label.role == some role

/-- The same node in the given role. -/
def withRole (role : String) : Tree → Tree
  | node label children => node { label with role := some role } children

/-- A tree of one node. -/
def leaf (kind : String) (named : Bool) (span : Span) : Tree :=
  node { kind := kind, named := named, span := span } []

/-- Says that the node itself stands for a repair. -/
def isRepair (tree : Tree) : Bool := tree.label.standing != .sound

mutual

/-- Says that the node or one below it stands for a repair. -/
def hasError : Tree → Bool
  | node label children => label.standing != .sound || anyError children

/-- Says that one of the trees holds a repair. -/
def anyError : List Tree → Bool
  | [] => false
  | tree :: rest => hasError tree || anyError rest

end

mutual

/-- The repairs of the tree in source order. Subtrees without any are not entered. -/
def repairs : Tree → List Tree
  | node label children =>
    let below := if hasError (node label children) then repairsOf children else []
    if label.standing != .sound then node label children :: below else below

/-- The repairs of several trees, one after the other. -/
def repairsOf : List Tree → List Tree
  | [] => []
  | tree :: rest => repairs tree ++ repairsOf rest

end

end Tree

/-- A place where the source was repaired, as it is shown to a reader. -/
structure Complaint where
  /-- The text concerned. -/
  span : Span
  /-- The kind of the missing token, when one is missing. -/
  missing : Option String
  deriving DecidableEq

namespace Complaint

/-- The complaint about a repaired node. -/
def ofTree (tree : Tree) : Complaint where
  span := tree.span
  missing := if tree.label.standing == .missing then some tree.kind else none

/-- The line and column of the complaint, counted from one. -/
def place (complaint : Complaint) : Nat × Nat := complaint.span.start.oneBased

/-- The words of the complaint. -/
def message (complaint : Complaint) : String :=
  match complaint.missing with
  | some kind => "missing " ++ kind
  | none => "syntax error"

end Complaint

/-- A source together with its tree. The tree of a source that does not follow the grammar shows that
there are errors and what is complained of. It does not show which of the other nodes a parser that
recovers from errors would build, so beyond `hasErrors` and `errors` nothing can be read from it. -/
structure Parsed where
  /-- The text that was read. -/
  source : Text
  /-- The tree over it. -/
  tree : Tree
  deriving Inhabited

namespace Parsed

/-- Says that the source does not follow the grammar. -/
def hasErrors (parsed : Parsed) : Bool := parsed.tree.hasError

/-- The complaints about the source, in source order. -/
def errors (parsed : Parsed) : List Complaint := parsed.tree.repairs.map Complaint.ofTree

/-- The text of a span, or nothing when the span does not lie in the source. -/
def textOf (parsed : Parsed) (span : Span) : Text :=
  (Text.slice? parsed.source span.startByte span.endByte).getD []

end Parsed

end LambdaLayout.Python
