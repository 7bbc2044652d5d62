import LambdaLayout.Python.Parser

/-!
Assignment targets. A target is read as an expression first; what turns out to stand left of an
assignment or of `in` is then renamed, brackets and starred parts included.
-/

namespace LambdaLayout.Python

mutual

/-- The expression as a target, if it can be one. -/
def Tree.asTarget? : Tree → Option Tree
  | .node label children =>
    let renamed := fun kind => (targetsOf? children).map (Tree.node { label with kind := kind })
    match label.kind with
    | "identifier" => some (.node label children)
    | "subscript" => some (.node label children)
    | "attribute" => some (.node label children)
    | "list_splat" =>
      if children.any fun child => ["identifier", "subscript", "attribute"].contains child.kind
      then some (.node { label with kind := "list_splat_pattern" } children)
      else none
    | "tuple" => renamed "tuple_pattern"
    | "parenthesized_expression" => renamed "tuple_pattern"
    | "list" => renamed "list_pattern"
    | _ => none

/-- The parts of a bracketed target. Punctuation, comments and line continuations stay as they
are. -/
def targetsOf? : List Tree → Option (List Tree)
  | [] => some []
  | child :: rest => do
    let head ← if child.label.named && !child.isExtra then child.asTarget? else some child
    return head :: (← targetsOf? rest)

end

/-- The pieces with every expression among them as a target. -/
def Pieces.asTargets? : Pieces → Option Pieces
  | [] => some []
  | .mark span :: rest => (Pieces.asTargets? rest).map (.mark span :: ·)
  | .tree tree :: rest => do
    let head ← if tree.label.named && !tree.isExtra then tree.asTarget? else some tree
    return .tree head :: (← Pieces.asTargets? rest)

end LambdaLayout.Python
