import LambdaLayout.Node
import LambdaLayout.Python.Tree

/-!
From the concrete tree of a source to the tree of nodes. Only named parts are kept. Calls, accesses,
lambdas and subscripts pick their parts by the roles they play; one that lacks a needed part is kept
as any other construct.
-/

namespace LambdaLayout.Node

open LambdaLayout.Python (Parsed)

/-- Says that a part of the concrete tree is kept. -/
def isKept (tree : Python.Tree) : Bool := tree.label.named && tree.kind != "line_continuation"

mutual

/-- The comments of a concrete tree. -/
def commentsIn (source : Parsed) : Python.Tree → List Node
  | .node label children =>
    if label.kind == "comment" then [.comment label.span (source.textOf label.span)]
    else commentsOf source children

/-- The comments of several concrete trees. -/
def commentsOf (source : Parsed) : List Python.Tree → List Node
  | [] => []
  | tree :: rest => commentsIn source tree ++ commentsOf source rest

end

/-- The trees without the first one in the given role. -/
def withoutRole (role : String) : List Python.Tree → List Python.Tree
  | [] => []
  | tree :: rest => if tree.label.role == some role then rest else tree :: withoutRole role rest

mutual

/-- The node of a concrete tree. -/
def ofTree (source : Parsed) : Python.Tree → Node
  | .node label children =>
    let fallback := fun (_ : Unit) => Node.other label.span label.kind (ofKept source children)
    match label.kind with
    | "module" => .module label.span (ofKept source children)
    | "call" =>
      match ofRole source "function" children with
      | some function => .call label.span function (argumentsOf source children)
      | none => fallback ()
    | "attribute" =>
      let name := children.find? fun child => child.label.role == some "attribute"
      match ofRole source "object" children, name with
      | some object, some name => .access label.span object (source.textOf name.span) name.span
      | _, _ => fallback ()
    | "identifier" => .name label.span (source.textOf label.span)
    | "lambda" =>
      match ofRole source "body" children with
      | some body =>
        let parameters := children.find? fun child => child.label.role == some "parameters"
        .lambda label.span (parameters.map Python.Tree.span) body
          (commentsOf source (withoutRole "body" children))
      | none => fallback ()
    | "list" => .list label.span (ofKept source children)
    | "subscript" =>
      match ofRole source "value" children with
      | some value => .subscript label.span value (ofOthers source "value" children)
      | none => fallback ()
    | "comment" => .comment label.span (source.textOf label.span)
    | "string" => .other label.span label.kind []
    | _ => fallback ()

/-- The nodes of the parts that are kept. -/
def ofKept (source : Parsed) : List Python.Tree → List Node
  | [] => []
  | tree :: rest =>
    if isKept tree then ofTree source tree :: ofKept source rest else ofKept source rest

/-- The node of the first part in the given role. -/
def ofRole (source : Parsed) (role : String) : List Python.Tree → Option Node
  | [] => none
  | tree :: rest =>
    if tree.label.role == some role then some (ofTree source tree) else ofRole source role rest

/-- The nodes of the parts that are kept, without the first part in the given role. -/
def ofOthers (source : Parsed) (role : String) : List Python.Tree → List Node
  | [] => []
  | tree :: rest =>
    if tree.label.role == some role then ofKept source rest
    else if isKept tree then ofTree source tree :: ofOthers source role rest
    else ofOthers source role rest

/-- The arguments of a call: the parts of its argument list, or its only argument. -/
def argumentsOf (source : Parsed) : List Python.Tree → List Node
  | [] => []
  | tree :: rest =>
    if tree.label.role == some "arguments" then
      match tree with
      | .node label children =>
        if label.kind == "argument_list" then ofKept source children
        else [ofTree source (.node label children)]
    else argumentsOf source rest

end

/-- The syntax tree of a parsed source. -/
def lower (parsed : Parsed) : Node := ofTree parsed parsed.tree

end LambdaLayout.Node
