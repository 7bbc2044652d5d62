import LambdaLayout.Failure
import LambdaLayout.Node

/-!
Shapes of nodes, of which parts may be left open, and their text form: a path of names with dots
between them, in which a question mark stands for anything, alone or followed by an argument list in
parentheses. Between these `??` stands for any arguments.
-/

namespace LambdaLayout

/-- The shape of a node. -/
inductive Pattern where
  /-- Any node. -/
  | any
  /-- The name. -/
  | name (id : Text)
  /-- An access, to any attribute if none is given. -/
  | access (object : Pattern) (label : Option Text)
  /-- A call with any arguments. -/
  | call (function : Pattern)
  /-- A call with as many arguments as given, each of its shape. Comments do not count. -/
  | callWith (function : Pattern) (arguments : List Pattern)
  /-- A lambda. -/
  | lambda (body : Pattern)
  /-- A list. -/
  | list
  deriving Inhabited

namespace Pattern

mutual

/-- Says that a node has the shape. -/
def fits : Pattern → Node → Bool
  | any, _ => true
  | name id, .name _ found => id == found
  | access object label, .access _ node found _ =>
    fits object node && label.all fun label => label == found
  | call function, .call _ node _ => fits function node
  | callWith function arguments, .call _ node nodes =>
    fits function node && fitsAll arguments (nodes.filter fun node => !node.isComment)
  | lambda body, .lambda _ _ node _ => fits body node
  | list, .list _ _ => true
  | _, _ => false

/-- Says that there are as many nodes as shapes, and that each has its shape. -/
def fitsAll : List Pattern → List Node → Bool
  | [], [] => true
  | pattern :: patterns, node :: nodes => fits pattern node && fitsAll patterns nodes
  | _, _ => false

end

/-- Why the text of a pattern is refused. -/
inductive Flaw where
  /-- The argument list is not closed. -/
  | unclosed
  /-- A path starts with something other than a name or a question mark. -/
  | head (segment : Text)
  /-- A dot is followed by something other than a name or a question mark. -/
  | label (segment : Text)

/-- The words of the flaw. -/
def Flaw.message : Flaw → Text
  | .unclosed => "unclosed argument list".toList
  | .head segment => "invalid name segment '".toList ++ segment ++ "'".toList
  | .label segment => "invalid attribute segment '".toList ++ segment ++ "'".toList

/-- The first segment of a path. -/
def headSegment (segment : Text) : Except Flaw Pattern :=
  if segment = ['?'] then .ok .any
  else if Text.isName segment then .ok (.name segment)
  else .error (.head segment)

/-- The accesses of a path to what was read before. -/
def labelSegments (object : Pattern) : List Text → Except Flaw Pattern
  | [] => .ok object
  | segment :: rest =>
    if segment = ['?'] then labelSegments (.access object none) rest
    else if Text.isName segment then labelSegments (.access object (some segment)) rest
    else .error (.label segment)

/-- Reads a path. -/
def readPath (text : Text) : Except Flaw Pattern :=
  match List.splitOn '.' text with
  | [] => .error (.head [])
  | segment :: rest => do
    let object ← headSegment segment
    labelSegments object rest

/-- Reads the arguments between the parentheses. Nothing stands for any arguments. -/
def readArguments (text : Text) : Except Flaw (Option (List Pattern)) :=
  let inner := Text.trim text
  if inner = ['?', '?'] then .ok none
  else if inner = [] then .ok (some [])
  else do
    let arguments ← (List.splitOn ',' inner).mapM fun argument => readPath (Text.trim argument)
    return some arguments

/-- Reads a pattern. -/
def read (text : Text) : Except Flaw Pattern :=
  let trimmed := Text.trim text
  match Text.splitOnce '(' trimmed with
  | none => readPath trimmed
  | some (function, rest) =>
    match List.isSuffixOf? [')'] rest with
    | none => .error .unclosed
    | some inner => do
      let arguments ← readArguments inner
      let function ← readPath (Text.trim function)
      match arguments with
      | none => return .call function
      | some arguments => return .callWith function arguments

/-- The pattern written so. A refusal names the text as it was given. -/
def ofText (text : Text) : Except Failure Pattern :=
  match read text with
  | .ok pattern => .ok pattern
  | .error flaw => .error (.badPattern text flaw.message)

/-- The text of a call of the keyword, or of a name under it, with one argument. -/
def singleCallText (keyword identifier : Text) : Text :=
  if identifier = [] then keyword ++ "(?)".toList
  else keyword ++ '.' :: identifier ++ "(?)".toList

/-- A call of the keyword, or of a name under it, with one argument. -/
def singleCall (keyword identifier : Text) : Except Failure Pattern :=
  ofText (singleCallText keyword identifier)

/-- The nodes of the shape, from a root on downwards, each before its parts. -/
def findIn (pattern : Pattern) (root : Node) : List Node := root.preorder.filter pattern.fits

end Pattern

end LambdaLayout
