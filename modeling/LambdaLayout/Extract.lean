import LambdaLayout.Lower
import LambdaLayout.Pattern
import LambdaLayout.Python.Parse
import LambdaLayout.Text.Dedent

/-!
The call that defines an extended lambda, taken from the source of the statement it stands in. There
must be exactly one call of the keyword under the name asked for.
-/

namespace LambdaLayout.Extract

/-- The words for the first place where a source does not follow the grammar. -/
def complaintText (complaint : Python.Complaint) : Text :=
  "line ".toList ++ Text.ofNat complaint.place.1 ++ ", column ".toList ++
    Text.ofNat complaint.place.2 ++ ": ".toList ++ complaint.message.toList

/-- The statements of a source, comments included. -/
def statementsOf : Node → Option (List Node)
  | .module _ statements => some statements
  | _ => none

/-- The only node of the shape in a statement. -/
def onlyMatch (pattern : Pattern) (identifier : Text) (statement : Node) : Except Failure Node :=
  match pattern.findIn statement with
  | [] => .error .notFound
  | [single] => .ok single
  | _ => .error (.ambiguous identifier)

/-- The call of the keyword, under the name if one is given, in the first statement of a source. -/
def call (source keyword identifier : Text) (parse : Text → Python.Parsed := Python.parse) :
    Except Failure Node := do
  let pattern ← Pattern.singleCall keyword identifier
  let parsed := parse (Text.dedent source)
  match parsed.errors.head? with
  | some complaint => throw (.unparsable (complaintText complaint))
  | none =>
    match (statementsOf (Node.lower parsed)).bind fun statements =>
        statements.find? fun node => !node.isComment with
    | none => throw .notFound
    | some statement => onlyMatch pattern identifier statement

end LambdaLayout.Extract
