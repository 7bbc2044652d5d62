import LambdaLayout.Python.Operand

/-!
Type annotations, the parameters of functions and lambdas, and lambdas. A name directly followed by
brackets is a generic type inside an annotation, and not a subscript.
-/

namespace LambdaLayout.Python

open LambdaLayout.Python.Parser

/-- Reads the bracketed parameters of a generic type, function or class. -/
def typeParameters (grammar : Grammar) : Parser Pieces := do
  let opened ← sign "["
  let part := grammar (.typeHint { close := true } true)
  let first ← part
  return Pieces.node "type_parameter" (← restOfList "]" part (opened ++ first))

/-- Reads a starred name as a type. A name with brackets after it is not one. -/
def splatType (star : String) (after : After) : Parser Pieces := do
  let mark ← sign star
  let name ← identifier
  if ← atSign after.expect "[" then failure
  return Pieces.node "splat_type" (mark ++ name)

/-- Reads a name with type parameters. -/
def genericType (grammar : Grammar) (after : After) : Parser Pieces := do
  let name ← identifier
  if ← atSign after.expect "[" then
    return Pieces.node "generic_type" (name ++ (← typeParameters grammar))
  else failure

/-- Reads a type annotation. -/
def typeHint (grammar : Grammar) (after : After) (constrained : Bool) : Parser Pieces := do
  let whole : Parser Pieces := do
    match ← peekLexeme { string := true } with
    | .sign "*" => splatType "*" after <|> grammar (.expression 1 after)
    | .sign "**" => splatType "**" after
    | .word _ => genericType grammar after <|> grammar (.expression 1 after)
    | _ => grammar (.expression 1 after)
  extend (Pieces.node "type" (← whole)) fun left => do
    match ← peekLexeme after.expect with
    | .sign "|" =>
      let mark ← sign "|"
      let right ← grammar (.typeHint after false)
      return some (Pieces.node "type" (Pieces.node "union_type" (left ++ mark ++ right)))
    | .sign "." =>
      let dot ← sign "."
      return some (Pieces.node "type" (Pieces.node "member_type" (left ++ dot ++ (← identifier))))
    | .sign ":" =>
      if constrained then
        let colon ← sign ":"
        let right ← grammar (.typeHint after true)
        return some (Pieces.node "type" (Pieces.node "constrained_type" (left ++ colon ++ right)))
      else return none
    | _ => return none

/-- Reads the default value of a parameter, if one follows. -/
def defaultValue (grammar : Grammar) (after : After) : Parser Pieces := do
  if ← atSign after.expect "=" then
    let equals ← sign "="
    return equals ++ (← grammar (.expression 1 after))
  else return []

/-- Reads a starred parameter. -/
def starredParameter (grammar : Grammar) (star kind : String) (typed : Bool) (after : After) :
    Parser Pieces := do
  let mark ← sign star
  let name ← grammar (.operand after)
  if !isStarred (Pieces.kind name) then failure
  let parameter := Pieces.node kind (mark ++ name)
  if typed && (← atSign after.expect ":") then
    let colon ← sign ":"
    let type ← grammar (.typeHint after true)
    return Pieces.node "typed_parameter" (parameter ++ colon ++ type)
  return parameter

/-- Reads one parameter. Only the parameters of a function may have types. -/
def parameter (grammar : Grammar) (typed : Bool) (after : After) : Parser Pieces := do
  match ← peekLexeme { } with
  | .sign "/" => leaf "positional_separator" true
  | .sign "**" => starredParameter grammar "**" "dictionary_splat_pattern" typed after
  | .sign "*" =>
    let separator : Parser Pieces := do
      let star ← leaf "keyword_separator" true
      match ← peekLexeme after.expect with
      | .sign text => if [",", ")", ":"].contains text then return star else failure
      | _ => failure
    separator <|> starredParameter grammar "*" "list_splat_pattern" typed after
  | .sign "(" =>
    let read ← parenthesised grammar
    match Pieces.asTargets? read with
    | none => failure
    | some pattern =>
      let value ← defaultValue grammar after
      return if value.isEmpty then pattern else Pieces.node "default_parameter" (pattern ++ value)
  | _ =>
    let name ← identifier
    if typed && (← atSign after.expect ":") then
      let colon ← sign ":"
      let type ← grammar (.typeHint after true)
      let value ← defaultValue grammar after
      let kind := if value.isEmpty then "typed_parameter" else "typed_default_parameter"
      return Pieces.node kind (name ++ colon ++ type ++ value)
    let value ← defaultValue grammar after
    return if value.isEmpty then name else Pieces.node "default_parameter" (name ++ value)

/-- Reads parameters up to the sign that ends them, which is not consumed. -/
def parameterList (grammar : Grammar) (typed : Bool) (after : After) (closing : String) :
    Parser Pieces := do
  let first ← parameter grammar typed after
  extend first fun pieces => do
    if ← atSign after.expect "," then
      let comma ← sign ","
      if ← atSign after.expect closing then return some (pieces ++ comma)
      else return some (pieces ++ comma ++ (← parameter grammar typed after))
    else return none

/-- Reads the parameters of a function. -/
def parameters (grammar : Grammar) : Parser Pieces := do
  let opened ← sign "("
  if ← atSign { close := true } ")" then
    return Pieces.node "parameters" (opened ++ (← sign ")"))
  let inner ← parameterList grammar true { close := true } ")"
  return Pieces.node "parameters" (opened ++ inner ++ (← sign ")"))

/-- Reads a lambda, the body of which is read by the given rule. -/
def lambda (grammar : Grammar) (body : Rule) : Parser Pieces := do
  let word ← keyword "lambda"
  let given ← if ← atSign { } ":" then pure []
    else pure (Pieces.role "parameters"
      (Pieces.node "lambda_parameters" (← parameterList grammar false { } ":")))
  let colon ← sign ":"
  let value ← grammar body
  return Pieces.node "lambda" (word ++ given ++ colon ++ Pieces.role "body" value)

end LambdaLayout.Python
