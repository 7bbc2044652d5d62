import LambdaLayout.Python.Display

/-!
Operands: names, literals and bracketed forms, with the accesses, subscripts and calls that follow
them.
-/

namespace LambdaLayout.Python

open LambdaLayout.Python.Parser

/-- Reads one argument of a call. -/
def argument (grammar : Grammar) : Parser Pieces := do
  match ← peekLexeme { string := true } with
  | .sign "*" => splat grammar "*" "list_splat"
  | .sign "**" => splat grammar "**" "dictionary_splat"
  | _ =>
    let value ← grammar (.expression 1 { close := true })
    if Pieces.kind value == "identifier" && (← atSign { close := true } "=") then
      let equals ← sign "="
      let given ← grammar (.expression 1 { close := true })
      return Pieces.node "keyword_argument" (value ++ equals ++ given)
    return value

/-- Reads the arguments of a call, or the generator that is its only argument. -/
def arguments (grammar : Grammar) : Parser Pieces := do
  let opened ← sign "("
  if ← atSign { close := true, string := true } ")" then
    return Pieces.node "argument_list" (opened ++ (← sign ")"))
  if ← atSign { } "," then
    let comma ← sign ","
    return Pieces.node "argument_list" (opened ++ comma ++ (← sign ")"))
  let first ← argument grammar
  if ← atClauses then
    let rest ← clauses grammar
    return Pieces.node "generator_expression"
      (opened ++ Pieces.role "body" first ++ rest ++ (← sign ")"))
  return Pieces.node "argument_list" (← restOfList ")" (argument grammar) (opened ++ first))

/-- Reads an expression or a slice between the brackets of a subscript. -/
def subscriptItem (grammar : Grammar) : Parser Pieces := do
  let after : After := { close := true }
  let bound : Parser Pieces := do
    if (← peekLexeme after.operand).startsExpression then grammar (.expression 1 after)
    else pure []
  let lower ← bound
  if ← atSign after.expect ":" then
    let colon ← sign ":"
    let upper ← bound
    let stride ← if ← atSign after.expect ":" then
        let second ← sign ":"
        pure (second ++ (← bound))
      else pure []
    return Pieces.node "slice" (lower ++ colon ++ upper ++ stride)
  if lower.isEmpty then failure else return lower

/-- Extends an operand by the accesses, subscripts and calls that follow it. -/
def extendOperand (grammar : Grammar) (after : After) (calls : Bool) (base : Pieces) :
    Parser Pieces :=
  extend base fun value => do
    match ← peekLexeme after.expect with
    | .sign "." =>
      let dot ← sign "."
      let name ← identifier
      return some (Pieces.node "attribute"
        (Pieces.role "object" value ++ dot ++ Pieces.role "attribute" name))
    | .sign "[" =>
      let opened ← sign "["
      let _ ← peek { string := true }
      let first ← subscriptItem grammar
      let before := Pieces.role "value" value ++ opened ++ first
      return some (Pieces.node "subscript" (← restOfList "]" (subscriptItem grammar) before))
    | .sign "(" =>
      if calls then
        let given ← arguments grammar
        return some (Pieces.node "call"
          (Pieces.role "function" value ++ Pieces.role "arguments" given))
      else return none
    | _ => return none

/-- Says that a star may stand before the construct wherever an operand may stand. -/
def isStarred (kind : String) : Bool := ["identifier", "subscript", "attribute"].contains kind

/-- Reads a name, a literal or a bracketed form. -/
def atom (grammar : Grammar) (after : After) : Parser Pieces := do
  match ← peekLexeme { string := true } with
  | .opening _ => stringLiteral grammar after
  | .integer => leaf "integer" true
  | .float => leaf "float" true
  | .word "True" => leaf "true" true
  | .word "False" => leaf "false" true
  | .word "None" => leaf "none" true
  | .word text => if isNameWord text then leaf "identifier" true else failure
  | .sign "..." => leaf "ellipsis" true
  | .sign "(" => parenthesised grammar
  | .sign "[" => listDisplay grammar
  | .sign "\x7b" => braceDisplay grammar
  | _ => failure

/-- Reads a starred operand. The star takes the accesses and subscripts that follow; calls it takes
only if one of these comes last. -/
def starred (grammar : Grammar) (after : After) : Parser Pieces := do
  let star ← sign "*"
  let read := fun calls => do
    let value ← extendOperand grammar after calls (← atom grammar after)
    if isStarred (Pieces.kind value) then return Pieces.node "list_splat" (star ++ value)
    else failure
  read true <|> read false

/-- Reads an operand with everything that follows it. -/
def operand (grammar : Grammar) (after : After) : Parser Pieces := do
  let base ← if ← atSign { string := true } "*" then starred grammar after else atom grammar after
  extendOperand grammar after true base

/-- Reads an awaited operand, or the name `await` where no operand follows. -/
def awaited (grammar : Grammar) (after : After) : Parser Pieces := do
  let awaiting : Parser Pieces := do
    let word ← keyword "await"
    if (← peekLexeme after.operand).startsPrimary then
      return Pieces.node "await" (word ++ (← grammar (.arithmetic 21 after)))
    else failure
  awaiting <|> operand grammar after

end LambdaLayout.Python
