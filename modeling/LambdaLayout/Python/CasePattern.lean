import LambdaLayout.Python.Expression

/-!
The patterns of match statements.
-/

namespace LambdaLayout.Python

open LambdaLayout.Python.Parser

/-- Reads a name with dots. -/
def dottedName (after : After) : Parser Pieces := do
  let first ← identifier
  let all ← extend first fun pieces => do
    if ← atSign after.expect "." then
      let dot ← sign "."
      return some (pieces ++ dot ++ (← identifier))
    else return none
  return Pieces.node "dotted_name" all

/-- Reads the bracketed patterns of a list, tuple or class pattern. -/
def patternsIn (grammar : Grammar) (opening closing : String) : Parser Pieces := do
  let opened ← sign opening
  if ← atSign { close := true, string := true } closing then return opened ++ (← sign closing)
  let part := grammar (.casePattern { close := true })
  let first ← part
  restOfList closing part (opened ++ first)

/-- Reads the name after a star. -/
def splatPattern (star : String) : Parser Pieces := do
  let mark ← sign star
  if ← atWord { } "_" then return Pieces.node "splat_pattern" (mark ++ (← leaf "_" false))
  return Pieces.node "splat_pattern" (mark ++ (← identifier))

/-- Reads an entry of a dictionary pattern. -/
def patternEntry (grammar : Grammar) : Parser Pieces := do
  match ← peekLexeme { string := true } with
  | .sign "**" => splatPattern "**"
  | .sign "*" => splatPattern "*"
  | _ =>
    let key ← grammar (.simplePattern { })
    let colon ← sign ":"
    return key ++ colon ++ (← grammar (.casePattern { close := true }))

/-- Reads a dictionary pattern. -/
def dictionaryPattern (grammar : Grammar) : Parser Pieces := do
  let opened ← sign "\x7b"
  if ← atSign { close := true, string := true } "\x7d" then
    return Pieces.node "dict_pattern" (opened ++ (← sign "\x7d"))
  let part := patternEntry grammar
  let first ← part
  return Pieces.node "dict_pattern" (← restOfList "\x7d" part (opened ++ first))

/-- Reads a numeral. -/
def numeral : Parser Pieces := do
  match ← peekLexeme { } with
  | .integer => leaf "integer" true
  | .float => leaf "float" true
  | _ => failure

/-- Reads a number, possibly with a sign or an imaginary part. -/
def numberPattern (after : After) : Parser Pieces := do
  let minus ← if ← atSign { } "-" then sign "-" else pure []
  let whole ← numeral
  match ← anySign? after.expect ["+", "-"] with
  | some mark => return Pieces.node "complex_pattern" (minus ++ whole ++ mark ++ (← numeral))
  | none => return minus ++ whole

/-- Reads a pattern without alternatives. -/
def plainPattern (grammar : Grammar) (after : After) : Parser Pieces := do
  match ← peekLexeme { string := true } with
  | .opening _ => stringLiteral grammar after
  | .integer | .float | .sign "-" => numberPattern after
  | .word "True" => leaf "true" true
  | .word "False" => leaf "false" true
  | .word "None" => leaf "none" true
  | .word "_" => leaf "_" false
  | .word _ =>
    let name ← dottedName after
    if ← atSign after.expect "(" then
      return Pieces.node "class_pattern" (name ++ (← patternsIn grammar "(" ")"))
    return name
  | .sign "[" => return Pieces.node "list_pattern" (← patternsIn grammar "[" "]")
  | .sign "(" => return Pieces.node "tuple_pattern" (← patternsIn grammar "(" ")")
  | .sign "\x7b" => dictionaryPattern grammar
  | .sign "*" => splatPattern "*"
  | .sign "**" => splatPattern "**"
  | _ => failure

/-- Reads a pattern, possibly with alternatives. -/
def simplePattern (grammar : Grammar) (after : After) : Parser Pieces := do
  let first ← plainPattern grammar after
  let (pieces, several) ← extend (first, false) fun (pieces, _) => do
    if ← atSign after.expect "|" then
      let bar ← sign "|"
      return some (pieces ++ bar ++ (← plainPattern grammar after), true)
    else return none
  return if several then Pieces.node "union_pattern" pieces else pieces

/-- Reads a pattern with the names given to its whole. -/
def casePattern (grammar : Grammar) (after : After) : Parser Pieces := do
  let withKeyword : Parser Pieces := do
    let name ← identifier
    let equals ← sign "="
    return Pieces.node "keyword_pattern" (name ++ equals ++ (← grammar (.simplePattern after)))
  let first ← withKeyword <|> grammar (.simplePattern after)
  extend (Pieces.node "case_pattern" first) fun pattern => do
    if ← atWord after.expect "as" then
      let word ← keyword "as"
      return some (Pieces.node "case_pattern"
        (Pieces.node "as_pattern" (pattern ++ word ++ (← identifier))))
    else return none

end LambdaLayout.Python
