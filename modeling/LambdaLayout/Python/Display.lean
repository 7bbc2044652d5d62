import LambdaLayout.Python.Interpolation

/-!
Bracketed expressions: lists, tuples, sets and dictionaries, the comprehensions over them, and
expressions in parentheses.
-/

namespace LambdaLayout.Python

open LambdaLayout.Python.Parser

/-- Reads the target of a loop: a name, an access, a subscript or brackets of such. -/
def loopTarget (grammar : Grammar) : Parser Pieces := do
  let target : Parser Pieces := do
    let read ← grammar (.operand { })
    match Pieces.asTargets? read with
    | some pieces => return pieces
    | none => failure
  let first ← target
  let (pieces, isList) ← extend (first, false) fun (pieces, _) => do
    if ← atSign { } "," then
      let comma ← sign ","
      if (← peekLexeme { string := true }).startsPrimary then
        return some (pieces ++ comma ++ (← target), true)
      noComma
      return some (pieces ++ comma, true)
    else return none
  return if isList then Pieces.node "pattern_list" pieces else pieces

/-- Reads one `for` clause of a comprehension. -/
def forClause (grammar : Grammar) : Parser Pieces := do
  let async ← if ← atWord { } "async" then keyword "async" else pure []
  let word ← keyword "for"
  let target ← loopTarget grammar
  let inside ← keyword "in"
  let first ← grammar (.iterable { close := true })
  let all ← extend first fun pieces => do
    if ← atSign { close := true } "," then
      let comma ← sign ","
      if (← peekLexeme { close := true, string := true }).startsExpression then
        return some (pieces ++ comma ++ (← grammar (.iterable { close := true })))
      noComma
      return some (pieces ++ comma)
    else return none
  return Pieces.node "for_in_clause" (async ++ word ++ target ++ inside ++ all)

/-- Reads the clauses of a comprehension. -/
def clauses (grammar : Grammar) : Parser Pieces := do
  let first ← forClause grammar
  extend first fun pieces => do
    match ← peekLexeme { close := true } with
    | .word "for" | .word "async" => return some (pieces ++ (← forClause grammar))
    | .word "if" =>
      let word ← keyword "if"
      let condition ← grammar (.expression 2 { close := true })
      return some (pieces ++ Pieces.node "if_clause" (word ++ condition))
    | _ => return none

/-- Reads a list or a list comprehension. -/
def listDisplay (grammar : Grammar) : Parser Pieces := do
  let opened ← sign "["
  if ← atSign { close := true, string := true } "]" then
    return Pieces.node "list" (opened ++ (← sign "]"))
  let first ← element grammar
  if ← atClauses then
    let body := opened ++ Pieces.role "body" first
    let rest ← clauses grammar
    return Pieces.node "list_comprehension" (body ++ rest ++ (← sign "]"))
  return Pieces.node "list" (← restOfList "]" (element grammar) (opened ++ first))

/-- Reads a parenthesised expression, a tuple or a generator. -/
def parenthesised (grammar : Grammar) : Parser Pieces := do
  let opened ← sign "("
  if ← atSign { close := true, string := true } ")" then
    return Pieces.node "tuple" (opened ++ (← sign ")"))
  let first ← element grammar
  if ← atClauses then
    let body := opened ++ Pieces.role "body" first
    let rest ← clauses grammar
    return Pieces.node "generator_expression" (body ++ rest ++ (← sign ")"))
  if ← atSign { close := true } ")" then
    return Pieces.node "parenthesized_expression" (opened ++ first ++ (← sign ")"))
  return Pieces.node "tuple" (← restOfList ")" (element grammar) (opened ++ first))

/-- Reads the value of a dictionary pair whose key was read. -/
def pairAfter (grammar : Grammar) (key : Pieces) : Parser Pieces := do
  let colon ← sign ":"
  return Pieces.node "pair" (key ++ colon ++ (← grammar (.expression 1 { close := true })))

/-- Reads an entry of a dictionary after the first one. -/
def entry (grammar : Grammar) : Parser Pieces := do
  if ← atSign { string := true } "**" then splat grammar "**" "dictionary_splat"
  else pairAfter grammar (← grammar (.expression 1 { }))

/-- Reads a dictionary, a set, or a comprehension of either. -/
def braceDisplay (grammar : Grammar) : Parser Pieces := do
  let opened ← sign "\x7b"
  let closing := "\x7d"
  match ← peekLexeme { close := true, string := true } with
  | .sign "\x7d" => return Pieces.node "dictionary" (opened ++ (← sign closing))
  | .sign "," =>
    let comma ← sign ","
    return Pieces.node "dictionary" (opened ++ comma ++ (← sign closing))
  | .sign "**" =>
    let first ← splat grammar "**" "dictionary_splat"
    return Pieces.node "dictionary" (← restOfList closing (entry grammar) (opened ++ first))
  | _ =>
    let first ← element grammar
    if ← atSign { close := true } ":" then
      let pair ← pairAfter grammar first
      if ← atClauses then
        let rest ← clauses grammar
        return Pieces.node "dictionary_comprehension"
          (opened ++ Pieces.role "body" pair ++ rest ++ (← sign closing))
      return Pieces.node "dictionary" (← restOfList closing (entry grammar) (opened ++ pair))
    if ← atClauses then
      let rest ← clauses grammar
      return Pieces.node "set_comprehension"
        (opened ++ Pieces.role "body" first ++ rest ++ (← sign closing))
    return Pieces.node "set" (← restOfList closing (element grammar) (opened ++ first))

end LambdaLayout.Python
