import LambdaLayout.Python.CasePattern

/-!
Simple statements: those that fit on a line. Where a word can be read as a name or as the start of a
statement of its own, the reading as an expression is tried first, except for type aliases.
-/

namespace LambdaLayout.Python

open LambdaLayout.Python.Parser

/-- What follows a part that may end its statement. -/
def lineEnd : After := { newline := true }

/-- Fails unless the statement ends here. -/
def statementEnds : Parser Unit := do
  match ← peekLexeme lineEnd.expect with
  | .newline | .sign ";" => return ()
  | _ => failure

/-- The operators that combine with an assignment. -/
def augmentedSigns : List String :=
  ["+=", "-=", "*=", "/=", "@=", "//=", "%=", "**=", ">>=", "<<=", "&=", "^=", "|="]

/-- Reads the rest of an assignment to what was read, or nothing where none follows. -/
def assignment? (grammar : Grammar) (after : After) (left : Pieces) (isList : Bool) :
    Parser (Option Pieces) := do
  let target : Parser Pieces := do
    match Pieces.asTargets? left with
    | none => failure
    | some pieces => return if isList then Pieces.node "pattern_list" pieces else pieces
  match ← peekLexeme after.expect with
  | .sign "=" =>
    let pattern ← target
    let equals ← sign "="
    let value ← grammar (.assigned after)
    return some (Pieces.node "assignment" (pattern ++ equals ++ value))
  | .sign ":" =>
    let pattern ← target
    let colon ← sign ":"
    let type ← grammar (.typeHint after true)
    let value ← if ← atSign after.expect "=" then
        let equals ← sign "="
        pure (equals ++ (← grammar (.assigned after)))
      else pure []
    return some (Pieces.node "assignment" (pattern ++ colon ++ type ++ value))
  | _ =>
    match ← anySign? { } augmentedSigns with
    | none => return none
    | some mark =>
      let pattern ← target
      let value ← grammar (.assigned after)
      return some (Pieces.node "augmented_assignment" (pattern ++ mark ++ value))

/-- Reads what stands right of an assignment: expressions, a yield, or another assignment. -/
def assigned (grammar : Grammar) (after : After) : Parser Pieces := do
  if ← atWord { string := true } "yield" then yieldExpression grammar after
  else
    let (pieces, isList) ← expressionSequence grammar after
    match ← assignment? grammar after pieces isList with
    | some nested => return nested
    | none => return if isList then Pieces.node "expression_list" pieces else pieces

/-- Reads an expression statement or an assignment. -/
def expressionStatement (grammar : Grammar) : Parser Pieces := do
  if ← atWord { string := true } "yield" then
    return Pieces.node "expression_statement" (← yieldExpression grammar lineEnd)
  let (pieces, isList) ← expressionSequence grammar lineEnd
  match ← assignment? grammar lineEnd pieces isList with
  | some whole => return Pieces.node "expression_statement" whole
  | none => return Pieces.node "expression_statement" pieces

/-- Reads parts with commas between them. -/
def commaSeparated (after : After) (part : Parser Pieces) : Parser Pieces := do
  let first ← part
  extend first fun pieces => do
    if ← atSign after.expect "," then
      let comma ← sign ","
      return some (pieces ++ comma ++ (← part))
    else return none

/-- Reads an imported module or name, possibly under another name. -/
def imported (after : After) : Parser Pieces := do
  let name ← dottedName after
  if ← atWord after.expect "as" then
    let word ← keyword "as"
    return Pieces.node "aliased_import" (name ++ word ++ (← identifier))
  return name

/-- Reads the imported names. The last may be followed by a comma. -/
def importList (after : After) : Parser Pieces := do
  let first ← imported after
  extend first fun pieces => do
    if ← atSign after.expect "," then
      let comma ← sign ","
      match ← peekLexeme after.expect with
      | .word _ => return some (pieces ++ comma ++ (← imported after))
      | _ =>
        noComma
        return some (pieces ++ comma)
    else return none

/-- Reads the imported names, possibly in parentheses. -/
def importedNames : Parser Pieces := do
  if ← atSign { } "(" then
    let opened ← sign "("
    let names ← importList { close := true }
    return opened ++ names ++ (← sign ")")
  importList lineEnd

/-- Says that the next token starts with a dot. -/
def atDot : Parser Bool := do
  match ← peekLexeme { } with
  | .sign "." | .sign "..." => return true
  | _ => return false

/-- Reads the dots and the name of a module named relative to the one at hand. -/
def relativeImport : Parser Pieces := do
  let dots ← extend [] fun (pieces : Pieces) => do
    if ← atDot then return some (pieces ++ (← firstChar)) else return none
  let levels := Pieces.node "import_prefix" dots
  match ← peekLexeme { } with
  | .word "import" => return Pieces.node "relative_import" levels
  | _ => return Pieces.node "relative_import" (levels ++ (← dottedName { }))

/-- Reads an import from a module. -/
def importFrom : Parser Pieces := do
  let word ← keyword "from"
  if ← atWord { } "__future__" then
    let future ← leaf "__future__" false
    let importing ← keyword "import"
    return Pieces.node "future_import_statement" (word ++ future ++ importing ++ (← importedNames))
  let source ← if ← atDot then relativeImport else dottedName { }
  let importing ← keyword "import"
  if ← atSign { } "*" then
    let star ← leaf "wildcard_import" true
    return Pieces.node "import_from_statement" (word ++ source ++ importing ++ star)
  return Pieces.node "import_from_statement" (word ++ source ++ importing ++ (← importedNames))

/-- Reads a print statement with its arguments, or with the place to print to before them. -/
def printStatement (grammar : Grammar) : Parser Pieces := do
  let word ← keyword "print"
  let first ← if ← atSign lineEnd.operand ">>" then
      let mark ← sign ">>"
      pure (Pieces.node "chevron" (mark ++ (← grammar (.expression 1 lineEnd))))
    else grammar (.expression 1 lineEnd)
  let all ← extend first fun pieces => do
    if ← atSign lineEnd.expect "," then
      let comma ← sign ","
      if (← peekLexeme lineEnd.operand).startsExpression then
        return some (pieces ++ comma ++ (← grammar (.expression 1 lineEnd)))
      noComma
      return some (pieces ++ comma)
    else return none
  return Pieces.node "print_statement" (word ++ all)

/-- Reads a print statement or an expression that starts with the name. A place to print to is
always read as such. -/
def printOrExpression (grammar : Grammar) : Parser Pieces := do
  let state ← get
  let _ ← keyword "print"
  let redirected ← atSign lineEnd.operand ">>"
  set state
  if redirected then printStatement grammar
  else
    (do
      let read ← expressionStatement grammar
      statementEnds
      return read) <|> printStatement grammar

/-- Reads the execution of a text or a named one. -/
def execStatement (grammar : Grammar) : Parser Pieces := do
  let word ← keyword "exec"
  let code ←
    match ← peekLexeme lineEnd.operand with
    | .opening delimiter => oneString grammar delimiter
    | _ => identifier
  let scope ← if ← atWord lineEnd.expect "in" then
      let inside ← keyword "in"
      pure (inside ++ (← commaSeparated lineEnd (grammar (.expression 1 lineEnd))))
    else pure []
  return Pieces.node "exec_statement" (word ++ code ++ scope)

/-- Reads a type alias. -/
def typeAlias (grammar : Grammar) : Parser Pieces := do
  let word ← keyword "type"
  let name ← grammar (.typeHint { } true)
  let equals ← sign "="
  return Pieces.node "type_alias_statement"
    (word ++ name ++ equals ++ (← grammar (.typeHint lineEnd true)))

/-- Reads a raised exception with its cause. -/
def raiseStatement (grammar : Grammar) : Parser Pieces := do
  let word ← keyword "raise"
  let raised ← if (← peekLexeme lineEnd.operand).startsExpression then expressions grammar lineEnd
    else pure []
  let cause ← if ← atWord lineEnd.expect "from" then
      let source ← keyword "from"
      pure (source ++ (← grammar (.expression 1 lineEnd)))
    else pure []
  return Pieces.node "raise_statement" (word ++ raised ++ cause)

/-- Reads a statement that fits on a line. -/
def simpleStatement (grammar : Grammar) : Parser Pieces := do
  let expressionOnly : Parser Pieces := do
    let read ← expressionStatement grammar
    statementEnds
    return read
  match ← peekLexeme { string := true } with
  | .word "import" =>
    let word ← keyword "import"
    return Pieces.node "import_statement" (word ++ (← importList lineEnd))
  | .word "from" => importFrom
  | .word "print" => printOrExpression grammar
  | .word "assert" =>
    let word ← keyword "assert"
    let parts ← commaSeparated lineEnd (grammar (.expression 1 lineEnd))
    return Pieces.node "assert_statement" (word ++ parts)
  | .word "return" =>
    let word ← keyword "return"
    if (← peekLexeme lineEnd.operand).startsExpression then
      return Pieces.node "return_statement" (word ++ (← expressions grammar lineEnd))
    return Pieces.node "return_statement" word
  | .word "del" =>
    let word ← keyword "del"
    return Pieces.node "delete_statement" (word ++ (← expressions grammar lineEnd))
  | .word "raise" => raiseStatement grammar
  | .word "pass" => return Pieces.node "pass_statement" (← keyword "pass")
  | .word "break" => return Pieces.node "break_statement" (← keyword "break")
  | .word "continue" => return Pieces.node "continue_statement" (← keyword "continue")
  | .word "global" =>
    let word ← keyword "global"
    return Pieces.node "global_statement" (word ++ (← commaSeparated lineEnd identifier))
  | .word "nonlocal" =>
    let word ← keyword "nonlocal"
    return Pieces.node "nonlocal_statement" (word ++ (← commaSeparated lineEnd identifier))
  | .word "exec" => expressionOnly <|> execStatement grammar
  | .word "type" => (do
      let read ← typeAlias grammar
      statementEnds
      return read) <|> expressionStatement grammar
  | _ => expressionStatement grammar

/-- Reads the simple statements of a line, to the line's end. -/
def statementLine (grammar : Grammar) : Parser Pieces := do
  let first ← simpleStatement grammar
  let all ← extend first fun pieces => do
    if ← atSign lineEnd.expect ";" then
      let semicolon ← sign ";"
      match ← peekLexeme lineEnd.operand with
      | .newline => return some (pieces ++ semicolon)
      | _ => return some (pieces ++ semicolon ++ (← simpleStatement grammar))
    else return none
  match ← peekLexeme lineEnd.expect with
  | .newline => return all ++ (← mark)
  | _ => failure

end LambdaLayout.Python
