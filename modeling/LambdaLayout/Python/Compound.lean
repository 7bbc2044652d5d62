import LambdaLayout.Python.Statement

/-!
Compound statements: those with blocks below them. A block is indented, or is the rest of the line,
or is missing; a missing block is empty and stands right after the colon.
-/

namespace LambdaLayout.Python

open LambdaLayout.Python.Parser

/-- What to expect where a statement may start. -/
def statementStart (inBlock : Bool) : Expect := { dedent := inBlock, string := true }

/-- Reads the block after a colon. -/
def suite (grammar : Grammar) : Parser Pieces := do
  match ← peekLexeme { indent := true, newline := true, string := true } with
  | .indent =>
    let start ← mark
    return start ++ (← grammar .block)
  | .newline => return Pieces.node "block" (← mark)
  | _ => return Pieces.node "block" (← statementLine grammar)

/-- Reads a colon and the block after it. -/
def body (grammar : Grammar) : Parser Pieces := do
  let colon ← sign ":"
  return colon ++ (← suite grammar)

/-- Reads the statements of an indented block, to its end. -/
def block (grammar : Grammar) : Parser Pieces := do
  let (pieces, _) ← extend (([] : Pieces), false) fun (pieces, ended) => do
    if ended then return none
    match ← peekLexeme (statementStart true) with
    | .dedent => return some (pieces ++ (← mark), true)
    | _ => return some (pieces ++ (← grammar (.statement true)), false)
  return Pieces.node "block" pieces

/-- Reads the `else` clause that may follow. -/
def elseClause (grammar : Grammar) (inBlock : Bool) : Parser Pieces := do
  if ← atWord (statementStart inBlock) "else" then
    let word ← keyword "else"
    return Pieces.node "else_clause" (word ++ (← body grammar))
  else return []

/-- Reads a conditional statement. -/
def ifStatement (grammar : Grammar) (inBlock : Bool) : Parser Pieces := do
  let word ← keyword "if"
  let condition ← grammar (.expression 1 { })
  let first := word ++ condition ++ (← body grammar)
  let all ← extend first fun pieces => do
    if ← atWord (statementStart inBlock) "elif" then
      let word ← keyword "elif"
      let condition ← grammar (.expression 1 { })
      return some (pieces ++ Pieces.node "elif_clause" (word ++ condition ++ (← body grammar)))
    else return none
  return Pieces.node "if_statement" (all ++ (← elseClause grammar inBlock))

/-- Reads a loop over what an expression gives. -/
def forStatement (grammar : Grammar) (inBlock : Bool) (async : Pieces) : Parser Pieces := do
  let word ← keyword "for"
  let target ← loopTarget grammar
  let inside ← keyword "in"
  let source ← expressions grammar { }
  let all := async ++ word ++ target ++ inside ++ source ++ (← body grammar)
  return Pieces.node "for_statement" (all ++ (← elseClause grammar inBlock))

/-- Reads a loop with a condition. -/
def whileStatement (grammar : Grammar) (inBlock : Bool) : Parser Pieces := do
  let word ← keyword "while"
  let condition ← grammar (.expression 1 { })
  let all := word ++ condition ++ (← body grammar)
  return Pieces.node "while_statement" (all ++ (← elseClause grammar inBlock))

/-- Reads a handler of exceptions. -/
def exceptClause (grammar : Grammar) : Parser Pieces := do
  let word ← keyword "except"
  let star ← if ← atSign { string := true } "*" then sign "*" else pure []
  let caught ← if ← atSign { string := true } ":" then pure []
    else commaSeparated { } (grammar (.expression 1 { }))
  return Pieces.node "except_clause" (word ++ star ++ caught ++ (← body grammar))

/-- Reads a statement with handlers of exceptions. -/
def tryStatement (grammar : Grammar) (inBlock : Bool) : Parser Pieces := do
  let word ← keyword "try"
  let first := word ++ (← body grammar)
  let handled ← extend first fun pieces => do
    if ← atWord (statementStart inBlock) "except" then
      return some (pieces ++ (← exceptClause grammar))
    else return none
  let all := handled ++ (← elseClause grammar inBlock)
  if ← atWord (statementStart inBlock) "finally" then
    let word ← keyword "finally"
    return Pieces.node "try_statement"
      (all ++ Pieces.node "finally_clause" (word ++ (← body grammar)))
  return Pieces.node "try_statement" all

/-- Reads one context of a `with` statement. -/
def withItem (grammar : Grammar) (after : After) : Parser Pieces := do
  return Pieces.node "with_item" (← grammar (.expression 1 after))

/-- Reads two or more contexts in parentheses, up to the colon. -/
def bracketedContexts (grammar : Grammar) : Parser Pieces := do
  let opened ← sign "("
  let _ ← peek { close := true, string := true }
  let first ← withItem grammar { close := true }
  let comma ← sign ","
  let _ ← peek { close := true, string := true }
  let second ← withItem grammar { close := true }
  let all ← restOfList ")" (withItem grammar { close := true }) (opened ++ first ++ comma ++ second)
  if ← atSign { } ":" then return all else failure

/-- Reads contexts without parentheses around them. -/
def plainContexts (grammar : Grammar) : Parser Pieces := do
  let first ← withItem grammar { }
  extend first fun pieces => do
    if ← atSign { } "," then
      let comma ← sign ","
      if (← peekLexeme { string := true }).startsExpression then
        return some (pieces ++ comma ++ (← withItem grammar { }))
      noComma
      return some (pieces ++ comma)
    else return none

/-- Reads a statement run in one or more contexts. -/
def withStatement (grammar : Grammar) (async : Pieces) : Parser Pieces := do
  let word ← keyword "with"
  let contexts ← bracketedContexts grammar <|> plainContexts grammar
  return Pieces.node "with_statement"
    (async ++ word ++ Pieces.node "with_clause" contexts ++ (← body grammar))

/-- Reads a function. -/
def functionDefinition (grammar : Grammar) (async : Pieces) : Parser Pieces := do
  let word ← keyword "def"
  let name ← identifier
  let generic ← if ← atSign { } "[" then typeParameters grammar else pure []
  let given ← parameters grammar
  let result ← if ← atSign { } "->" then
      let arrow ← sign "->"
      pure (arrow ++ (← grammar (.typeHint { } false)))
    else pure []
  return Pieces.node "function_definition"
    (async ++ word ++ name ++ generic ++ given ++ result ++ (← body grammar))

/-- Reads a class. -/
def classDefinition (grammar : Grammar) : Parser Pieces := do
  let word ← keyword "class"
  let name ← identifier
  let generic ← if ← atSign { } "[" then typeParameters grammar else pure []
  let bases ← if ← atSign { } "(" then
      let given ← arguments grammar
      if Pieces.kind given == "argument_list" then pure given else failure
    else pure []
  return Pieces.node "class_definition" (word ++ name ++ generic ++ bases ++ (← body grammar))

/-- Reads a function or class with the decorators before it. -/
def decorated (grammar : Grammar) : Parser Pieces := do
  let decorator : Parser Pieces := do
    let symbol ← sign "@"
    let value ← grammar (.expression 1 lineEnd)
    match ← peekLexeme lineEnd.expect with
    | .newline => return Pieces.node "decorator" (symbol ++ value ++ (← mark))
    | _ => failure
  let first ← decorator
  let decorators ← extend first fun pieces => do
    if ← atSign { } "@" then return some (pieces ++ (← decorator)) else return none
  let definition ←
    match ← peekLexeme { } with
    | .word "class" => classDefinition grammar
    | .word "async" =>
      let async ← keyword "async"
      functionDefinition grammar async
    | _ => functionDefinition grammar []
  return Pieces.node "decorated_definition" (decorators ++ definition)

/-- Reads one case of a match statement. -/
def caseClause (grammar : Grammar) : Parser Pieces := do
  let word ← keyword "case"
  let first ← grammar (.casePattern { })
  let patterns ← extend first fun pieces => do
    if ← atSign { } "," then
      let comma ← sign ","
      match ← peekLexeme { string := true } with
      | .sign ":" | .word "if" => return some (pieces ++ comma)
      | _ => return some (pieces ++ comma ++ (← grammar (.casePattern { })))
    else return none
  let guard ← if ← atWord { } "if" then
      let word ← keyword "if"
      pure (Pieces.node "if_clause" (word ++ (← grammar (.expression 1 { }))))
    else pure []
  return Pieces.node "case_clause" (word ++ patterns ++ guard ++ (← body grammar))

/-- Reads the cases of a match statement, or nothing where they are missing. -/
def cases (grammar : Grammar) : Parser Pieces := do
  match ← peekLexeme { indent := true, newline := true } with
  | .indent =>
    let start ← mark
    let (pieces, _) ← extend (start, false) fun (pieces, ended) => do
      if ended then return none
      match ← peekLexeme { dedent := true } with
      | .dedent => return some (pieces ++ (← mark), true)
      | _ => return some (pieces ++ (← caseClause grammar), false)
    return Pieces.node "block" pieces
  | .newline => return Pieces.node "block" (← mark)
  | _ => failure

/-- Reads a match statement. -/
def matchStatement (grammar : Grammar) : Parser Pieces := do
  let word ← keyword "match"
  let _ ← peek lineEnd.operand
  let first ← grammar (.expression 1 { })
  let subjects ← extend first fun pieces => do
    if ← atSign { } "," then
      let comma ← sign ","
      if (← peekLexeme { string := true }).startsExpression then
        return some (pieces ++ comma ++ (← grammar (.expression 1 { })))
      noComma
      return some (pieces ++ comma)
    else return none
  let colon ← sign ":"
  return Pieces.node "match_statement"
    (word ++ subjects ++ colon ++ (← cases grammar))

/-- Reads a statement that starts with `async`, or the statements of a line that starts with the
name. -/
def asyncStatement (grammar : Grammar) (inBlock : Bool) : Parser Pieces :=
  (do
    let async ← keyword "async"
    match ← peekLexeme lineEnd.expect with
    | .word "def" => functionDefinition grammar async
    | .word "for" => forStatement grammar inBlock async
    | .word "with" => withStatement grammar async
    | _ => failure) <|> statementLine grammar

/-- Reads a statement. -/
def statement (grammar : Grammar) (inBlock : Bool) : Parser Pieces := do
  match ← peekLexeme (statementStart inBlock) with
  | .word "if" => ifStatement grammar inBlock
  | .word "for" => forStatement grammar inBlock []
  | .word "while" => whileStatement grammar inBlock
  | .word "try" => tryStatement grammar inBlock
  | .word "with" => withStatement grammar []
  | .word "def" => functionDefinition grammar []
  | .word "class" => classDefinition grammar
  | .word "async" => asyncStatement grammar inBlock
  | .word "match" => matchStatement grammar <|> statementLine grammar
  | .sign "@" => decorated grammar
  | _ => statementLine grammar

end LambdaLayout.Python
