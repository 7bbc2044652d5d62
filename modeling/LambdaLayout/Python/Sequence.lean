import LambdaLayout.Python.Literal
import LambdaLayout.Python.Target

/-!
Sequences of expressions: with commas between them, with or without brackets around them, and what
may stand in place of an expression as one of their parts.
-/

namespace LambdaLayout.Python

open LambdaLayout.Python.Parser

/-- Reads the parts of a bracketed list up to the closing sign: parts, a comma after each but
possibly the last. The parts read before are given. -/
def restOfList (closing : String) (part : Parser Pieces) (pieces : Pieces) : Parser Pieces := do
  let inner ← extend pieces fun pieces => do
    if ← atSign { close := true } "," then
      let comma ← sign ","
      if ← atSign { close := true, string := true } closing then return some (pieces ++ comma)
      else return some (pieces ++ comma ++ (← part))
    else return none
  return inner ++ (← sign closing)

/-- Reads a starred expression in a list or an argument list. -/
def splat (grammar : Grammar) (star kind : String) : Parser Pieces := do
  let mark ← sign star
  return Pieces.node kind (mark ++ (← grammar (.expression 1 { close := true })))

/-- Reads expressions separated by commas, the last of which may be followed by one. The answer
also says whether there was a comma. -/
def expressionSequence (grammar : Grammar) (after : After) : Parser (Pieces × Bool) := do
  let first ← grammar (.expression 1 after)
  extend (first, false) fun (pieces, _) => do
    if ← atSign after.expect "," then
      let comma ← sign ","
      if (← peekLexeme after.operand).startsExpression then
        return some (pieces ++ comma ++ (← grammar (.expression 1 after)), true)
      noComma
      return some (pieces ++ comma, true)
    else return none

/-- Reads one expression, or a list of them without brackets. -/
def expressions (grammar : Grammar) (after : After) : Parser Pieces := do
  let (pieces, isList) ← expressionSequence grammar after
  return if isList then Pieces.node "expression_list" pieces else pieces

/-- Reads a yield expression. -/
def yieldExpression (grammar : Grammar) (after : After) : Parser Pieces := do
  let word ← keyword "yield"
  match ← peekLexeme after.operand with
  | .word "from" =>
    let source ← keyword "from"
    return Pieces.node "yield" (word ++ source ++ (← grammar (.expression 1 after)))
  | lexeme =>
    if lexeme.startsExpression then
      return Pieces.node "yield" (word ++ (← expressions grammar after))
    else return Pieces.node "yield" word

/-- Reads an element of a list, tuple or set. -/
def element (grammar : Grammar) : Parser Pieces := do
  match ← peekLexeme { string := true } with
  | .word "yield" => yieldExpression grammar { close := true }
  | .sign "*" => splat grammar "*" "list_splat"
  | _ => grammar (.expression 1 { close := true })

/-- Says that the clauses of a comprehension start here. -/
def atClauses : Parser Bool := do
  match ← peekLexeme { close := true } with
  | .word text => return text == "for" || text == "async"
  | _ => return false

end LambdaLayout.Python
