import LambdaLayout.Python.Parameter

/-!
Expressions. Operators are read by level: a loop extends what was read as long as the next operator
binds at least as tightly as the level asked for. Levels one and two are the conditional and the
`as` clause, ten to twelve the boolean operators, fourteen and above arithmetic.
-/

namespace LambdaLayout.Python

open LambdaLayout.Python.Parser

/-- The level of an arithmetic operator, and the level its right operand is read at. Powers group
to the right, all others to the left. -/
def arithmeticLevel? (text : String) : Option (Nat × Nat) :=
  match text with
  | "|" => some (14, 15)
  | "&" => some (15, 16)
  | "^" => some (16, 17)
  | "<<" | ">>" => some (17, 18)
  | "+" | "-" => some (18, 19)
  | "*" | "@" | "/" | "%" | "//" => some (19, 20)
  | "**" => some (21, 21)
  | _ => none

/-- Reads an expression of arithmetic operators. -/
def arithmetic (grammar : Grammar) (level : Nat) (after : After) : Parser Pieces := do
  let first ←
    match ← anySign? { string := true } ["+", "-", "~"] with
    | some mark => pure (Pieces.node "unary_operator" (mark ++ (← grammar (.arithmetic 21 after))))
    | none => if ← atWord { } "await" then awaited grammar after else operand grammar after
  extend first fun left => do
    match ← peekLexeme after.expect with
    | .sign text =>
      match arithmeticLevel? text with
      | some (own, right) =>
        if level ≤ own then
          let mark ← sign text
          let value ← grammar (.arithmetic right after)
          return some (Pieces.node "binary_operator" (left ++ mark ++ value))
        else return none
      | none => return none
    | _ => return none

/-- Reads a comparison operator, if one is next. -/
def comparison? (after : After) : Parser (Option Pieces) := do
  match ← peekLexeme after.expect with
  | .sign _ => anySign? { } ["<", "<=", "==", "!=", ">=", ">", "<>"]
  | .word "in" => return some (← keyword "in")
  | .word "not" =>
    let word ← keyword "not"
    return some (Pieces.close "not in" false (word ++ (← keyword "in")))
  | .word "is" =>
    let word ← keyword "is"
    if ← atWord { string := true } "not" then
      return some (Pieces.close "is not" false (word ++ (← keyword "not")))
    else return some word
  | _ => return none

/-- Reads operands with comparison operators between them. -/
def comparison (grammar : Grammar) (after : After) : Parser Pieces := do
  let first ← grammar (.arithmetic 14 after)
  let (pieces, compared) ← extend (first, false) fun (pieces, _) => do
    match ← comparison? after with
    | none => return none
    | some mark => return some (pieces ++ mark ++ (← grammar (.arithmetic 14 after)), true)
  return if compared then Pieces.node "comparison_operator" pieces else pieces

/-- Reads what the binary operators of an expression stand between: a negation, a lambda, a named
expression or a comparison. -/
def term (grammar : Grammar) (after : After) (lambdaBody : Rule) : Parser Pieces := do
  match ← peekLexeme { string := true } with
  | .word "not" =>
    let word ← keyword "not"
    return Pieces.node "not_operator" (word ++ (← grammar (.expression 12 after)))
  | .word "lambda" => lambda grammar lambdaBody
  | _ =>
    let value ← comparison grammar after
    if Pieces.kind value == "identifier" && (← atSign after.expect ":=") then
      let walrus ← sign ":="
      return Pieces.node "named_expression" (value ++ walrus ++ (← grammar (.expression 3 after)))
    return value

/-- Reads an expression whose operators bind at least as tightly as the level says. -/
def expression (grammar : Grammar) (level : Nat) (after : After) (lambdaBody : Rule) :
    Parser Pieces := do
  let first ← term grammar after lambdaBody
  extend first fun left => do
    match ← peekLexeme after.expect with
    | .word "or" =>
      if level ≤ 10 then
        let word ← keyword "or"
        let right ← grammar (.expression 11 after)
        return some (Pieces.node "boolean_operator" (left ++ word ++ right))
      else return none
    | .word "and" =>
      if level ≤ 11 then
        let word ← keyword "and"
        let right ← grammar (.expression 12 after)
        return some (Pieces.node "boolean_operator" (left ++ word ++ right))
      else return none
    | .word "as" =>
      if level ≤ 2 then
        let word ← keyword "as"
        let name ← grammar (.expression 3 after)
        return some (Pieces.node "as_pattern"
          (left ++ word ++ Pieces.node "as_pattern_target" name))
      else return none
    | .word "if" =>
      if level ≤ 1 then
        let word ← keyword "if"
        let condition ← grammar (.expression 1 { })
        let otherwise ← keyword "else"
        let value ← grammar (.expression 1 after)
        return some (Pieces.node "conditional_expression"
          (left ++ word ++ condition ++ otherwise ++ value))
      else return none
    | _ => return none

end LambdaLayout.Python
