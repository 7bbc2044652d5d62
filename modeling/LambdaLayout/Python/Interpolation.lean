import LambdaLayout.Python.Sequence

/-!
Expressions in braces inside strings, with the conversion and the format that may follow them.
-/

namespace LambdaLayout.Python

open LambdaLayout.Python.Parser

/-- Reads how an interpolated value is shown: `!r` and the like. -/
def conversion : Parser Pieces := do
  let lexed ← peek { close := true }
  let width := conversionWidth lexed.start.rest
  if 0 < width then
    let mark ← consume "type_conversion" true lexed.start width
    return extrasOf lexed ++ mark
  else return []

/-- Reads the format of an interpolated value, which may hold expressions in braces itself. -/
def formatSpecifier (grammar : Grammar) : Parser Pieces := do
  let colon ← firstChar
  let all ← extend colon fun pieces => do
    let cursor := (← get).reader.cursor
    match cursor.head? with
    | none => failure
    | some c =>
      if c == '\x7b' then return some (pieces ++ (← grammar .interpolation))
      else if c == '\x7d' then return none
      else if c == '\n' then
        moveTo (cursor.skipWhile isGap)
        return some pieces
      else
        let width := (cursor.rest.takeWhile fun d => d != '\x7b' && d != '\x7d' && d != '\n').length
        return some (pieces ++ (← consume "format" false cursor width))
  return Pieces.node "format_specifier" all

/-- Reads an expression in braces inside a string. -/
def interpolation (grammar : Grammar) : Parser Pieces := do
  let opened ← consume "\x7b" false (← get).reader.cursor 1
  let after : After := { close := true }
  let value ← if ← atWord { string := true } "yield" then yieldExpression grammar after
    else expressions grammar after
  let equals ← if ← atSign after.expect "=" then sign "=" else pure []
  let shown ← conversion
  let lexed ← peek after.expect
  let format ← if lexed.start.head? == some ':' then formatSpecifier grammar else pure []
  let _ ← peek after.expect
  let closing ← sign "\x7d"
  return Pieces.node "interpolation" (opened ++ value ++ equals ++ shown ++ format ++ closing)

end LambdaLayout.Python
