import LambdaLayout.Python.Parser

/-!
String literals. Between its quotes a string is read piece by piece: plain content, escapes, doubled
braces, and expressions in braces. Strings that stand side by side form one literal.
-/

namespace LambdaLayout.Python

open LambdaLayout.Python.Parser

/-- A piece of a string, from the cursor on. -/
inductive StringPiece where
  /-- A doubled brace. -/
  | escapedBrace
  /-- Plain text. -/
  | content
  /-- The closing quotes. -/
  | closing

/-- How many characters a backslash in a raw string hides: a quote, a backslash, a line break. -/
def hiddenAfterBackslash (quote : Char) (text : Text) : Nat :=
  let one :=
    match text.head? with
    | some c => if c == quote || c == '\\' then 1 else 0
    | none => 0
  match text.drop one with
  | '\r' :: '\n' :: _ => one + 2
  | '\r' :: _ => one + 1
  | '\n' :: _ => one + 1
  | _ => one

/-- Reads plain content or the closing quotes. The arguments are the number of characters to pass
over, whether something was read, and how many characters were passed. -/
def scanContent (delimiter : Delimiter) : Nat → Bool → Nat → Text → Option (StringPiece × Nat)
  | _, _, _, [] => none
  | skip + 1, found, width, _ :: rest => scanContent delimiter skip found (width + 1) rest
  | 0, found, width, c :: rest =>
    let sofar := if found then some (StringPiece.content, width) else none
    if c.toNat == 0 then none
    else if (c == '\x7b' || c == '\x7d') && delimiter.format then sofar
    else if c == '\\' && delimiter.raw then
      scanContent delimiter (hiddenAfterBackslash delimiter.quote rest) found (width + 1) rest
    else if c == '\\' then
      if delimiter.bytes && (rest.head?.any fun next => next == 'N' || next == 'u' || next == 'U')
      then scanContent delimiter 2 true (width + 1) rest
      else sofar
    else if c == delimiter.quote then
      if delimiter.triple then
        match rest.head? == some c, (rest.drop 1).head? == some c with
        | true, true => if found then some (.content, width) else some (.closing, width + 3)
        | true, false => some (.content, width + 2)
        | false, _ => some (.content, width + 1)
      else if found then some (.content, width)
      else some (.closing, width + 1)
    else if c == '\n' && found && !delimiter.triple then none
    else scanContent delimiter 0 true (width + 1) rest

/-- The next piece of a string and the number of its characters. -/
def stringPiece? (delimiter : Delimiter) (text : Text) : Option (StringPiece × Nat) :=
  match text with
  | c :: rest =>
    if (c == '\x7b' || c == '\x7d') && delimiter.format then
      if rest.head? == some c then some (.escapedBrace, 2) else none
    else scanContent delimiter 0 false 0 text
  | [] => none

/-- The number of characters of an escape, of which the text follows its backslash. -/
def escapeWidth : Text → Nat
  | [] => 1
  | c :: rest =>
    let digits := fun (n : Nat) => (rest.take n).length == n && (rest.take n).all Numeral.isHexDigit
    if c == 'u' then (if digits 4 then 6 else 1)
    else if c == 'U' then (if digits 8 then 10 else 1)
    else if c == 'x' then (if digits 2 then 4 else 1)
    else if c.isDigit then 2 + ((rest.take 2).takeWhile Char.isDigit).length
    else if c == '\n' then 2
    else if c == '\r' then (if rest.head? == some '\n' then 3 else 1)
    else if "'\"abfrntv\\".toList.contains c then 2
    else if c == 'N' then
      match rest with
      | '\x7b' :: inner =>
        let name := inner.takeWhile fun d => d != '\x7d'
        if name.isEmpty || name.length == inner.length then 1 else name.length + 4
      | _ => 1
    else 1

/-- Moves the reader and forgets the next token. -/
def moveTo (cursor : Cursor) : Parser Unit :=
  modify fun state => ⟨{ state.reader with cursor := cursor }, none⟩

/-- Consumes characters as a leaf. -/
def consume (kind : String) (named : Bool) (start : Cursor) (width : Nat) : Parser Pieces := do
  let stop := start.skip width
  moveTo stop
  return [.tree (Tree.leaf kind named (start.spanTo stop))]

/-- What is read inside a string where no piece of it could be read: an expression in braces, an
escape, or a comment. -/
def insideString (grammar : Grammar) (cursor : Cursor) : Parser Pieces := do
  let start := cursor.skipWhile isGap
  match start.rest with
  | '\x7b' :: _ =>
    moveTo start
    grammar .interpolation
  | '#' :: _ =>
    moveTo (commentEnd start)
    return [.tree (commentTree start)]
  | '\\' :: rest =>
    if start.byte == cursor.byte then consume "escape_sequence" true start (escapeWidth rest)
    else
      let width := continuationWidth start.rest
      if 0 < width then
        moveTo (start.skip width)
        return []
      else failure
  | _ => failure

/-- The letter after an exclamation mark that says how a value is shown. -/
def conversionWidth : Text → Nat
  | '!' :: c :: _ => if 'a' ≤ c && c ≤ 'z' then 2 else 0
  | _ => 0

/-- Reads one string, from its opening on. -/
def oneString (grammar : Grammar) (delimiter : Delimiter) : Parser Pieces := do
  let opening ← leaf "string_start" true
  let result ← extend (opening, false) fun (pieces, closed) => do
    if closed then return none
    let cursor := (← get).reader.cursor
    match stringPiece? delimiter cursor.rest with
    | some (.escapedBrace, width) =>
      return some (pieces ++ (← consume "escape_interpolation" true cursor width), false)
    | some (.content, width) =>
      return some (pieces ++ (← consume "string_content" true cursor width), false)
    | some (.closing, width) =>
      let quotes ← consume "string_end" true cursor width
      modify fun state => { state with reader := { state.reader with inFormat := false } }
      return some (pieces ++ quotes, true)
    | none => return some (pieces ++ (← insideString grammar cursor), false)
  return Pieces.node "string" result.1

/-- Reads a string, or several side by side. -/
def stringLiteral (grammar : Grammar) (after : After) : Parser Pieces := do
  let read := do
    match ← peekLexeme after.operand with
    | .opening delimiter => return some (← oneString grammar delimiter)
    | _ => return none
  match ← read with
  | none => failure
  | some first =>
    let all ← extend (first, 1) fun (pieces, count) => do
      match ← read with
      | none => return none
      | some more => return some (pieces ++ more, count + 1)
    return if all.2 == 1 then all.1 else Pieces.node "concatenated_string" all.1

end LambdaLayout.Python
