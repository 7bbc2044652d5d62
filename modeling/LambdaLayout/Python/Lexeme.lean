import LambdaLayout.Python.Cursor
import LambdaLayout.Python.Numeral
import LambdaLayout.Text.Identifier

/-!
Reading the next token of a source. Line ends and indentation are tokens only where the grammar has
a use for them, so a reader says what it expects before it asks. Line breaks are otherwise blank,
except that text which is indented less than the open block ends that block wherever it stands,
unless the place admits a closing bracket or a string. Comments and line continuations before a
token come with it.
-/

namespace LambdaLayout.Python

open LambdaLayout.Text (isIdentifierStart isIdentifierContinue)

/-- The tokens at a place on which the reading of line ends, indentation and strings depends. -/
structure Expect where
  /-- A statement may end here. -/
  newline : Bool := false
  /-- A block may start here. -/
  indent : Bool := false
  /-- A block may end here. -/
  dedent : Bool := false
  /-- A string may start here. -/
  string : Bool := false
  /-- A closing bracket may stand here. -/
  close : Bool := false

/-- How a string was opened. -/
structure Delimiter where
  /-- The character that opened the string and closes it. -/
  quote : Char
  /-- The string is opened and closed by three quotes and may hold line breaks. -/
  triple : Bool
  /-- The string may hold expressions in braces. -/
  format : Bool
  /-- Backslashes have no meaning but to hide a quote. -/
  raw : Bool
  /-- The string holds bytes. -/
  bytes : Bool
  deriving Inhabited

/-- The kinds of token. -/
inductive Lexeme where
  /-- The end of a simple statement. -/
  | newline
  /-- The start of an indented block. -/
  | indent
  /-- The end of an indented block. -/
  | dedent
  /-- The opening of a string. -/
  | opening (delimiter : Delimiter)
  /-- A name or a word of the language. -/
  | word (text : String)
  /-- A numeral without point and exponent. -/
  | integer
  /-- A numeral with point or exponent. -/
  | float
  /-- An operator or a piece of punctuation. -/
  | sign (text : String)
  /-- The end of the source. -/
  | finish
  /-- A character that starts no token. -/
  | stray
  deriving Inhabited

/-- Where the reading of tokens stands. -/
structure Reader where
  /-- The place reached. -/
  cursor : Cursor
  /-- The indentation of the open blocks, innermost first. -/
  indents : List Nat
  /-- The last string opened may hold expressions and is not closed. Blocks do not end there. -/
  inFormat : Bool
  deriving Inhabited

/-- A token with the comments and line continuations before it. -/
structure Lexed where
  /-- The comments and line continuations between the token before and this one. -/
  extras : List Tree
  /-- What was read. -/
  lexeme : Lexeme
  /-- Where the token starts. -/
  start : Cursor
  /-- The reader past the token. -/
  after : Reader
  deriving Inhabited

namespace Lexed

/-- The text covered by the token. -/
def span (lexed : Lexed) : Span := lexed.start.spanTo lexed.after.cursor

end Lexed

/-- The blanks, line breaks and skipped comment lines between two tokens. -/
structure Margin where
  /-- The number of characters in it. -/
  width : Nat := 0
  /-- It holds a line break, or reaches the end of the source. -/
  broken : Bool := false
  /-- The indentation of what follows. A tab counts eight. -/
  indent : Nat := 0
  /-- The indentation of the first comment line in it. -/
  comment : Option Nat := none

namespace Margin

/-- The margin with one more character and the given indentation. -/
def step (margin : Margin) (indent : Nat) : Margin :=
  { margin with width := margin.width + 1, indent := indent }

/-- The margin that ends with the source. -/
def finish (margin : Margin) : Margin := { margin with indent := 0, broken := true }

/-- Reads a margin. Comment lines belong to it where asked for; a comment that follows text on its
line, or a backslash that does not end a line, leaves nothing to be decided and gives no margin. -/
def scan (comments : Bool) : Bool → Margin → Text → Option Margin
  | _, margin, [] => some margin.finish
  | true, margin, c :: rest =>
    scan comments (!(c == '\n' || c.toNat == 0)) (margin.step 0) rest
  | false, margin, '\\' :: '\n' :: rest =>
    scan comments false { margin with width := margin.width + 2 } rest
  | false, margin, '\\' :: '\r' :: '\n' :: rest =>
    scan comments false { margin with width := margin.width + 3 } rest
  | false, margin, ['\\'] => some { margin.finish with width := margin.width + 1 }
  | false, margin, ['\\', '\r'] => some { margin.finish with width := margin.width + 2 }
  | false, margin, c :: rest =>
    if c == '\\' then none
    else if c == '\n' then scan comments false { margin.step 0 with broken := true } rest
    else if c == ' ' then scan comments false (margin.step (margin.indent + 1)) rest
    else if c == '\r' || c == '\x0c' then scan comments false (margin.step 0) rest
    else if c == '\t' then scan comments false (margin.step (margin.indent + 8)) rest
    else if c == '#' && comments then
      if margin.broken then
        let noted := margin.comment.or (some margin.indent)
        scan comments true { margin.step 0 with comment := noted } rest
      else none
    else some margin

end Margin

/-- The marks that open and close strings. -/
def isQuote (c : Char) : Bool := c == '"' || c == '\'' || c == '`'

/-- The token that a margin stands for, if any. -/
def layoutToken? (expect : Expect) (reader : Reader) (margin : Margin) : Option Lexeme :=
  let current := reader.indents.headD 0
  let quoteAhead := ((reader.cursor.rest.drop margin.width).head?).any isQuote
  let mayClose := expect.dedent ||
    (!expect.newline && !(expect.string && quoteAhead) && !expect.close)
  if !margin.broken then none
  else if expect.indent && current < margin.indent then some .indent
  else if mayClose && margin.indent < current && !reader.inFormat &&
      (margin.comment.all fun indent => indent < current) then some .dedent
  else if expect.newline then some .newline
  else none

/-- The reader after a token made of a margin. The margin itself is not consumed. -/
def Reader.afterLayout (reader : Reader) (margin : Margin) : Lexeme → Reader
  | .indent => { reader with indents := margin.indent :: reader.indents }
  | .dedent => { reader with indents := reader.indents.tail }
  | _ => reader

/-- The letters that may stand before the opening quote of a string. -/
def isStringFlag (c : Char) : Bool := "fFtTrRbBuU".toList.contains c

/-- The opening of a string at the cursor, with the cursor past it. -/
def opening? (cursor : Cursor) : Option (Delimiter × Cursor) :=
  let flags := cursor.rest.takeWhile isStringFlag
  let atQuote := cursor.skip flags.length
  match atQuote.head? with
  | none => none
  | some quote =>
    if isQuote quote then
      let triple := quote != '`' && atQuote.startsWith [quote, quote, quote]
      let has := fun letters : String => flags.any fun flag => letters.toList.contains flag
      some (⟨quote, triple, has "fFtT", has "rR", has "bB"⟩, atQuote.skip (if triple then 3 else 1))
    else none

/-- The blanks between tokens. -/
def isGap (c : Char) : Bool :=
  let n := c.toNat
  (9 ≤ n && n ≤ 13) || n == 0x20 || n == 0xFEFF || n == 0x2060 || n == 0x200B

/-- The operators and punctuation, longer ones first. -/
def signs : List String :=
  ["...", "**=", "//=", ">>=", "<<=",
   "**", "//", ">>", "<<", "<=", ">=", "==", "!=", "<>", "->", ":=", "+=", "-=", "*=", "/=", "@=",
   "%=", "&=", "^=", "|=",
   "(", ")", "[", "]", "\x7b", "\x7d", ",", ":", ".", ";", "@", "=", "+", "-", "*", "/", "%", "|",
   "&", "^", "~", "<", ">"]

/-- The word, numeral or sign at the cursor, with the cursor past it. -/
def plainToken (cursor : Cursor) : Lexeme × Cursor :=
  match cursor.rest with
  | [] => (.finish, cursor)
  | c :: _ =>
    if isIdentifierStart c then
      let text := cursor.rest.takeWhile isIdentifierContinue
      (.word (String.ofList text), cursor.skip text.length)
    else
      let whole := Numeral.integer cursor.rest
      let broken := Numeral.float cursor.rest
      if whole < broken then (.float, cursor.skip broken)
      else if 0 < whole then (.integer, cursor.skip whole)
      else
        match signs.find? fun sign => cursor.startsWith sign.toList with
        | some sign => (.sign sign, cursor.skip sign.length)
        | none => (.stray, cursor.next)

/-- The number of characters of a line continuation at the start of the text. -/
def continuationWidth : Text → Nat
  | ['\\'] => 1
  | '\\' :: '\n' :: _ => 2
  | '\\' :: '\r' :: '\n' :: _ => 3
  | '\\' :: c :: _ => if c.toNat == 0 then 2 else 0
  | _ => 0

/-- The end of the comment that starts at the cursor. -/
def commentEnd (cursor : Cursor) : Cursor := cursor.skipWhile fun c => c != '\n'

/-- The comment that starts at the cursor. -/
def commentTree (cursor : Cursor) : Tree :=
  Tree.leaf "comment" true (cursor.spanTo (commentEnd cursor))

/-- Reads comments and line continuations up to the next token, and the token. The count bounds the
number of comments and continuations. -/
def readToken (expect : Expect) : Nat → List Tree → Reader → Lexed
  | 0, extras, reader => ⟨extras, .stray, reader.cursor, reader⟩
  | count + 1, extras, reader =>
    let margin := Margin.scan (expect.indent || expect.dedent || expect.newline) false
      { } reader.cursor.rest
    match margin.bind fun m => (layoutToken? expect reader m).map fun lexeme => (m, lexeme) with
    | some (m, lexeme) => ⟨extras, lexeme, reader.cursor, reader.afterLayout m lexeme⟩
    | none =>
      let string := margin.bind fun m =>
        if expect.string && m.comment.isNone then
          let start := reader.cursor.skip m.width
          (opening? start).map fun found => (start, found)
        else none
      match string with
      | some (start, delimiter, stop) =>
        ⟨extras, .opening delimiter, start,
          { reader with cursor := stop, inFormat := delimiter.format }⟩
      | none =>
        let start := reader.cursor.skipWhile isGap
        if start.head? == some '#' then
          readToken expect count (extras ++ [commentTree start])
            { reader with cursor := commentEnd start }
        else
          let width := continuationWidth start.rest
          if 0 < width then
            let stop := start.skip width
            let continuation := Tree.leaf "line_continuation" true (start.spanTo stop)
            readToken expect count (extras ++ [continuation]) { reader with cursor := stop }
          else
            let found := plainToken start
            ⟨extras, found.1, start, { reader with cursor := found.2 }⟩

namespace Reader

/-- The reader at the start of a source. -/
def start (source : Text) : Reader := ⟨Cursor.start source, [0], false⟩

/-- The next token. -/
def read (reader : Reader) (expect : Expect) : Lexed :=
  readToken expect (reader.cursor.rest.length + 1) [] reader

end Reader

/-- The words that are never names. -/
def reserved : List String :=
  ["False", "await", "else", "import", "pass", "None", "break", "except", "in", "raise", "True",
   "class", "finally", "is", "return", "and", "continue", "for", "lambda", "try", "as", "def",
   "from", "nonlocal", "while", "assert", "del", "global", "not", "with", "async", "elif", "if",
   "or", "yield"]

/-- Says that a word may be used as a name. -/
def isIdentifierWord (text : String) : Bool := !reserved.contains text

/-- Says that a word is a name, or is read as one where a name is a whole expression. -/
def isNameWord (text : String) : Bool :=
  isIdentifierWord text || text == "async" || text == "await"

end LambdaLayout.Python
