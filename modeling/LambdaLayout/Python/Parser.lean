import LambdaLayout.Python.Lexeme

/-!
Parsers for the grammar. A parser consumes tokens and gives the pieces of tree it read, or fails and
leaves the way open for another reading. The next token is read once, in the light of what the
place where it is first asked for admits, and stays the next token until it is consumed.

A comment belongs to the innermost node that has a token before it and a token after it, and so does
a line continuation. Parsers therefore hand those before their first token upwards, and a node that
is closed leaves the ones at its front outside. Line ends and block ends count as tokens here but
make no node.
-/

namespace LambdaLayout.Python

/-- A piece of what a parser read. -/
inductive Piece where
  /-- A node. -/
  | tree (tree : Tree)
  /-- A line end or the start or end of a block, which has a place but makes no node. -/
  | mark (span : Span)
  deriving Inhabited

namespace Piece

/-- The text covered by the piece. -/
def span : Piece → Span
  | tree node => node.span
  | mark span => span

/-- The node of the piece, if it has one. -/
def tree? : Piece → Option Tree
  | tree node => some node
  | mark _ => none

/-- Says that the piece is a comment or a line continuation. -/
def isExtra : Piece → Bool
  | tree node => node.isExtra
  | mark _ => false

end Piece

/-- What was read, in source order. -/
abbrev Pieces := List Piece

namespace Pieces

/-- Closes a node over the pieces. Comments and line continuations at the front stay outside. -/
def close (kind : String) (named : Bool) (pieces : Pieces) : Pieces :=
  let lead := pieces.takeWhile Piece.isExtra
  let body := pieces.dropWhile Piece.isExtra
  match body.head?, body.getLast? with
  | some first, some last =>
    let label : Label := { kind := kind, named := named, span := first.span.through last.span }
    lead ++ [.tree (.node label (body.filterMap Piece.tree?))]
  | _, _ => pieces

/-- Closes a named node over the pieces. -/
def node (kind : String) (pieces : Pieces) : Pieces := close kind true pieces

/-- Changes the last node. -/
def mapLast (f : Tree → Tree) : Pieces → Pieces
  | [] => []
  | [.tree tree] => [.tree (f tree)]
  | piece :: rest => piece :: mapLast f rest

/-- Gives the last node a role. -/
def role (name : String) (pieces : Pieces) : Pieces := mapLast (Tree.withRole name) pieces

/-- The construct of the last node. -/
def kind (pieces : Pieces) : String :=
  match pieces.getLast? with
  | some (.tree tree) => tree.kind
  | _ => ""

end Pieces

/-- The state of a parser: the reader, and the next token once it was asked for. -/
structure ParseState where
  /-- Where reading stands. -/
  reader : Reader
  /-- The next token. -/
  ahead : Option Lexed
  deriving Inhabited

/-- A parser with backtracking. -/
abbrev Parser := StateT ParseState Option

/-- What may directly follow a construct, as far as it bears on line ends. -/
structure After where
  /-- The statement may end after it. -/
  newline : Bool := false
  /-- A closing bracket may follow it. -/
  close : Bool := false

namespace After

/-- What to expect when the construct may be complete. -/
def expect (after : After) : Expect := { newline := after.newline, close := after.close }

/-- What to expect when the construct may be complete or an operand may follow. -/
def operand (after : After) : Expect :=
  { newline := after.newline, close := after.close, string := true }

end After

namespace Parser

/-- The next token. What to expect is heeded only if the token was not asked for before. -/
def peek (expect : Expect) : Parser Lexed := do
  let state ← get
  match state.ahead with
  | some lexed => return lexed
  | none =>
    let lexed := state.reader.read expect
    set { state with ahead := some lexed }
    return lexed

/-- The kind of the next token. -/
def peekLexeme (expect : Expect) : Parser Lexeme := do
  return (← peek expect).lexeme

/-- Consumes the next token. -/
def next : Parser Lexed := do
  let lexed ← peek { }
  set (⟨lexed.after, none⟩ : ParseState)
  return lexed

/-- The comments and line continuations before a token, as pieces. -/
def extrasOf (lexed : Lexed) : Pieces := lexed.extras.map Piece.tree

/-- Consumes the next token as a leaf. -/
def leaf (kind : String) (named : Bool) : Parser Pieces := do
  let lexed ← next
  return extrasOf lexed ++ [.tree (Tree.leaf kind named lexed.span)]

/-- Consumes the next token as a mark. -/
def mark : Parser Pieces := do
  let lexed ← next
  return extrasOf lexed ++ [.mark lexed.span]

/-- Consumes only the first character of the next token, as an unnamed leaf. -/
def firstChar : Parser Pieces := do
  let lexed ← peek { }
  match lexed.start.head? with
  | none => failure
  | some c =>
    let stop := lexed.start.next
    set (⟨{ lexed.after with cursor := stop }, none⟩ : ParseState)
    let leaf := Tree.leaf (String.singleton c) false (lexed.start.spanTo stop)
    return extrasOf lexed ++ [.tree leaf]

/-- Says that the next token is the given sign. -/
def atSign (expect : Expect) (text : String) : Parser Bool := do
  match ← peekLexeme expect with
  | .sign found => return found == text
  | _ => return false

/-- Says that the next token is the given word. -/
def atWord (expect : Expect) (text : String) : Parser Bool := do
  match ← peekLexeme expect with
  | .word found => return found == text
  | _ => return false

/-- Consumes the given sign. -/
def sign (text : String) : Parser Pieces := do
  if ← atSign { } text then leaf text false else failure

/-- Fails if a comma is next. -/
def noComma : Parser Unit := do
  if ← atSign { } "," then failure

/-- Consumes one of the given signs, if one is next. -/
def anySign? (expect : Expect) (texts : List String) : Parser (Option Pieces) := do
  match ← peekLexeme expect with
  | .sign found => if texts.contains found then return some (← leaf found false) else return none
  | _ => return none

/-- Consumes the given word of the language. -/
def keyword (text : String) : Parser Pieces := do
  if ← atWord { } text then leaf text false else failure

/-- Consumes a name. -/
def identifier : Parser Pieces := do
  match ← peekLexeme { } with
  | .word text => if isIdentifierWord text then leaf "identifier" true else failure
  | _ => failure

/-- Repeats a step until it gives nothing. The count bounds the repetitions. -/
def repeatStep {α : Type} (step : α → Parser (Option α)) : Nat → α → Parser α
  | 0, _ => failure
  | count + 1, value => do
    match ← step value with
    | none => return value
    | some value => repeatStep step count value

/-- Repeats a step until it gives nothing. Every step consumes a token, so the text that is left
bounds the repetitions. -/
def extend {α : Type} (value : α) (step : α → Parser (Option α)) : Parser α := do
  let state ← get
  repeatStep step (state.reader.cursor.rest.length + 2) value

end Parser

/-- Says that an expression can start with the token. -/
def Lexeme.startsExpression : Lexeme → Bool
  | .opening _ => true
  | .integer => true
  | .float => true
  | .word text => isNameWord text || ["True", "False", "None", "not", "lambda"].contains text
  | .sign text => ["(", "[", "\x7b", "+", "-", "~", "*", "..."].contains text
  | _ => false

/-- Says that an operand of an operator can start with the token. -/
def Lexeme.startsPrimary : Lexeme → Bool
  | .word text => isNameWord text || ["True", "False", "None"].contains text
  | lexeme => lexeme.startsExpression

/-- The constructs of the grammar through which others are nested. -/
inductive Rule where
  /-- An expression in which the operators bind at least as tightly as the level says. -/
  | expression (level : Nat) (after : After)
  /-- What a comprehension runs over. -/
  | iterable (after : After)
  /-- An expression of arithmetic operators that bind at least as tightly as the level says. -/
  | arithmetic (level : Nat) (after : After)
  /-- An operand with the accesses, subscripts and calls that follow it. -/
  | operand (after : After)
  /-- What may stand right of an assignment. -/
  | assigned (after : After)
  /-- A type annotation. -/
  | typeHint (after : After) (constrained : Bool)
  /-- An expression in braces inside a string. -/
  | interpolation
  /-- A pattern of a match statement, names for its whole included. -/
  | casePattern (after : After)
  /-- A pattern of a match statement. -/
  | simplePattern (after : After)
  /-- A statement, or the statements of one line, inside a block or not. -/
  | statement (inBlock : Bool)
  /-- The statements of a block. -/
  | block

/-- The parsers for the nested constructs. -/
abbrev Grammar := Rule → Parser Pieces

end LambdaLayout.Python
