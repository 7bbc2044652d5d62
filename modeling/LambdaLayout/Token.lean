import LambdaLayout.Python.Tree
import LambdaLayout.Text.Letter

/-!
The tokens of a parsed source. They are the leaves of its tree, strings and comments taken whole,
and between them the blanks and line breaks that the tree leaves out, so that the texts of the
tokens, put together, are the source. Each token starts at the position where the one before it
ended.
-/

namespace LambdaLayout

open LambdaLayout.Python (Parsed)

/-- The lexical category of a token. -/
inductive TokenKind where
  /-- Names and words of the language. -/
  | name
  /-- Numerals. -/
  | number
  /-- String literals. -/
  | string
  | openParen
  | closeParen
  | openBracket
  | closeBracket
  | openBrace
  | closeBrace
  | colon
  | comma
  | dot
  | semicolon
  /-- Any other operator or delimiter. -/
  | operator
  | comment
  /-- A line break. -/
  | newline
  /-- Blanks and line continuations. -/
  | whitespace
  deriving DecidableEq, Inhabited

namespace TokenKind

/-- The name of the category in messages. -/
def display : TokenKind → String
  | name => "Name"
  | number => "Number"
  | string => "String"
  | openParen => "LPar"
  | closeParen => "RPar"
  | openBracket => "LSqb"
  | closeBracket => "RSqb"
  | openBrace => "LBrace"
  | closeBrace => "RBrace"
  | colon => "Colon"
  | comma => "Comma"
  | dot => "Dot"
  | semicolon => "Semi"
  | operator => "Op"
  | comment => "Comment"
  | newline => "Newline"
  | whitespace => "Whitespace"

/-- Says that tokens of the category are told apart by their text. -/
def isNamed (kind : TokenKind) : Bool := kind == name

/-- Says that the category opens a pair of brackets. -/
def opens (kind : TokenKind) : Bool :=
  kind == openParen || kind == openBracket || kind == openBrace

/-- Says that the category closes a pair of brackets. -/
def closes (kind : TokenKind) : Bool :=
  kind == closeParen || kind == closeBracket || kind == closeBrace

/-- Says that the category is blank space, a line break or a comment. -/
def isInsignificant (kind : TokenKind) : Bool :=
  kind == whitespace || kind == newline || kind == comment

/-- The category of a piece of punctuation that has one of its own. -/
def ofPunctuation? : Text → Option TokenKind
  | ['('] => some openParen
  | [')'] => some closeParen
  | ['['] => some openBracket
  | [']'] => some closeBracket
  | ['\x7b'] => some openBrace
  | ['\x7d'] => some closeBrace
  | [':'] => some colon
  | [','] => some comma
  | ['.'] => some dot
  | [';'] => some semicolon
  | _ => none

/-- The category of a leaf of the tree, by its kind and its text. -/
def ofLeaf (kind : String) (text : Text) : TokenKind :=
  if kind == "comment" then comment
  else if kind == "string" then string
  else if kind == "integer" || kind == "float" then number
  else
    match ofPunctuation? text with
    | some found => found
    | none => if Text.isName text then name else operator

end TokenKind

/-- A token: its category, its text and its place. -/
structure Token where
  /-- The lexical category. -/
  kind : TokenKind
  /-- The characters of the token. -/
  text : Text
  /-- The place of the token. -/
  span : Span
  deriving DecidableEq, Inhabited

namespace Token

/-- Says that the token is blank space, a line break or a comment. -/
def isInsignificant (token : Token) : Bool := token.kind.isInsignificant

/-- Puts characters in front of the pieces of a gap. They join the blanks that come first. -/
def joinBlanks (front : Text) : List (TokenKind × Text) → List (TokenKind × Text)
  | (.whitespace, text) :: rest => (.whitespace, front ++ text) :: rest
  | pieces => (.whitespace, front) :: pieces

/-- The pieces of the text between two leaves: its line breaks, and the longest runs of anything
else. A line break after a backslash belongs to the run. -/
def splitGap : Text → List (TokenKind × Text)
  | [] => []
  | '\r' :: '\n' :: rest => (.newline, ['\r', '\n']) :: splitGap rest
  | '\n' :: rest => (.newline, ['\n']) :: splitGap rest
  | '\r' :: rest => (.newline, ['\r']) :: splitGap rest
  | '\\' :: '\r' :: '\n' :: rest => joinBlanks ['\\', '\r', '\n'] (splitGap rest)
  | '\\' :: '\n' :: rest => joinBlanks ['\\', '\n'] (splitGap rest)
  | '\\' :: '\r' :: rest => joinBlanks ['\\', '\r'] (splitGap rest)
  | c :: rest => joinBlanks [c] (splitGap rest)

/-- The position after a text. A line feed, and a carriage return without one, starts a row; the
carriage return of a pair takes no column. -/
def advance (position : Position) : Text → Position
  | [] => position
  | '\r' :: '\n' :: rest => advance ⟨position.row + 1, 0⟩ rest
  | c :: rest =>
    if c == '\n' || c == '\r' then advance ⟨position.row + 1, 0⟩ rest
    else advance ⟨position.row, position.column + c.utf8Size⟩ rest

/-- The tokens of the pieces of a gap, from a place on. -/
def ofPieces (byte : Nat) (position : Position) : List (TokenKind × Text) → List Token
  | [] => []
  | (kind, text) :: rest =>
    let stop := byte + Text.byteLength text
    let after := advance position text
    ⟨kind, text, ⟨byte, stop, position, after⟩⟩ :: ofPieces stop after rest

/-- The tokens of the text between two leaves. -/
def ofGap (byte : Nat) (position : Position) (gap : Text) : List Token :=
  ofPieces byte position (splitGap gap)

/-- Where the last of the tokens ends, or the given position if there is none. -/
def endPosition (position : Position) (tokens : List Token) : Position :=
  (tokens.getLast?.map fun token => token.span.stop).getD position

/-- Says that a leaf has no text of its own to give: it is empty, overlaps what was read, or is a
line continuation. -/
def isSkipped (byte : Nat) (leaf : Python.Tree) : Bool :=
  leaf.span.endByte ≤ leaf.span.startByte || leaf.span.startByte < byte ||
    leaf.kind == "line_continuation"

/-- The tokens of the source from a place on, given the leaves still to come. A leaf that does not
lie in the source, or does not start and end between characters, is left out. -/
def ofLeaves (source : Text) (byte : Nat) (position : Position) : List Python.Tree → List Token
  | [] =>
    match Text.slice? source byte (Text.byteLength source) with
    | some gap => ofGap byte position gap
    | none => []
  | leaf :: rest =>
    if isSkipped byte leaf then ofLeaves source byte position rest
    else
      match Text.slice? source byte leaf.span.startByte with
      | none => ofLeaves source byte position rest
      | some gap =>
        let blanks := ofGap byte position gap
        let start := endPosition position blanks
        match Text.slice? source leaf.span.startByte leaf.span.endByte with
        | none => blanks ++ ofLeaves source leaf.span.startByte start rest
        | some text =>
          let span : Span := { leaf.span with start := start }
          blanks ++ ⟨TokenKind.ofLeaf leaf.kind text, text, span⟩ ::
            ofLeaves source leaf.span.endByte leaf.span.stop rest

end Token

mutual

/-- The leaves of a tree in source order. Strings and comments count as leaves. -/
def Python.Tree.leaves : Python.Tree → List Python.Tree
  | .node label children =>
    if children.isEmpty || label.kind == "string" || label.kind == "comment" then
      [.node label children]
    else Python.Tree.leavesOf children

/-- The leaves of several trees, one after the other. -/
def Python.Tree.leavesOf : List Python.Tree → List Python.Tree
  | [] => []
  | tree :: rest => Python.Tree.leaves tree ++ Python.Tree.leavesOf rest

end

/-- The tokens of a parsed source. -/
def Token.tokenize (parsed : Parsed) : List Token :=
  Token.ofLeaves parsed.source 0 Position.origin parsed.tree.leaves

end LambdaLayout
