import LambdaLayout.Python.Tree

/-!
A cursor is a place in a source together with the text that follows it. It moves forward one
character at a time and keeps the byte offset and the position in step.
-/

namespace LambdaLayout.Python

/-- A place in a source and the text from there on. -/
structure Cursor where
  /-- The text not yet read. -/
  rest : Text
  /-- The number of bytes read. -/
  byte : Nat
  /-- The position reached. -/
  position : Position
  deriving Inhabited

namespace Cursor

/-- The cursor at the start of a text. -/
def start (text : Text) : Cursor := ⟨text, 0, Position.origin⟩

/-- The next character. -/
def head? (cursor : Cursor) : Option Char := cursor.rest.head?

/-- The cursor past the next character, or where it is at the end. -/
def next (cursor : Cursor) : Cursor :=
  match cursor.rest with
  | [] => cursor
  | c :: rest => ⟨rest, cursor.byte + c.utf8Size, cursor.position.after c⟩

/-- The cursor past a number of characters. -/
def skip : Nat → Cursor → Cursor
  | 0, cursor => cursor
  | n + 1, cursor => skip n cursor.next

/-- The cursor past the characters of a class. -/
def skipWhile (p : Char → Bool) (cursor : Cursor) : Cursor :=
  skip (cursor.rest.takeWhile p).length cursor

/-- The span between two cursors over one source. -/
def spanTo (first last : Cursor) : Span :=
  ⟨first.byte, last.byte, first.position, last.position⟩

/-- The empty span at the cursor. -/
def here (cursor : Cursor) : Span := cursor.spanTo cursor

/-- Says that the text ahead begins so. -/
def startsWith (text : Text) (cursor : Cursor) : Bool := text.isPrefixOf cursor.rest

end Cursor

end LambdaLayout.Python
