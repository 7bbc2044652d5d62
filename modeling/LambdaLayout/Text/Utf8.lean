import LambdaLayout.Text.Basic

/-!
Texts as bytes. Decoding reads one byte after the other and keeps in mind which bytes may follow the
first byte of a character, so that it stops at the first byte that cannot go on and knows how long
the beginning of a character before it was.
-/

namespace LambdaLayout

/-- Bytes in order. -/
abbrev Bytes := List UInt8

namespace Utf8

/-- The bytes of a text. -/
def encode (text : Text) : Bytes := text.flatMap String.utf8EncodeChar

/-- Why bytes are not a text. -/
structure Flaw where
  /-- Where the character starts that could not be read. -/
  index : Nat
  /-- The length of its beginning. Nothing when the bytes end inside the character. -/
  length : Option Nat
  deriving DecidableEq

/-- The words of the flaw. -/
def Flaw.message (flaw : Flaw) : Text :=
  match flaw.length with
  | some length =>
    "invalid utf-8 sequence of ".toList ++ Text.ofNat length ++ " bytes from index ".toList ++
      Text.ofNat flaw.index
  | none => "incomplete utf-8 byte sequence from index ".toList ++ Text.ofNat flaw.index

/-- The bytes that may continue a character. -/
def continuation : Nat × Nat := (0x80, 0xBF)

/-- The ranges of the bytes that must follow the first byte of a character of several bytes. No
character starts with a byte that has none. The ranges leave out overlong forms, surrogates and
numbers beyond the last character. -/
def followers (first : Nat) : List (Nat × Nat) :=
  if first < 0xC2 then []
  else if first ≤ 0xDF then [continuation]
  else if first = 0xE0 then [(0xA0, 0xBF), continuation]
  else if first = 0xED then [(0x80, 0x9F), continuation]
  else if first ≤ 0xEF then [continuation, continuation]
  else if first = 0xF0 then [(0x90, 0xBF), continuation, continuation]
  else if first ≤ 0xF3 then [continuation, continuation, continuation]
  else if first = 0xF4 then [(0x80, 0x8F), continuation, continuation]
  else []

/-- The part of the character's number that its first byte holds. -/
def leadValue (first : Nat) : Nat :=
  if first < 0xE0 then first - 0xC0 else if first < 0xF0 then first - 0xE0 else first - 0xF0

/-- A character of which some bytes have been read. -/
structure Opened where
  /-- Where it starts. -/
  start : Nat
  /-- The number read so far. -/
  value : Nat
  /-- The range of the next byte. -/
  next : Nat × Nat
  /-- The ranges of the bytes after that. -/
  later : List (Nat × Nat)

/-- Decodes bytes from an index on, possibly in the middle of a character. -/
def decodeFrom (index : Nat) (opened : Option Opened) : Bytes → Except Flaw Text
  | [] =>
    match opened with
    | none => .ok []
    | some part => .error ⟨part.start, none⟩
  | byte :: rest =>
    let n := byte.toNat
    match opened with
    | none =>
      if n < 0x80 then do
        let text ← decodeFrom (index + 1) none rest
        return Char.ofNat n :: text
      else
        match followers n with
        | [] => .error ⟨index, some 1⟩
        | next :: later =>
          decodeFrom (index + 1) (some ⟨index, leadValue n, next, later⟩) rest
    | some part =>
      if n < part.next.1 || part.next.2 < n then .error ⟨part.start, some (index - part.start)⟩
      else
        let value := part.value * 64 + (n - 0x80)
        match part.later with
        | next :: later => decodeFrom (index + 1) (some ⟨part.start, value, next, later⟩) rest
        | [] => do
          let text ← decodeFrom (index + 1) none rest
          return Char.ofNat value :: text

/-- The text of bytes. -/
def decode (bytes : Bytes) : Except Flaw Text := decodeFrom 0 none bytes

end Utf8

end LambdaLayout
