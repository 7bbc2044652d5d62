/-!
Text is a list of characters, and a place in it is a count of UTF-8 bytes from its start. A cut is
possible only between two characters, so cutting a text is a partial operation. The splitting and
trimming functions used by the readers of this project are collected here.
-/

namespace LambdaLayout

/-- A text, character by character. -/
abbrev Text := List Char

namespace Text

/-- The number of bytes of the text in UTF-8. -/
def byteLength : Text → Nat
  | [] => 0
  | c :: rest => c.utf8Size + byteLength rest

/-- The text before and after its first bytes, as many as asked for. There is no answer when the
text is shorter, or when the cut would fall inside a character. -/
def splitAtByte : Text → Nat → Option (Text × Text)
  | text, 0 => some ([], text)
  | [], _ + 1 => none
  | c :: rest, n + 1 =>
    if c.utf8Size ≤ n + 1 then
      (splitAtByte rest (n + 1 - c.utf8Size)).map fun parts => (c :: parts.1, parts.2)
    else none

/-- The characters between two byte offsets. -/
def slice? (text : Text) (start stop : Nat) : Option Text :=
  if start ≤ stop then do
    let parts ← splitAtByte text start
    let inner ← splitAtByte parts.2 (stop - start)
    return inner.1
  else none

/-- Blanks, in the sense of the Unicode property White_Space. -/
def isBlank (c : Char) : Bool :=
  let n := c.toNat
  (9 ≤ n && n ≤ 13) || n == 0x20 || n == 0x85 || n == 0xA0 || n == 0x1680 ||
    (0x2000 ≤ n && n ≤ 0x200A) || n == 0x2028 || n == 0x2029 || n == 0x202F || n == 0x205F ||
    n == 0x3000

/-- The text without its leading blanks. -/
def trimStart (text : Text) : Text := text.dropWhile isBlank

/-- The text without its trailing blanks. -/
def trimEnd (text : Text) : Text := (text.reverse.dropWhile isBlank).reverse

/-- The text without leading and trailing blanks. -/
def trim (text : Text) : Text := trimEnd (trimStart text)

/-- The text before and after the first occurrence of the separator. -/
def splitOnce (separator : Char) : Text → Option (Text × Text)
  | [] => none
  | c :: rest =>
    if c == separator then some ([], rest)
    else (splitOnce separator rest).map fun parts => (c :: parts.1, parts.2)

/-- The lines of the text, each with the line feed that ends it. The last line may have none. -/
def linesWithEnds : Text → List Text
  | [] => []
  | c :: rest =>
    if c == '\n' then [c] :: linesWithEnds rest
    else
      match linesWithEnds rest with
      | [] => [[c]]
      | line :: lines => (c :: line) :: lines

/-- A line without its line feed and the carriage return before that line feed. -/
def dropLineEnd (line : Text) : Text :=
  match List.isSuffixOf? ['\n'] line with
  | none => line
  | some body => (List.isSuffixOf? ['\r'] body).getD body

/-- The lines of the text without their ends. -/
def lines (text : Text) : List Text := (linesWithEnds text).map dropLineEnd

/-- The decimal form of a number. -/
def ofNat (n : Nat) : Text := Nat.toDigits 10 n

end Text

end LambdaLayout
