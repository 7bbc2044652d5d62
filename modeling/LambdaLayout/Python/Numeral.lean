import LambdaLayout.Text.Basic

/-!
The numerals of the source language. A numeral is read as far as it goes: the functions give the
number of characters taken from the start of a text, and zero when no numeral starts there.
-/

namespace LambdaLayout.Python.Numeral

/-- A run of digits in which single underscores may stand after a digit. -/
def digitsAfter (underscoreAllowed : Bool) : Text → Nat
  | [] => 0
  | c :: rest =>
    if c.isDigit then 1 + digitsAfter true rest
    else if c == '_' && underscoreAllowed then 1 + digitsAfter false rest
    else 0

/-- A run of decimal digits, which may end in an underscore. -/
def digits (text : Text) : Nat := digitsAfter false text

/-- A run of digits of another base, in which an underscore may stand before a digit. -/
def basedDigits (isDigit : Char → Bool) : Text → Nat
  | [] => 0
  | '_' :: c :: rest => if isDigit c then 2 + basedDigits isDigit rest else 0
  | c :: rest => if isDigit c then 1 + basedDigits isDigit rest else 0

/-- One more when the text starts with one of the characters. -/
def oneOf (choices : List Char) (text : Text) : Nat :=
  match text.head? with
  | some c => if choices.contains c then 1 else 0
  | none => 0

/-- A numeral with the mark of its base, as after `0x`. -/
def basedInteger (isDigit : Char → Bool) (text : Text) : Nat :=
  let n := basedDigits isDigit (text.drop 2)
  if n == 0 then 0 else 2 + n + oneOf ['l', 'L'] (text.drop (2 + n))

/-- A hexadecimal digit. -/
def isHexDigit (c : Char) : Bool :=
  c.isDigit || ('a' ≤ c && c ≤ 'f') || ('A' ≤ c && c ≤ 'F')

/-- An integer: decimal, possibly long or imaginary, or written in base 16, 8 or 2. -/
def integer (text : Text) : Nat :=
  let n := digits text
  let decimal := if n == 0 then 0 else n + oneOf ['l', 'L', 'j', 'J'] (text.drop n)
  let based :=
    match text with
    | '0' :: mark :: _ =>
      if mark == 'x' || mark == 'X' then basedInteger isHexDigit text
      else if mark == 'o' || mark == 'O' then basedInteger (fun c => '0' ≤ c && c ≤ '7') text
      else if mark == 'b' || mark == 'B' then basedInteger (fun c => c == '0' || c == '1') text
      else 0
    | _ => 0
  max decimal based

/-- An exponent, from its letter on. -/
def exponent (text : Text) : Nat :=
  if oneOf ['e', 'E'] text == 0 then 0
  else
    let sign := oneOf ['+', '-'] (text.drop 1)
    let n := digits (text.drop (1 + sign))
    if n == 0 then 0 else 1 + sign + n

/-- A number with a point or an exponent, possibly imaginary. -/
def float (text : Text) : Nat :=
  let whole := digits text
  let afterWhole := text.drop whole
  let mantissa :=
    match afterWhole with
    | '.' :: rest =>
      let fraction := digits rest
      if whole == 0 && fraction == 0 then 0 else whole + 1 + fraction
    | _ => if whole == 0 || exponent afterWhole == 0 then 0 else whole
  if mantissa == 0 then 0
  else
    let n := mantissa + exponent (text.drop mantissa)
    n + oneOf ['j', 'J'] (text.drop n)

end LambdaLayout.Python.Numeral
