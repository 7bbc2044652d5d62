import LambdaLayout.Text.Basic
import LambdaLayout.Text.Letter

/-!
Filters for log records: directives with commas between them. A directive is a level, or a target
that may be followed by a span in brackets, whose fields stand in braces, and by a level behind an
equals sign. Fields are told apart by their commas and braces only.
-/

namespace LambdaLayout.LogFilter

/-- Why a filter is not understood. -/
inductive Flaw where
  /-- A directive is not of the form required. -/
  | directive
  /-- A level is none of those there are. -/
  | level
  deriving DecidableEq

/-- The words of the flaw. -/
def Flaw.message : Flaw → Text
  | .directive => "invalid filter directive".toList
  | .level =>
    "error parsing level filter: expected one of \"off\", \"error\", \"warn\", \"info\", ".toList ++
      "\"debug\", \"trace\", or a number 0-5".toList

/-- The names of the levels. -/
def levelNames : List Text :=
  ["off", "error", "warn", "info", "debug", "trace"].map String.toList

/-- The number that decimal digits stand for. -/
def number? (digits : Text) : Option Nat :=
  if digits.isEmpty || !digits.all Char.isDigit then none
  else some (digits.foldl (fun n c => 10 * n + (c.toNat - 48)) 0)

/-- Says that a text is a level: a number up to five, a name in letters of either case, or
nothing. -/
def isLevel (text : Text) : Bool :=
  text.isEmpty || levelNames.contains (text.map Char.toLower) ||
    (number? ((List.isPrefixOf? ['+'] text).getD text)).any fun n => n ≤ 5

/-- Where in a directive the reader stands. -/
inductive State where
  /-- Before its first character. -/
  | start
  /-- In a level or a target. -/
  | levelOrTarget
  /-- In the name of a span. -/
  | span
  /-- In a field that starts at an offset. -/
  | field (offset : Nat)
  /-- After the fields. -/
  | fields
  /-- After the target and the span. -/
  | target
  /-- In a level that starts at an offset. -/
  | level (offset : Nat)
  deriving DecidableEq

/-- Says that a directive may start with a character that is no bracket. -/
def mayStart (c : Char) : Bool := c == '-' || c == ':' || c == '_' || Text.isLetterOrDigit c

/-- The state after one more character, which stands at an offset. -/
def step (state : State) (offset : Nat) (c : Char) : Option State :=
  match state with
  | .start => if c == '[' then some .span else if mayStart c then some .levelOrTarget else none
  | .levelOrTarget =>
    if c == '=' then some (.level (offset + 1))
    else if c == '[' then some .span
    else some .levelOrTarget
  | .span =>
    if c == ']' then some .target
    else if c == '\x7b' then some (.field (offset + 1))
    else some .span
  | .field first =>
    if c == '\x7d' then if first = offset then none else some .fields
    else some (.field first)
  | .fields => if c == ']' then some .target else none
  | .target => if c == '=' then some (.level (offset + 1)) else none
  | .level first => some (.level first)

/-- The state after the characters of a text that starts at an offset. -/
def read (state : State) (offset : Nat) : Text → Option State
  | [] => some state
  | c :: rest => (step state offset c).bind fun next => read next (offset + c.utf8Size) rest

/-- What is wrong with a directive. Blanks around it do not count, except that the offset of the
level is that in the directive without them. -/
def directiveFlaw? (directive : Text) : Option Flaw :=
  match read .start 0 (Text.trim directive) with
  | some .levelOrTarget => none
  | some .target => none
  | some (.level offset) =>
    match Text.splitAtByte directive offset with
    | some (_, level) => if isLevel level then none else some .level
    | none => some .level
  | _ => some .directive

/-- What is wrong with the first bad directive of a filter. Empty directives do not count. -/
def flaw? (filter : Text) : Option Flaw :=
  ((List.splitOn ',' filter).filter fun directive => !directive.isEmpty).findSome? directiveFlaw?

end LambdaLayout.LogFilter
