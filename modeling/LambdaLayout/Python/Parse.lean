import LambdaLayout.Python.Compound

/-!
Parsing a source. The rules of the grammar are tied together up to a depth that the length of the
source bounds. A source that does not follow the grammar gets a module with a single repair below
it: a closing bracket that is missing, where one more bracket would do, or else an unreadable node
over all its text.
-/

namespace LambdaLayout.Python

open LambdaLayout.Python.Parser
open LambdaLayout.Text (isIdentifierContinue)

/-- The rules of the grammar, nested at most so deep. -/
def grammar : Nat → Grammar
  | 0, _ => failure
  | depth + 1, rule =>
    let below : Grammar := grammar depth
    match rule with
    | .expression level after => expression below level after (.expression 1 after)
    | .iterable after => expression below 2 after (.iterable after)
    | .arithmetic level after => arithmetic below level after
    | .operand after => operand below after
    | .assigned after => assigned below after
    | .typeHint after constrained => typeHint below after constrained
    | .interpolation => interpolation below
    | .casePattern after => casePattern below after
    | .simplePattern after => simplePattern below after
    | .statement inBlock => statement below inBlock
    | .block => block below

/-- Reads statements to the end of the source. -/
def statements (rules : Grammar) : Parser Pieces := do
  let (pieces, _) ← extend (([] : Pieces), false) fun (pieces, ended) => do
    if ended then return none
    match ← peekLexeme (statementStart false) with
    | .finish =>
      let lexed ← next
      return some (pieces ++ extrasOf lexed, true)
    | _ => return some (pieces ++ (← rules (.statement false)), false)
  return pieces

/-- The depth to which the constructs of a source can be nested. -/
def depthOf (source : Text) : Nat := 12 * source.length + 24

/-- The cursor at the end of a text. -/
def endOf (source : Text) : Cursor := (Cursor.start source).skip source.length

/-- A module over the source from its first piece on. -/
def moduleOf (source : Text) (pieces : Pieces) : Tree :=
  let stop := endOf source
  let first := (pieces.head?.map Piece.span).getD stop.here
  .node { kind := "module", named := true, span := first.through stop.here }
    (pieces.filterMap Piece.tree?)

/-- The text of a source from its first token to its last, for a source that could not be read. -/
def unreadable (source : Text) : Tree :=
  let start := (Cursor.start source).skipWhile isGap
  let stop := start.skip ((source.reverse.dropWhile isGap).length -
    (source.takeWhile isGap).length)
  .node { kind := "ERROR", named := true, standing := .unreadable, span := start.spanTo stop } []

/-- The tree of a source that follows the grammar. -/
def read? (source : Text) : Option Tree :=
  ((statements (grammar (depthOf source))).run ⟨Reader.start source, none⟩).map fun read =>
    moduleOf source read.1

/-- The kinds of brackets. -/
def brackets : List (Char × Char) := [('(', ')'), ('[', ']'), ('\x7b', '\x7d')]

/-- The kind of brackets of which a text closes one too few, if it closes all of the other kinds. -/
def lacking? (source : Text) : Option (Char × Char) :=
  match brackets.filter fun kind => source.count kind.1 != source.count kind.2 with
  | [kind] => if source.count kind.1 == source.count kind.2 + 1 then some kind else none
  | _ => none

/-- Says that a token may end after that many characters of a source: no blank stands before the
place, and no word goes on there. -/
def isJoint (source : Text) (width : Nat) : Bool :=
  (source[width - 1]?).any fun c => !isGap c &&
    !(isIdentifierContinue c && (source[width]?).any isIdentifierContinue)

/-- The line that holds a place. -/
def lineAt (source : Text) (width : Nat) : Text :=
  let goesOn := fun c => c != '\n'
  ((source.take width).reverse.takeWhile goesOn).reverse ++ (source.drop width).takeWhile goesOn

/-- The places at which a bracket may be missing, as the numbers of characters before them: those
after the tokens of the lines that leave a bracket of the kind open. -/
def openPlaces (source : Text) (kind : Char × Char) : List Nat :=
  (List.range' 1 source.length).filter fun width =>
    let line := lineAt source width
    isJoint source width && decide (line.count kind.2 < line.count kind.1)

/-- The closing bracket that a source lacks, at the last place where the source follows the grammar
once the bracket is put there. A bracket that nothing but the end of the source would follow is left
open and not missing. -/
def missing? (source : Text) : Option Tree := do
  let kind ← lacking? source
  let width ← (openPlaces source kind).reverse.find? fun width =>
    (read? (source.insertIdx width kind.2)).isSome
  let place := (Cursor.start source).skip width
  match ((Reader.mk place [0] false).read { }).lexeme with
  | .finish => none
  | _ =>
    let kind := String.singleton kind.2
    some (.node { kind := kind, named := false, standing := .missing, span := place.here } [])

/-- The only node below the module of a source that does not follow the grammar. -/
def repair (source : Text) : Tree := (missing? source).getD (unreadable source)

/-- The tree of a source. -/
def treeOf (source : Text) : Tree :=
  (read? source).getD (moduleOf source [.tree (repair source)])

/-- Parses a source. Of two sources with errors the trees differ in their complaints only: neither
has a node for what could be read around the place in question. -/
def parse (source : Text) : Parsed := ⟨source, treeOf source⟩

end LambdaLayout.Python
