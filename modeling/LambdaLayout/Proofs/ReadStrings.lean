import LambdaLayout.Proofs.ReadLists

/-!
String literals. A string counts as a leaf, so what is read between its quotes has only to move the
parser forward: the string reaches from its opening to the quotes that close it. The rules of the
grammar are taken as given here, with what they promise.
-/

namespace LambdaLayout.Python

open LambdaLayout.Python.Tree
open LambdaLayout.Python.Parser

/-- The parser moved forward in the source. -/
def Moved (source : Text) (offset : Nat) (next : ParseState) : Prop :=
  next.Valid source ∧ offset ≤ next.offset

/-- Pieces that were read, with a token other than a comment among them. -/
def Whole (source : Text) (grade : Grade) (offset : Nat) (pieces : Pieces) (next : ParseState) :
    Prop :=
  Reach source grade offset pieces next ∧ pieces.isHeard = true

/-- Pieces that were read, and that open with a named node. -/
def Opened (source : Text) (grade : Grade) (offset : Nat) (pieces : Pieces) (next : ParseState) :
    Prop :=
  Reach source grade offset pieces next ∧ pieces.opensNamed = true

section

variable {source : Text} {grade : Grade} {offset : Nat} {pieces more : Pieces}
  {state next : ParseState}

theorem Parser.Single.opened (single : Single source grade offset pieces state) :
    Opened source grade offset pieces state := by
  obtain ⟨tree, one, part⟩ := single
  obtain ⟨lead, split, skipped⟩ := one.lead
  refine ⟨one.toReach, ?_⟩
  rw [split, Pieces.opensNamed, Pieces.front_of_extras skipped, Pieces.front?, Pieces.trees_tree,
    List.find?_cons_of_pos (by rw [part.solid]; rfl)]
  exact part.named

theorem Opened.append (opened : Opened source grade offset pieces state)
    (rest : Reach source grade state.offset more next) :
    Opened source grade offset (pieces ++ more) next :=
  ⟨opened.1.append rest, Pieces.opensNamed_append opened.2 more⟩

theorem Opened.stays (opened : Opened source grade offset pieces state)
    (stays : Stays source state next) : Opened source grade offset pieces next :=
  ⟨opened.1.stays stays, opened.2⟩

theorem Parser.Single.whole (single : Single source grade offset pieces state) :
    Whole source grade offset pieces state := by
  obtain ⟨tree, one, -⟩ := single
  exact ⟨one.toReach, one.isHeard⟩

theorem Parser.Single.stays (single : Single source grade offset pieces state)
    (stays : Stays source state next) : Single source grade offset pieces next := by
  obtain ⟨tree, one, part⟩ := single
  exact ⟨tree, one.stays stays, part⟩

theorem Parser.Single.of_header (single : Single source .header offset pieces state) :
    Single source grade offset pieces state := by
  obtain ⟨tree, one, part⟩ := single
  exact ⟨tree, one.of_header, part⟩

theorem Parser.Reads.whole {text : String} (read : Reads source grade text offset pieces state) :
    Whole source grade offset pieces state := by
  obtain ⟨tree, one, -⟩ := read
  exact ⟨one.toReach, one.isHeard⟩

namespace Whole

theorem valid (whole : Whole source grade offset pieces state) : state.Valid source := whole.1.valid

theorem stays (whole : Whole source grade offset pieces state) (stays : Stays source state next) :
    Whole source grade offset pieces next := ⟨whole.1.stays stays, whole.2⟩

theorem of_header (whole : Whole source .header offset pieces state) :
    Whole source grade offset pieces state := ⟨whole.1.of_header, whole.2⟩

theorem repaired (whole : Whole source .matched offset pieces state) :
    Whole source .repaired offset pieces state := ⟨whole.1.repaired, whole.2⟩

/-- What comes next is added at the end. -/
theorem append (whole : Whole source grade offset pieces state)
    (rest : Reach source grade state.offset more next) :
    Whole source grade offset (pieces ++ more) next :=
  ⟨whole.1.append rest, by rw [Pieces.isHeard_append, whole.2, Bool.true_or]⟩

/-- A node closed over pieces is a single tree. -/
theorem ofKind (whole : Whole source grade offset pieces state) (kind : String)
    (free : (constructs ++ atoms).contains kind = false) (known : grade ≠ .loose) :
    OfKind source grade kind offset (pieces.node kind) state :=
  whole.1.node known whole.2 free

theorem node (whole : Whole source grade offset pieces state) (kind : String)
    (free : (constructs ++ atoms).contains kind = false) (known : grade ≠ .loose) :
    Single source grade offset (pieces.node kind) state := (whole.ofKind kind free known).single

end Whole

theorem Parser.Single.role (single : Single source grade offset pieces state) (name : String) :
    Single source grade offset (pieces.role name) state := by
  obtain ⟨tree, one, part⟩ := single
  refine ⟨_, one.role name, ?_, (one.role name).solid, (one.role name).heard⟩
  cases tree
  exact part.named

variable {opening closing : String} {opened inner : Pieces} {middle last : ParseState}

/-- What is read between brackets. -/
theorem Whole.bracketed (pair : (opening, closing) ∈ bracketPairs)
    (first : Reads source .loose opening offset opened state)
    (between : Reach source .matched state.offset inner middle)
    (shut : Reads source .loose closing middle.offset more next) :
    Whole source .header offset (opened ++ inner ++ more) next := by
  refine ⟨?_, by simp [first.whole.2]⟩
  rw [List.append_assoc]
  exact Ending.brackets pair first (.after between (.of_sign shut))

/-- A list in brackets whose first part was read. -/
theorem restOfList_whole {part : Parser Pieces} (pair : (opening, closing) ∈ bracketPairs)
    (reads : ∀ state, state.Valid source → Gives part state (Reach source .matched state.offset))
    (first : Reads source .loose opening offset opened state)
    (between : Reach source .matched state.offset inner middle) :
    Gives (restOfList closing part (opened ++ inner)) middle (Whole source .header offset) := by
  refine (restOfList_ends reads between.valid _).mono fun result next read => ?_
  obtain ⟨tail, rfl, ending⟩ := read
  refine ⟨?_, by simp [first.whole.2]⟩
  rw [List.append_assoc]
  exact Ending.brackets pair first (.after between ending)

end

/-- What each rule of the grammar promises. -/
def Rule.Promise (source : Text) (offset : Nat) : Rule → Pieces → ParseState → Prop
  | .expression _ _ | .iterable _ | .arithmetic _ _ | .operand _ => Single source .header offset
  | .typeHint _ _ => Single source .matched offset
  | .assigned _ | .casePattern _ | .simplePattern _ => Whole source .matched offset
  | .interpolation => fun _ => Moved source offset
  | .statement _ | .block => Opened source .repaired offset

/-- Every rule keeps its promise. -/
def Obeys (source : Text) (grammar : Grammar) : Prop :=
  ∀ rule state, state.Valid source → Gives (grammar rule) state (rule.Promise source state.offset)

section

variable {source : Text} {grammar : Grammar} {state : ParseState}

theorem Reach.moved {grade : Grade} {offset : Nat} {pieces : Pieces}
    (reach : Reach source grade offset pieces state) : Moved source offset state :=
  ⟨reach.valid, reach.laid.ordered⟩

theorem Stays.moved {next : ParseState} (stays : Stays source state next) :
    Moved source state.offset next := ⟨stays.valid, Nat.le_of_eq stays.offset.symm⟩

theorem Moved.trans {offset : Nat} {next : ParseState} (first : Moved source offset state)
    (second : Moved source state.offset next) : Moved source offset next :=
  ⟨second.1, Nat.le_trans first.2 second.2⟩

/-- Moving to a cursor that is ahead. -/
theorem moveTo_gives {cursor : Cursor} (within : cursor.Within source) :
    Gives (moveTo cursor) state fun _ next => next.Valid source ∧ next.reader.cursor = cursor :=
  Gives.modify ⟨⟨within, nofun⟩, rfl⟩

theorem consume_gives {start : Cursor} (kind : String) (named : Bool) (width : Nat)
    (within : start.Within source) :
    Gives (consume kind named start width) state fun pieces next =>
      next.Valid source ∧ next.reader.cursor = start.skip width ∧
        pieces = [.tree (Tree.leaf kind named (start.spanTo next.reader.cursor))] := by
  refine (moveTo_gives ((Cursor.Reads.skip width start).within within)).bind fun _ next moved => ?_
  refine .pure ⟨moved.1, moved.2, ?_⟩
  rw [moved.2]

private theorem moved_to {cursor : Cursor} {next : ParseState} {text : Text} (valid : next.Valid source)
    (is : next.reader.cursor = cursor) (reads : state.reader.cursor.Reads text cursor) :
    Moved source state.offset next := by
  refine ⟨valid, ?_⟩
  rw [ParseState.offset, ParseState.offset, is]
  exact reads.ordered

theorem insideString_gives (obeys : Obeys source grammar) (valid : state.Valid source) :
    Gives (insideString grammar state.reader.cursor) state
      fun _ next => Moved source state.offset next := by
  have gap := Cursor.Reads.skipWhile isGap state.reader.cursor
  have within := gap.within valid.within
  rw [insideString]
  dsimp only
  split
  · refine (moveTo_gives within).bind fun _ next moved => ?_
    refine (obeys .interpolation next moved.1).mono fun _ last read => ?_
    exact (moved_to moved.1 moved.2 gap).trans read
  · refine (moveTo_gives ((Cursor.Reads.skipWhile _ _).within within)).bind fun _ next moved => ?_
    exact .pure (moved_to moved.1 moved.2 (gap.trans (.skipWhile _ _)))
  · split
    · refine (consume_gives _ _ _ within).mono fun _ next moved => ?_
      exact moved_to moved.1 moved.2.1 (gap.trans (.skip _ _))
    · split
      · refine (moveTo_gives ((Cursor.Reads.skip _ _).within within)).bind fun _ next moved => ?_
        exact .pure (moved_to moved.1 moved.2 (gap.trans (.skip _ _)))
      · exact .failure
  · exact .failure

/-- The pieces of a string, from its opening on. -/
private def opened (lexed : Lexed) (inner : Pieces) : Pieces :=
  extrasOf lexed ++ .tree (Tree.leaf "string_start" true lexed.span) :: inner

/-- The last piece of a string ends where the parser stands. -/
private def Quoted (lexed : Lexed) (pieces : Pieces) (next : ParseState) : Prop :=
  ∃ (inner : Pieces) (kind : String) (span : Span),
    pieces = opened lexed (inner ++ [.tree (Tree.leaf kind true span)]) ∧
      span.endByte = next.offset ∧ span.stop = next.reader.cursor.position

/-- A string from its opening to its closing quotes is a single leaf. -/
private theorem Quoted.single {lexed : Lexed} {cursor : Cursor} {delimiter : Delimiter}
    {pieces : Pieces} (given : lexed.From source cursor) (is : lexed.lexeme = .opening delimiter)
    (moved : Moved source lexed.after.cursor.byte state) (quoted : Quoted lexed pieces state) :
    Single source .header cursor.byte (Pieces.node "string" pieces) state := by
  obtain ⟨inner, kind, span, rfl, ends, stops⟩ := quoted
  obtain ⟨text, reads, covers⟩ := given.text
  rw [is] at covers
  obtain ⟨more, further⟩ := (reads.within given.within).reads moved.1.within moved.2
  obtain ⟨before, whole, place⟩ := (reads.trans further).place given.within
  obtain ⟨middle, extras, gap, -, fits⟩ := extras_laid given
  have skipped := fun tree mem => (given.extra tree mem).1
  let closing : Piece := .tree (Tree.leaf kind true span)
  let label : Label := ⟨"string", true, none, .sound, lexed.start.spanTo state.reader.cursor⟩
  let children := Pieces.trees (.tree (Tree.leaf "string_start" true lexed.span) :: (inner ++ [closing]))
  have node : Pieces.node "string" (opened lexed (inner ++ [closing])) =
      extrasOf lexed ++ [.tree (.node label children)] := by
    have spans : lexed.span.through span = lexed.start.spanTo state.reader.cursor := by
      rw [Span.through, ends, stops]
      rfl
    have last : ∀ first : Piece, (first :: (inner ++ [closing])).getLast (by simp) = closing := by
      intro first
      rw [List.getLast_cons (by simp), List.getLast_concat]
    rw [Pieces.node, opened, extrasOf, Pieces.close_eq "string" true skipped rfl, last]
    exact congrArg (fun place => _ ++ [Piece.tree (.node ⟨"string", true, none, .sound, place⟩ _)])
      spans
  have sits : Sits source (.node label children) := by
    refine .leaf (by simp [isClosed, label]) whole place
      { simple := fun listed => absurd listed (by decide : ¬ constructs.contains "string" = true)
        sign := Bool.noConfusion
        plain := fun _ => ⟨rfl, rfl⟩
        fresh := ?_
        identifier := fun is => absurd is (by decide : "string" ≠ "identifier")
        extra := fun is => absurd is (by decide :
          ¬ ("string" = "comment" ∨ "string" = "line_continuation"))
        comment := fun is => absurd is (by decide : "string" ≠ "comment")
        continuation := fun is => absurd is (by decide : "string" ≠ "line_continuation") }
      fun other => absurd rfl other
    obtain ⟨c, rest, first⟩ := List.exists_cons_of_ne_nil covers.1
    have fresh := covers.2
    rw [first] at fresh ⊢
    exact fresh
  have closed : isClosed (.node label children) = true := by simp [isClosed, label]
  have heard : isHeard (.node label children) = true := by
    refine isHeard_of_closed closed rfl ?_
    have positive := Text.byteLength_pos covers.1
    have width := reads.byte
    have reached : lexed.after.cursor.byte ≤ state.reader.cursor.byte := moved.2
    show lexed.start.byte < state.reader.cursor.byte
    omega
  refine ⟨.node label children, ⟨⟨moved.1, ?_, ?_, ?_⟩, rfl, heard, lexed.extras, node, skipped⟩,
    rfl, rfl, heard⟩
  · rw [node]
    exact extras.append (.tree gap sits Bool.noConfusion .nil)
  · rw [node, Pieces.trees_append]
    exact Grade.fits_append fits (Inert.fits
      ⟨rfl, rfl, TokenKind.noConfusion, fun is => TokenKind.noConfusion is.1⟩ closed)
  · rw [node, Pieces.trees_append]
    exact .prepend _ (endsSolid_of_closed closed rfl) heard

theorem oneString_gives (obeys : Obeys source grammar) {delimiter : Delimiter}
    (valid : state.Valid source) (sees : state.Sees (.opening delimiter)) :
    Gives (oneString grammar delimiter) state (Single source .header state.offset) := by
  refine (leaf_reads "string_start" true valid sees).bind fun opening first read => ?_
  obtain ⟨lexed, rfl, is, given, rfl⟩ := read
  have start : extrasOf lexed ++ [.tree (Tree.leaf "string_start" true lexed.span)] =
      opened lexed [] := rfl
  rw [start]
  refine (Gives.extendTo
    (fun (sofar : Pieces × Bool) now => Moved source lexed.after.cursor.byte now ∧
      (∃ inner, sofar.1 = opened lexed inner) ∧ (sofar.2 = true → Quoted lexed sofar.1 now))
    (fun sofar now => Moved source lexed.after.cursor.byte now ∧ Quoted lexed sofar.1 now)
    ⟨⟨valid_after given, Nat.le_refl _⟩, ⟨[], rfl⟩, Bool.noConfusion⟩ ?_).bind
    fun result next read => .pure (read.2.single given is read.1)
  rintro ⟨pieces, closed⟩ now ⟨moved, ⟨inner, grown⟩, quoted⟩
  cases grown
  have longer : ∀ more, opened lexed inner ++ more = opened lexed (inner ++ more) := by
    simp [opened]
  dsimp only
  split
  · next shut => exact .pure ⟨moved, quoted shut⟩
  · have began : Gives MonadState.get now fun found next => now = found ∧ now = next :=
      Gives.get ⟨rfl, rfl⟩
    refine began.bind ?_
    rintro _ _ ⟨rfl, rfl⟩
    -- Whatever moves the parser forward leaves the string open.
    have goes_on : ∀ {more : Pieces} {next : ParseState}, Moved source now.offset next →
        Moved source lexed.after.cursor.byte next ∧
          (∃ inner', opened lexed inner ++ more = opened lexed inner') ∧
          (false = true → Quoted lexed (opened lexed inner ++ more) next) :=
      fun further => ⟨moved.trans further, ⟨_, longer _⟩, Bool.noConfusion⟩
    split
    · refine (consume_gives _ _ _ moved.1.within).bind fun more next read => .pure ?_
      exact goes_on (moved_to read.1 read.2.1 (.skip _ _))
    · refine (consume_gives _ _ _ moved.1.within).bind fun more next read => .pure ?_
      exact goes_on (moved_to read.1 read.2.1 (.skip _ _))
    · refine (consume_gives _ _ _ moved.1.within).bind fun more next read => ?_
      obtain ⟨valid, cursor, rfl⟩ := read
      have ended : Gives (modify fun state : ParseState =>
          { state with reader := { state.reader with inFormat := false } }) next
          fun _ last => last.Valid source ∧ last.reader.cursor = next.reader.cursor :=
        Gives.modify ⟨⟨valid.within, valid.ahead⟩, rfl⟩
      refine ended.bind fun _ last after => .pure ?_
      have further := moved_to after.1 (after.2.trans cursor) (.skip _ _)
      refine ⟨moved.trans further, ⟨_, longer _⟩, fun _ => ⟨inner, _, _, longer _, ?_, ?_⟩⟩
      · rw [ParseState.offset, after.2]
        rfl
      · rw [after.2]
        rfl
    · refine (insideString_gives obeys moved.1).bind fun more next further => .pure ?_
      exact goes_on further

/-- A string, or several side by side, is a single tree. -/
theorem stringLiteral_gives (obeys : Obeys source grammar) (after : After)
    (valid : state.Valid source) :
    Gives (stringLiteral grammar after) state (Single source .header state.offset) := by
  delta stringLiteral
  extract_lets next
  have read : ∀ now : ParseState, now.Valid source → Gives next now fun result after =>
      result.elim (Stays source now after) fun pieces =>
        Single source .header now.offset pieces after := by
    intro now valid
    refine (peekLexeme_gives valid _).bind fun lexeme next seen => ?_
    split
    · refine (oneString_gives obeys seen.1.valid seen.2.1).bind fun pieces last single => .pure ?_
      rw [seen.1.offset] at single
      exact single
    · exact .pure seen.1
  refine (read state valid).bind fun result next began => ?_
  split
  · exact .failure
  · next first =>
    have began : Single source .header state.offset first _ := began
    refine (Gives.extend (fun (sofar : Pieces × Nat) now =>
      Whole source .header state.offset sofar.1 now ∧ 1 ≤ sofar.2 ∧
        (sofar.2 = 1 → Single source .header state.offset sofar.1 now))
      ⟨began.whole, Nat.le_refl _, fun _ => began⟩ ?_).bind ?_
    · rintro ⟨pieces, count⟩ now ⟨whole, counted, only⟩
      refine (read now whole.valid).bind fun result next more => ?_
      split
      · exact .pure ⟨whole.stays more, counted, fun one => (only one).stays more⟩
      · next pieces =>
        have more : Single source .header now.offset pieces _ := more
        refine .pure ⟨whole.append more.whole.1, by simp, fun one => ?_⟩
        simp only [Option.getD_some] at one
        omega
    · rintro ⟨pieces, count⟩ now ⟨whole, counted, only⟩
      refine .pure ?_
      dsimp only
      split
      · next one => exact only (eq_of_beq one)
      · exact whole.node _ (by decide) nofun

end

end LambdaLayout.Python
