import LambdaLayout.Proofs.ReadPatterns
import LambdaLayout.Python.Statement

/-!
Simple statements. Each of them is a single tree, and the brackets below it match: a colon may stand
among its tokens, between a target and its type, but no bracket is left open.
-/

namespace LambdaLayout.Python

open LambdaLayout.Python.Tree
open LambdaLayout.Python.Parser

section

variable {source : Text} {grammar : Grammar} {state : ParseState}

theorem Obeys.assigned (obeys : Obeys source grammar) (valid : state.Valid source)
    (after : After) :
    Gives (grammar (.assigned after)) state (Whole source .matched state.offset) :=
  obeys _ state valid

theorem statementEnds_gives (valid : state.Valid source) :
    Gives statementEnds state fun _ next => Stays source state next := by
  refine (peekLexeme_gives valid _).bind fun lexeme next seen => ?_
  split
  · exact .pure seen.1
  · exact .pure seen.1
  · exact .failure

/-- A statement that has to end where it was read to. -/
private theorem ending_gives {parser : Parser Pieces} {offset : Nat}
    (reads : Gives parser state (Single source .matched offset)) :
    Gives (do
      let read ← parser
      statementEnds
      return read : Parser Pieces) state (Single source .matched offset) := by
  refine reads.bind fun read next single => ?_
  exact (statementEnds_gives single.whole.valid).bind fun _ _ stays => .pure (single.stays stays)

theorem assignment_gives (obeys : Obeys source grammar) (after : After) {offset : Nat}
    {left : Pieces} (isList : Bool) (whole : Whole source .header offset left state) :
    Gives (assignment? grammar after left isList) state fun result next =>
      match result with
      | none => Stays source state next
      | some pieces => Whole source .matched offset pieces next := by
  -- Turning what was read into a target leaves the parser where it is.
  have target : ∀ now place : ParseState, Whole source .header offset left place → Gives (do
      match Pieces.asTargets? left with
      | none => failure
      | some pieces => return if isList then Pieces.node "pattern_list" pieces else pieces :
        Parser Pieces) now fun pieces next =>
          next = now ∧ Whole source .matched offset pieces place := by
    intro now place whole
    split
    · exact .failure
    · next pieces found =>
      obtain ⟨reach, solid⟩ := whole.1.asTargets found
      have again : Whole source .header offset pieces place := ⟨reach, by rw [solid, whole.2]⟩
      refine .pure ⟨rfl, ?_⟩
      split
      · exact (again.node _ (by decide) nofun).whole.of_header
      · exact again.of_header
  refine (peekLexeme_gives whole.valid _).bind fun lexeme next seen => ?_
  have kept := whole.stays seen.1
  split
  · refine (target next next kept).bind ?_
    rintro pattern _ ⟨rfl, first⟩
    refine (inert_sign_gives first.valid (by decide)).bind fun equals _ second => ?_
    have began := first.append second.whole.1.of_header
    refine (obeys.assigned began.valid _).bind fun value _ third => .pure ?_
    exact ((began.append third.1).node _ (by decide) nofun).whole
  · refine (target next next kept).bind ?_
    rintro pattern _ ⟨rfl, first⟩
    refine (sign_gives first.valid _).bind fun colon _ second => ?_
    have began := first.append second.colon.whole.1
    refine (obeys.typeHint began.valid _ _).bind fun type _ third => ?_
    have began := began.append third.whole.1
    refine (atSign_gives began.valid _ _).bind fun given _ seen => ?_
    have began := began.stays seen.1
    split
    · refine (inert_sign_gives began.valid (by decide)).bind fun equals _ fourth => ?_
      refine (obeys.assigned fourth.whole.valid _).bind fun value _ fifth => .pure ?_
      exact ((began.append (fourth.whole.of_header.append fifth.1).1).node _ (by decide)
        nofun).whole
    · exact .pure ((began.append (.start began.valid)).node _ (by decide) nofun).whole
  · refine (anySign_gives kept.valid _ (by decide)).bind fun result now read => ?_
    split
    · exact .pure (seen.1.trans read)
    · obtain ⟨text, second⟩ := read
      refine (target now next kept).bind ?_
      rintro pattern _ ⟨rfl, first⟩
      have began := first.append second.whole.1.of_header
      refine (obeys.assigned began.valid _).bind fun value _ third => .pure ?_
      exact ((began.append third.1).node _ (by decide) nofun).whole

theorem assigned_gives (obeys : Obeys source grammar) (after : After)
    (valid : state.Valid source) :
    Gives (assigned grammar after) state (Whole source .matched state.offset) := by
  refine (atWord_gives valid _ _).bind fun yields next seen => ?_
  rw [← seen.1.offset]
  have valid := seen.1.valid
  split
  · exact (yieldExpression_gives obeys valid after).mono fun _ _ read => read.whole.of_header
  · refine (expressionSequence_gives obeys valid after).bind ?_
    rintro ⟨pieces, isList⟩ now joined
    refine (assignment_gives obeys after isList joined.1).bind fun result last read => ?_
    split
    · exact .pure read
    · exact .pure ((joined.stays read).node _ (by decide) nofun).whole.of_header

theorem expressionStatement_gives (obeys : Obeys source grammar) (valid : state.Valid source) :
    Gives (expressionStatement grammar) state (Single source .matched state.offset) := by
  refine (atWord_gives valid _ _).bind fun yields next seen => ?_
  rw [← seen.1.offset]
  have valid := seen.1.valid
  split
  · exact (yieldExpression_gives obeys valid _).bind fun _ _ read =>
      .pure (read.whole.of_header.node _ (by decide) nofun)
  · refine (expressionSequence_gives obeys valid _).bind ?_
    rintro ⟨pieces, isList⟩ now joined
    refine (assignment_gives obeys _ isList joined.1).bind fun result last read => ?_
    split
    · exact .pure (Whole.node read _ (by decide) nofun)
    · exact .pure ((joined.1.stays read).of_header.node _ (by decide) nofun)

theorem commaSeparated_gives {grade : Grade} (after : After) {part : Parser Pieces}
    (reads : ∀ state, state.Valid source → Gives part state (Whole source grade state.offset))
    (valid : state.Valid source) :
    Gives (commaSeparated after part) state (Whole source grade state.offset) := by
  refine (reads state valid).bind fun first next began => ?_
  refine Gives.extend _ began fun pieces now whole => ?_
  refine (atSign_gives whole.valid _ _).bind fun comma now seen => ?_
  have whole := whole.stays seen.1
  split
  · refine (inert_sign_gives whole.valid (by decide)).bind fun comma _ second => ?_
    have began := whole.append second.whole.1.of_header
    exact (reads _ began.valid).bind fun more _ third => .pure (began.append third.1)
  · exact .pure whole

/-- Expressions with commas between them. -/
theorem commaSeparated_expressions (obeys : Obeys source grammar) (after : After) (level : Nat)
    (valid : state.Valid source) :
    Gives (commaSeparated after (grammar (.expression level after))) state
      (Whole source .header state.offset) :=
  commaSeparated_gives after
    (fun _ valid => (obeys.expression valid _ _).mono fun _ _ read => read.whole) valid

theorem commaSeparated_names (after : After) (valid : state.Valid source) :
    Gives (commaSeparated after identifier) state (Whole source .header state.offset) :=
  commaSeparated_gives after
    (fun _ valid => (identifier_gives valid).mono fun _ _ read => read.single.whole) valid

theorem imported_gives (after : After) (state : ParseState) (valid : state.Valid source) :
    Gives (imported after) state (Single source .header state.offset) := by
  refine (dottedName_gives after valid).bind fun name next first => ?_
  refine (atWord_gives first.whole.valid _ _).bind fun renamed now seen => ?_
  have first := first.stays seen.1
  split
  · refine (inert_keyword_gives first.whole.valid (by decide) (by decide)).bind fun _ _ second => ?_
    have began := first.whole.append second.whole.1
    refine (identifier_gives began.valid).bind fun _ _ third => .pure ?_
    exact (began.append third.single.whole.1).node _ (by decide) nofun
  · exact .pure first

theorem importList_gives (after : After) (valid : state.Valid source) :
    Gives (importList after) state (Whole source .header state.offset) := by
  refine (imported_gives after state valid).bind fun first next began => ?_
  refine Gives.extend (Whole source .header state.offset) began.whole fun pieces now whole => ?_
  refine (atSign_gives whole.valid _ _).bind fun comma now seen => ?_
  have whole := whole.stays seen.1
  split
  · refine (inert_sign_gives whole.valid (by decide)).bind fun comma _ second => ?_
    have began := whole.append second.whole.1
    refine (peekLexeme_gives began.valid _).bind fun lexeme _ seen => ?_
    have began := began.stays seen.1
    split
    · exact (imported_gives after _ began.valid).bind fun more _ third =>
        .pure (began.append third.whole.1)
    · exact (noComma_gives began.valid).bind fun _ _ stays => .pure (began.stays stays)
  · exact .pure whole

theorem importedNames_gives (valid : state.Valid source) :
    Gives importedNames state (Whole source .header state.offset) := by
  refine (atSign_gives valid _ _).bind fun found next seen => ?_
  rw [← seen.1.offset]
  split
  · refine (sign_gives seen.1.valid _).bind fun opened now first => ?_
    refine (importList_gives _ first.whole.valid).bind fun names now second => ?_
    exact (sign_gives second.valid _).bind fun shut last ends =>
      .pure (Whole.bracketed rounds first second.1.of_header ends)
  · exact importList_gives _ seen.1.valid

theorem atDot_gives (valid : state.Valid source) :
    Gives atDot state fun answer next => Stays source state next ∧
      (answer = true → ∃ text, next.Sees (.sign text) ∧ text.toList.head? = some '.') := by
  refine (peekLexeme_gives valid _).bind fun lexeme next seen => ?_
  split
  · exact .pure ⟨seen.1, fun _ => ⟨_, seen.2.1, rfl⟩⟩
  · exact .pure ⟨seen.1, fun _ => ⟨_, seen.2.1, rfl⟩⟩
  · exact .pure ⟨seen.1, Bool.noConfusion⟩

/-- The first dot of a sign that starts with one. -/
theorem firstChar_gives {text : String} (valid : state.Valid source)
    (sees : state.Sees (.sign text)) (dot : text.toList.head? = some '.') :
    Gives firstChar state (Reach source .header state.offset) := by
  obtain ⟨found, ahead, is⟩ := sees
  refine (peek_gives valid _).bind fun lexed next seen => ?_
  obtain ⟨stays, -, same⟩ := seen
  have given := valid.ahead found ahead
  rw [same found ahead]
  obtain ⟨content, reads, covers⟩ := given.text
  rw [is] at covers
  have head : found.start.head? = some '.' := by
    rw [Cursor.head?, reads.rest, covers.1]
    cases chars : text.toList with
    | nil => simp [chars] at dot
    | cons c more => simpa [chars] using dot
  split
  · exact .failure
  · next c first =>
    obtain ⟨⟩ := Option.some.inj (first.symm.trans head)
    obtain ⟨rest, whole⟩ := Cursor.ahead_of_head head
    have reads := Cursor.Reads.next whole
    obtain ⟨middle, extras, gap, -, fits⟩ := extras_laid given
    obtain ⟨before, whole, place⟩ := reads.place given.within
    let leaf := Tree.leaf "." false (found.start.spanTo found.start.next)
    have sits : Sits source leaf := .leaf rfl whole place (sign_fits (by decide) _ _) fun _ => rfl
    have inert : Inert leaf.kind (leaf.text source) := by
      have text : leaf.text source = ['.'] := text_of_leaf whole place
      rw [text]
      exact .of_text (by decide)
    have heard : leaf.isHeard = true := by
      refine isHeard_of_closed rfl rfl ?_
      show found.start.byte < found.start.next.byte
      rw [reads.byte]
      exact Nat.lt_add_of_pos_right (Text.byteLength_pos (List.cons_ne_nil _ _))
    have moved : Gives (MonadStateOf.set
        (ParseState.mk { found.after with cursor := found.start.next } none)) next
        fun _ last => Reach source .header state.offset (extrasOf found ++ [.tree leaf]) last := by
      refine Gives.set ⟨⟨reads.within given.within, ?_⟩, ?_, ?_, ?_⟩
      · intro _ is
        cases is
      · exact extras.append (.tree gap sits Bool.noConfusion .nil)
      · rw [Pieces.trees_append]
        exact Grade.fits_append fits (inert.fits rfl)
      · rw [Pieces.trees_append]
        exact EndsSolid.prepend _ (endsSolid_of_closed rfl rfl) heard
    exact moved.bind fun _ _ reach => .pure reach

/-- A node closed over pieces leaves them as they are if none of them is solid. -/
theorem Reach.node_any {grade : Grade} {offset : Nat} {pieces : Pieces}
    (reach : Reach source grade offset pieces state) (known : grade ≠ .loose) {kind : String}
    (free : (constructs ++ atoms).contains kind = false) :
    Reach source grade offset (pieces.node kind) state := by
  cases solid : pieces.isSolid with
  | true => exact (reach.block known solid free).1
  | false =>
    have none : pieces.dropWhile Piece.isExtra = [] := by
      have all : ∀ piece ∈ pieces, piece.isExtra = true := by
        intro piece mem
        have extra := List.any_eq_false.mp solid piece mem
        simpa using extra
      rw [← List.append_nil pieces, List.dropWhile_append_of_pos all]
      rfl
    have same : pieces.node kind = pieces := by
      rw [Pieces.node, Pieces.close, none]
      rfl
    rw [same]
    exact reach

theorem relativeImport_gives (valid : state.Valid source) :
    Gives relativeImport state (Reach source .header state.offset) := by
  refine (Gives.extend (Reach source .header state.offset) (.start valid) ?_).bind
    fun dots next first => ?_
  · intro pieces now reach
    refine (atDot_gives reach.valid).bind fun dotted next seen => ?_
    have reach := reach.stays seen.1
    split
    · next is =>
      obtain ⟨text, sees, dot⟩ := seen.2 is
      exact (firstChar_gives reach.valid sees dot).bind fun more _ second =>
        .pure (reach.append second)
    · exact .pure reach
  · have levels : Reach source .header state.offset (Pieces.node "import_prefix" dots) next :=
      first.node_any nofun (by decide)
    refine (peekLexeme_gives first.valid _).bind fun lexeme now seen => ?_
    have levels := levels.stays seen.1
    split
    · exact .pure (levels.node_any nofun (by decide))
    · exact (dottedName_gives _ levels.valid).bind fun name last second =>
        .pure ((levels.append second.whole.1).node_any nofun (by decide))

theorem importFrom_gives (valid : state.Valid source) :
    Gives importFrom state (Single source .header state.offset) := by
  refine (inert_keyword_gives valid (by decide) (by decide)).bind fun word next first => ?_
  refine (atWord_gives first.whole.valid _ _).bind fun future now seen => ?_
  have began := first.whole.stays seen.1
  split
  · next is =>
    refine (leaf_word_gives began.valid (seen.2 is) (by decide)).bind fun future _ second => ?_
    have began := began.append (second.inert (by decide)).whole.1
    refine (inert_keyword_gives began.valid (by decide) (by decide)).bind fun importing _ third => ?_
    have began := began.append third.whole.1
    exact (importedNames_gives began.valid).bind fun names _ fourth =>
      .pure ((began.append fourth.1).node _ (by decide) nofun)
  · refine (atDot_gives began.valid).bind fun dotted now seen => ?_
    have began := began.stays seen.1
    refine .either (fun _ => relativeImport_gives began.valid)
      (fun _ => (dottedName_gives _ began.valid).mono fun _ _ read => read.whole.1)
      fun source now second => ?_
    have began := began.append second
    refine (inert_keyword_gives began.valid (by decide) (by decide)).bind fun importing _ third => ?_
    have began := began.append third.whole.1
    refine (atSign_gives began.valid _ _).bind fun all now seen => ?_
    have began := began.stays seen.1
    split
    · next is =>
      refine (separator_gives began.valid (seen.2 is).1 (by decide) (by decide) (by decide)).bind
        fun star last fourth => .pure ?_
      exact (began.append fourth.whole.1).node _ (by decide) nofun
    · exact (importedNames_gives began.valid).bind fun names _ fourth =>
        .pure ((began.append fourth.1).node _ (by decide) nofun)

theorem printStatement_gives (obeys : Obeys source grammar) (valid : state.Valid source) :
    Gives (printStatement grammar) state (Single source .header state.offset) := by
  refine (inert_keyword_gives valid (by decide) (by decide)).bind fun word next first => ?_
  refine (atSign_gives first.whole.valid _ _).bind fun redirected now seen => ?_
  have began := first.whole.stays seen.1
  have goes : ∀ (value : Pieces) (middle : ParseState),
      Single source .header now.offset value middle → Gives (do
        let all ← extend value fun pieces => do
          if ← atSign lineEnd.expect "," then
            let comma ← sign ","
            if (← peekLexeme lineEnd.operand).startsExpression then
              return some (pieces ++ comma ++ (← grammar (.expression 1 lineEnd)))
            noComma
            return some (pieces ++ comma)
          else return none
        return Pieces.node "print_statement" (word ++ all) : Parser Pieces) middle
        (Single source .header state.offset) := by
    intro value middle single
    refine (Gives.extend (Whole source .header now.offset) single.whole ?_).bind
      fun all last whole => .pure ((began.append whole.1).node _ (by decide) nofun)
    intro pieces now' whole
    exact sequence_gives (Whole source .header now.offset) id _ _ Lexeme.startsExpression whole
      (fun _ valid => (obeys.expression valid _ _).mono fun _ _ read => read.whole.1)
      (fun _ stays => whole.stays stays) fun _ _ whole => whole
  extract_lets rest
  split
  · refine (inert_sign_gives began.valid (by decide)).bind fun mark _ second => ?_
    refine (obeys.expression second.whole.valid _ _).bind fun value middle third => ?_
    have chevron := (second.whole.append third.whole.1).node "chevron" (by decide) nofun
    exact (Gives.pure chevron).bind goes
  · exact (obeys.expression began.valid _ _).bind goes

theorem printOrExpression_gives (obeys : Obeys source grammar) (valid : state.Valid source) :
    Gives (printOrExpression grammar) state (Single source .matched state.offset) := by
  have found : Gives MonadState.get state fun found next => state = found ∧ state = next :=
    Gives.get ⟨rfl, rfl⟩
  refine found.bind ?_
  rintro _ _ ⟨rfl, rfl⟩
  refine (inert_keyword_gives valid (by decide) (by decide)).bind fun word next first => ?_
  refine (atSign_gives first.whole.valid _ _).bind fun redirected now seen => ?_
  have back : Gives (MonadStateOf.set state) now fun _ last => last = state := Gives.set rfl
  refine back.bind ?_
  rintro _ _ rfl
  have printed := (printStatement_gives obeys valid).mono fun _ _ read =>
    (read.of_header : Single source .matched _ _ _)
  split
  · exact printed
  · exact (ending_gives (expressionStatement_gives obeys valid)).orElse printed

theorem execStatement_gives (obeys : Obeys source grammar) (valid : state.Valid source) :
    Gives (execStatement grammar) state (Single source .header state.offset) := by
  refine (inert_keyword_gives valid (by decide) (by decide)).bind fun word next first => ?_
  refine (peekLexeme_gives first.whole.valid _).bind fun lexeme now seen => ?_
  have began := first.whole.stays seen.1
  have goes : ∀ (code : Pieces) (middle : ParseState),
      Single source .header now.offset code middle → Gives (do
        let scope ← if ← atWord lineEnd.expect "in" then
            let inside ← keyword "in"
            pure (inside ++ (← commaSeparated lineEnd (grammar (.expression 1 lineEnd))))
          else pure []
        return Pieces.node "exec_statement" (word ++ code ++ scope) : Parser Pieces) middle
        (Single source .header state.offset) := by
    intro code middle second
    have began := began.append second.whole.1
    refine (atWord_gives began.valid _ _).bind fun inside now seen => ?_
    have began := began.stays seen.1
    extract_lets rest
    split
    · refine (inert_keyword_gives began.valid (by decide) (by decide)).bind fun inside _ third => ?_
      refine (commaSeparated_expressions obeys _ _ third.whole.valid).bind fun more _ fourth => ?_
      have whole := began.append (third.whole.1.append fourth.1)
      exact .pure (whole.node _ (by decide) nofun)
    · have whole := began.append (.start began.valid)
      exact .pure (whole.node _ (by decide) nofun)
  extract_lets rest
  split
  · exact (oneString_gives obeys began.valid seen.2.1).bind goes
  · exact (identifier_gives began.valid).bind fun code _ read => goes code _ read.single

theorem typeAlias_gives (obeys : Obeys source grammar) (valid : state.Valid source) :
    Gives (typeAlias grammar) state (Single source .matched state.offset) := by
  refine (inert_keyword_gives valid (by decide) (by decide)).bind fun word next first => ?_
  refine (obeys.typeHint first.whole.valid _ _).bind fun name _ second => ?_
  have began := first.whole.of_header.append second.whole.1
  refine (inert_sign_gives began.valid (by decide)).bind fun equals _ third => ?_
  have began := began.append third.whole.1.of_header
  exact (obeys.typeHint began.valid _ _).bind fun value _ fourth =>
    .pure ((began.append fourth.whole.1).node _ (by decide) nofun)

theorem raiseStatement_gives (obeys : Obeys source grammar) (valid : state.Valid source) :
    Gives (raiseStatement grammar) state (Single source .header state.offset) := by
  refine (inert_keyword_gives valid (by decide) (by decide)).bind fun word next first => ?_
  refine (peekLexeme_gives first.whole.valid _).bind fun lexeme now seen => ?_
  have began := first.whole.stays seen.1
  refine .either (fun _ => (expressions_gives obeys began.valid _).mono fun _ _ read => read.whole.1)
    (fun _ => .pure (.start began.valid)) fun raised _ second => ?_
  have began := began.append second
  refine (atWord_gives began.valid _ _).bind fun caused now seen => ?_
  have began := began.stays seen.1
  extract_lets rest
  split
  · refine (inert_keyword_gives began.valid (by decide) (by decide)).bind fun from_ _ third => ?_
    refine (obeys.expression third.whole.valid _ _).bind fun cause _ fourth => ?_
    have whole := began.append (third.whole.1.append fourth.whole.1)
    exact .pure (whole.node _ (by decide) nofun)
  · have whole := began.append (.start began.valid)
    exact .pure (whole.node _ (by decide) nofun)

/-- A word and what follows it. -/
private theorem worded_gives {word kind : String} {rest : Parser Pieces}
    (text : isWord word = true) (inert : isInert word = true)
    (free : (constructs ++ atoms).contains kind = false)
    (reads : ∀ now : ParseState, now.Valid source → Gives rest now (Reach source .header now.offset))
    (valid : state.Valid source) :
    Gives (do
      let first ← keyword word
      let more ← rest
      return Pieces.node kind (first ++ more) : Parser Pieces) state
      (Single source .matched state.offset) := by
  refine (inert_keyword_gives valid text inert).bind fun first next read => ?_
  exact (reads next read.whole.valid).bind fun more last second =>
    .pure ((read.whole.append second).node _ free nofun).of_header

/-- A word alone. -/
private theorem word_gives {word kind : String} (text : isWord word = true)
    (inert : isInert word = true) (free : (constructs ++ atoms).contains kind = false)
    (valid : state.Valid source) :
    Gives (do
      let first ← keyword word
      return Pieces.node kind first : Parser Pieces) state
      (Single source .matched state.offset) :=
  (inert_keyword_gives valid text inert).bind fun _ _ read =>
    .pure (read.whole.node _ free nofun).of_header

theorem simpleStatement_gives (obeys : Obeys source grammar) (state : ParseState)
    (valid : state.Valid source) :
    Gives (simpleStatement grammar) state (Single source .matched state.offset) := by
  refine (peekLexeme_gives valid _).bind fun lexeme next seen => ?_
  rw [← seen.1.offset]
  have valid := seen.1.valid
  split
  · exact worded_gives (by decide) (by decide) (by decide)
      (fun _ valid => (importList_gives _ valid).mono fun _ _ read => read.1) valid
  · exact (importFrom_gives valid).mono fun _ _ read => read.of_header
  · exact printOrExpression_gives obeys valid
  · exact worded_gives (by decide) (by decide) (by decide)
      (fun _ valid => (commaSeparated_expressions obeys _ _ valid).mono fun _ _ read => read.1) valid
  · refine (inert_keyword_gives valid (by decide) (by decide)).bind fun word now first => ?_
    refine (peekLexeme_gives first.whole.valid _).bind fun lexeme now seen => ?_
    have began := first.whole.stays seen.1
    split
    · exact (expressions_gives obeys began.valid _).bind fun value _ second =>
        .pure ((began.append second.whole.1).node _ (by decide) nofun).of_header
    · exact .pure (began.node _ (by decide) nofun).of_header
  · exact worded_gives (by decide) (by decide) (by decide)
      (fun _ valid => (expressions_gives obeys valid _).mono fun _ _ read => read.whole.1) valid
  · exact (raiseStatement_gives obeys valid).mono fun _ _ read => read.of_header
  · exact word_gives (by decide) (by decide) (by decide) valid
  · exact word_gives (by decide) (by decide) (by decide) valid
  · exact word_gives (by decide) (by decide) (by decide) valid
  · exact worded_gives (by decide) (by decide) (by decide)
      (fun _ valid => (commaSeparated_names _ valid).mono fun _ _ read => read.1) valid
  · exact worded_gives (by decide) (by decide) (by decide)
      (fun _ valid => (commaSeparated_names _ valid).mono fun _ _ read => read.1) valid
  · exact (ending_gives (expressionStatement_gives obeys valid)).orElse
      ((execStatement_gives obeys valid).mono fun _ _ read => read.of_header)
  · exact (ending_gives (typeAlias_gives obeys valid)).orElse (expressionStatement_gives obeys valid)
  · exact expressionStatement_gives obeys valid

theorem statementLine_gives (obeys : Obeys source grammar) (valid : state.Valid source) :
    Gives (statementLine grammar) state fun pieces next =>
      Opened source .repaired state.offset pieces next ∧ pieces.isSolid = true := by
  refine (simpleStatement_gives obeys state valid).bind fun first next began => ?_
  refine (Gives.extend (Opened source .matched state.offset) began.opened ?_).bind
    fun all now opened => ?_
  · intro pieces now opened
    refine (atSign_gives opened.1.valid _ _).bind fun more now seen => ?_
    have opened := opened.stays seen.1
    split
    · refine (inert_sign_gives opened.1.valid (by decide)).bind fun semicolon _ second => ?_
      have began := opened.append second.whole.1.of_header
      refine (peekLexeme_gives began.1.valid _).bind fun lexeme _ seen => ?_
      have began := began.stays seen.1
      split
      · exact .pure began
      · exact (simpleStatement_gives obeys _ began.1.valid).bind fun value _ third =>
          .pure (began.append third.whole.1)
    · exact .pure opened
  · refine (peekLexeme_gives opened.1.valid _).bind fun lexeme now seen => ?_
    have opened := opened.stays seen.1
    split
    · refine (mark_gives opened.1.valid seen.2.1 rfl).bind fun ends last read => .pure ?_
      have repaired : Opened source .repaired state.offset all now := ⟨opened.1.repaired, opened.2⟩
      exact ⟨repaired.append read.1, by simp [read.2]⟩
    · exact .failure

end

end LambdaLayout.Python
