import LambdaLayout.Proofs.ReadStatements
import LambdaLayout.Python.Compound

/-!
Compound statements and blocks. Their brackets match, but a comment may come last in them. Line ends
and the ends of blocks take no place.
-/

namespace LambdaLayout.Python

open LambdaLayout.Python.Tree
open LambdaLayout.Python.Parser

section

variable {source : Text} {grammar : Grammar} {state : ParseState}

theorem suite_gives (obeys : Obeys source grammar) (valid : state.Valid source) :
    Gives (suite grammar) state (Reach source .repaired state.offset) := by
  refine (peekLexeme_gives valid _).bind fun lexeme next seen => ?_
  rw [← seen.1.offset]
  have valid := seen.1.valid
  split
  · refine (mark_gives valid seen.2.1 rfl).bind fun start now first => ?_
    exact (obeys .block now first.1.valid).bind fun inner _ second =>
      .pure (first.1.append second.1)
  · exact (mark_gives valid seen.2.1 rfl).bind fun start now first =>
      .pure (first.1.block nofun first.2 (by decide)).1
  · exact (statementLine_gives obeys valid).bind fun line now read =>
      .pure (read.1.1.block nofun read.2 (by decide)).1

/-- A colon and the block after it. -/
theorem body_gives (obeys : Obeys source grammar) (valid : state.Valid source) :
    Gives (body grammar) state (Reach source .repaired state.offset) := by
  refine (sign_gives valid _).bind fun colon next first => ?_
  exact (suite_gives obeys first.whole.valid).bind fun inner last second =>
    .pure (first.colon.whole.repaired.1.append second)

theorem block_gives (obeys : Obeys source grammar) (valid : state.Valid source) :
    Gives (block grammar) state (Opened source .repaired state.offset) := by
  let sofar := fun (read : Pieces × Bool) now => Reach source .repaired state.offset read.1 now ∧
    (read.2 = true → read.1.isSolid = true)
  refine (Gives.extendTo sofar (fun read now => Reach source .repaired state.offset read.1 now ∧
    read.1.isSolid = true) ⟨.start valid, Bool.noConfusion⟩ ?_).bind ?_
  · rintro ⟨pieces, ended⟩ now ⟨reach, solid⟩
    dsimp only
    split
    · next done => exact .pure ⟨reach, solid done⟩
    · refine (peekLexeme_gives reach.valid _).bind fun lexeme next seen => ?_
      have reach : Reach source .repaired state.offset pieces next := reach.stays seen.1
      split
      · refine (mark_gives reach.valid seen.2.1 rfl).bind fun ends last read => .pure ?_
        exact ⟨reach.append read.1, fun _ => by simp [read.2]⟩
      · refine (obeys (.statement true) next reach.valid).bind fun more last read => .pure ?_
        exact ⟨reach.append read.1, Bool.noConfusion⟩
  · rintro ⟨pieces, ended⟩ now ⟨reach, solid⟩
    exact .pure (reach.block nofun solid (by decide))

theorem elseClause_gives (obeys : Obeys source grammar) (inBlock : Bool)
    (valid : state.Valid source) :
    Gives (elseClause grammar inBlock) state (Reach source .repaired state.offset) := by
  refine (atWord_gives valid _ _).bind fun found next seen => ?_
  rw [← seen.1.offset]
  split
  · refine (inert_keyword_gives seen.1.valid (by decide) (by decide)).bind fun word _ first => ?_
    exact (body_gives obeys first.whole.valid).bind fun inner _ second =>
      .pure ((first.whole.of_header.append second).node _ (by decide) nofun).whole.1
  · exact .pure (.start seen.1.valid)

/-- A word, a condition and the block after it. -/
private theorem conditional_gives (obeys : Obeys source grammar) {word : String}
    (text : isWord word = true) (inert : isInert word = true) (valid : state.Valid source)
    {β : Type} {rest : Pieces → Pieces → Pieces → Parser β} {post : β → ParseState → Prop}
    (goes : ∀ first condition inner next,
      Whole source .repaired state.offset (first ++ condition ++ inner) next →
      Gives (rest first condition inner) next post) :
    Gives (do
      let first ← keyword word
      let condition ← grammar (.expression 1 { })
      let inner ← body grammar
      rest first condition inner : Parser β) state post := by
  refine (inert_keyword_gives valid text inert).bind fun first _ read => ?_
  refine (obeys.expression read.whole.valid _ _).bind fun condition _ second => ?_
  have began : Whole source .repaired state.offset (first ++ condition) _ :=
    (read.whole.append second.whole.1).of_header
  exact (body_gives obeys began.valid).bind fun inner next third =>
    goes first condition inner next (began.append third)

theorem ifStatement_gives (obeys : Obeys source grammar) (inBlock : Bool)
    (valid : state.Valid source) :
    Gives (ifStatement grammar inBlock) state (Single source .repaired state.offset) := by
  refine conditional_gives obeys (by decide) (by decide) valid fun _ _ _ next first => ?_
  refine (Gives.extend (Whole source .repaired state.offset) first ?_).bind
    fun all now whole => ?_
  · intro pieces now whole
    refine (atWord_gives whole.valid _ _).bind fun found now seen => ?_
    have whole := whole.stays seen.1
    split
    · refine conditional_gives obeys (by decide) (by decide) whole.valid fun _ _ _ _ read => ?_
      exact .pure (whole.append (read.node _ (by decide) nofun).whole.1)
    · exact .pure whole
  · exact (elseClause_gives obeys inBlock whole.valid).bind fun _ _ last =>
      .pure ((whole.append last).node _ (by decide) nofun)

theorem forStatement_gives (obeys : Obeys source grammar) (inBlock : Bool) {offset : Nat}
    {async : Pieces} (before : Reach source .header offset async state) :
    Gives (forStatement grammar inBlock async) state (Single source .repaired offset) := by
  refine (inert_keyword_gives before.valid (by decide) (by decide)).bind fun word _ first => ?_
  have began : Whole source .header offset (async ++ word) _ :=
    ⟨before.append first.whole.1, by simp [first.whole.2]⟩
  refine (loopTarget_gives obeys began.valid).bind fun target _ second => ?_
  have began := began.append second.1
  refine (inert_keyword_gives began.valid (by decide) (by decide)).bind fun inside _ third => ?_
  have began := began.append third.whole.1
  refine (expressions_gives obeys began.valid _).bind fun items _ fourth => ?_
  have began := began.append fourth.whole.1
  refine (body_gives obeys began.valid).bind fun inner _ fifth => ?_
  have began := began.of_header.append fifth
  exact (elseClause_gives obeys inBlock began.valid).bind fun _ _ last =>
    .pure ((began.append last).node _ (by decide) nofun)

theorem whileStatement_gives (obeys : Obeys source grammar) (inBlock : Bool)
    (valid : state.Valid source) :
    Gives (whileStatement grammar inBlock) state (Single source .repaired state.offset) := by
  refine conditional_gives obeys (by decide) (by decide) valid fun _ _ _ next whole => ?_
  exact (elseClause_gives obeys inBlock whole.valid).bind fun _ _ last =>
    .pure ((whole.append last).node _ (by decide) nofun)

theorem exceptClause_gives (obeys : Obeys source grammar) (valid : state.Valid source) :
    Gives (exceptClause grammar) state (Single source .repaired state.offset) := by
  refine (inert_keyword_gives valid (by decide) (by decide)).bind fun word _ first => ?_
  refine (atSign_gives first.whole.valid _ _).bind fun grouped _ seen => ?_
  have began := first.whole.stays seen.1
  refine .either
    (fun _ => (inert_sign_gives began.valid (by decide)).mono fun _ _ read => read.whole.1)
    (fun _ => .pure (.start began.valid)) fun star _ second => ?_
  have began := began.append second
  refine (atSign_gives began.valid _ _).bind fun bare _ seen => ?_
  have began := began.stays seen.1
  refine .either (fun _ => .pure (.start began.valid))
    (fun _ => (commaSeparated_expressions obeys _ _ began.valid).mono fun _ _ read => read.1)
    fun caught _ third => ?_
  have began := began.append third
  exact (body_gives obeys began.valid).bind fun inner _ fourth =>
    .pure ((began.of_header.append fourth).node _ (by decide) nofun)

theorem tryStatement_gives (obeys : Obeys source grammar) (inBlock : Bool)
    (valid : state.Valid source) :
    Gives (tryStatement grammar inBlock) state (Single source .repaired state.offset) := by
  refine (inert_keyword_gives valid (by decide) (by decide)).bind fun word _ first => ?_
  refine (body_gives obeys first.whole.valid).bind fun inner _ second => ?_
  have began : Whole source .repaired state.offset (word ++ inner) _ :=
    first.whole.of_header.append second
  refine (Gives.extend (Whole source .repaired state.offset) began ?_).bind fun handled _ whole => ?_
  · intro pieces now whole
    refine (atWord_gives whole.valid _ _).bind fun found now seen => ?_
    have whole := whole.stays seen.1
    split
    · exact (exceptClause_gives obeys whole.valid).bind fun more _ read =>
        .pure (whole.append read.whole.1)
    · exact .pure whole
  · refine (elseClause_gives obeys inBlock whole.valid).bind fun otherwise _ third => ?_
    have whole := whole.append third
    refine (atWord_gives whole.valid _ _).bind fun found _ seen => ?_
    have whole := whole.stays seen.1
    split
    · refine (inert_keyword_gives whole.valid (by decide) (by decide)).bind fun word _ fourth => ?_
      refine (body_gives obeys fourth.whole.valid).bind fun inner _ fifth => .pure ?_
      have clause := (fourth.whole.of_header.append fifth).node "finally_clause" (by decide) nofun
      exact (whole.append clause.whole.1).node _ (by decide) nofun
    · exact .pure (whole.node _ (by decide) nofun)

theorem withItem_gives (obeys : Obeys source grammar) (after : After) (state : ParseState)
    (valid : state.Valid source) :
    Gives (withItem grammar after) state (Single source .header state.offset) :=
  (obeys.expression valid _ _).bind fun _ _ read => .pure (read.whole.node _ (by decide) nofun)

theorem bracketedContexts_gives (obeys : Obeys source grammar) (valid : state.Valid source) :
    Gives (bracketedContexts grammar) state (Whole source .header state.offset) := by
  have item : ∀ now : ParseState, now.Valid source →
      Gives (withItem grammar { close := true }) now (Reach source .matched now.offset) :=
    fun now valid => (withItem_gives obeys _ now valid).mono fun _ _ read => read.whole.1.of_header
  refine (sign_gives valid _).bind fun opened _ first => ?_
  refine (peek_gives first.whole.valid _).bind fun _ _ seen => ?_
  have first := first.stays seen.1
  refine (item _ first.whole.valid).bind fun one _ second => ?_
  refine (inert_sign_gives second.valid (by decide)).bind fun comma _ third => ?_
  have between := second.append third.whole.1.of_header
  refine (peek_gives between.valid _).bind fun _ _ seen => ?_
  have between := between.stays seen.1
  refine (item _ between.valid).bind fun two _ fourth => ?_
  have between := between.append fourth
  rw [List.append_assoc, List.append_assoc, ← List.append_assoc one]
  refine (restOfList_whole rounds item first between).bind fun all now whole => ?_
  refine (atSign_gives whole.valid _ _).bind fun colon _ seen => ?_
  split
  · exact .pure (whole.stays seen.1)
  · exact .failure

theorem plainContexts_gives (obeys : Obeys source grammar) (valid : state.Valid source) :
    Gives (plainContexts grammar) state (Whole source .header state.offset) := by
  refine (withItem_gives obeys _ state valid).bind fun first next began => ?_
  refine Gives.extend (Whole source .header state.offset) began.whole fun pieces now whole => ?_
  exact sequence_gives (Whole source .header state.offset) id _ _ Lexeme.startsExpression whole
    (fun _ valid => (withItem_gives obeys _ _ valid).mono fun _ _ read => read.whole.1)
    (fun _ stays => whole.stays stays) fun _ _ whole => whole

theorem withStatement_gives (obeys : Obeys source grammar) {offset : Nat} {async : Pieces}
    (before : Reach source .header offset async state) :
    Gives (withStatement grammar async) state (Single source .repaired offset) := by
  refine (inert_keyword_gives before.valid (by decide) (by decide)).bind fun word _ first => ?_
  have began : Whole source .header offset (async ++ word) _ :=
    ⟨before.append first.whole.1, by simp [first.whole.2]⟩
  refine ((bracketedContexts_gives obeys began.valid).orElse
    (plainContexts_gives obeys began.valid)).bind fun contexts _ second => ?_
  have clause := second.node "with_clause" (by decide) nofun
  have began := began.append clause.whole.1
  exact (body_gives obeys began.valid).bind fun inner _ third =>
    .pure ((began.of_header.append third).node _ (by decide) nofun)

theorem functionDefinition_gives (obeys : Obeys source grammar) {offset : Nat} {async : Pieces}
    (before : Reach source .header offset async state) :
    Gives (functionDefinition grammar async) state (Single source .repaired offset) := by
  refine (inert_keyword_gives before.valid (by decide) (by decide)).bind fun word _ first => ?_
  have began : Whole source .header offset (async ++ word) _ :=
    ⟨before.append first.whole.1, by simp [first.whole.2]⟩
  refine (identifier_gives began.valid).bind fun name _ second => ?_
  have began := began.append second.single.whole.1
  refine (atSign_gives began.valid _ _).bind fun generic _ seen => ?_
  have began := began.stays seen.1
  refine .either (fun _ => (typeParameters_gives obeys began.valid).mono fun _ _ read => read.whole.1)
    (fun _ => .pure (.start began.valid)) fun types _ third => ?_
  have began : Whole source .repaired offset (async ++ word ++ name ++ types) _ :=
    (began.append third).of_header
  refine (parameters_gives obeys began.valid).bind fun given _ fourth => ?_
  have began := began.append fourth.whole.repaired.1
  refine (atSign_gives began.valid _ _).bind fun arrow _ seen => ?_
  have began := began.stays seen.1
  extract_lets rest
  -- The block comes after the type of the result, or at once.
  have goes : ∀ {result : Pieces} {next : ParseState},
      Whole source .repaired offset (async ++ word ++ name ++ types ++ given ++ result) next →
      Gives (rest result) next (Single source .repaired offset) :=
    fun whole => (body_gives obeys whole.valid).bind fun inner _ last =>
      .pure ((whole.append last).node _ (by decide) nofun)
  split
  · refine (inert_sign_gives began.valid (by decide)).bind fun arrow _ fifth => ?_
    refine (obeys.typeHint fifth.whole.valid _ _).bind fun type now sixth => ?_
    have whole := began.append (fifth.whole.of_header.append sixth.whole.repaired.1).1
    exact goes whole
  · have whole := began.append (.start began.valid)
    exact goes whole

theorem classDefinition_gives (obeys : Obeys source grammar) (valid : state.Valid source) :
    Gives (classDefinition grammar) state (Single source .repaired state.offset) := by
  refine (inert_keyword_gives valid (by decide) (by decide)).bind fun word _ first => ?_
  refine (identifier_gives first.whole.valid).bind fun name _ second => ?_
  have began := first.whole.append second.single.whole.1
  refine (atSign_gives began.valid _ _).bind fun generic _ seen => ?_
  have began := began.stays seen.1
  refine .either (fun _ => (typeParameters_gives obeys began.valid).mono fun _ _ read => read.whole.1)
    (fun _ => .pure (.start began.valid)) fun types _ third => ?_
  have began := began.append third
  refine (atSign_gives began.valid _ _).bind fun based _ seen => ?_
  have began := began.stays seen.1
  extract_lets rest
  have goes : ∀ {bases : Pieces} {next : ParseState},
      Whole source .header state.offset (word ++ name ++ types ++ bases) next →
      Gives (rest bases) next (Single source .repaired state.offset) :=
    fun whole => (body_gives obeys whole.valid).bind fun inner _ last =>
      .pure ((whole.of_header.append last).node _ (by decide) nofun)
  split
  · refine (arguments_gives obeys began.valid).bind fun given _ fourth => ?_
    obtain ⟨tree, one, -, -⟩ := fourth
    have whole := began.append one.toReach
    split
    · exact goes whole
    · exact Gives.failure
  · have whole := began.append (.start began.valid)
    exact goes whole

private theorem decorator_gives (obeys : Obeys source grammar) (state : ParseState)
    (valid : state.Valid source) :
    Gives (do
      let symbol ← sign "@"
      let value ← grammar (.expression 1 lineEnd)
      match ← peekLexeme lineEnd.expect with
      | .newline => return Pieces.node "decorator" (symbol ++ value ++ (← mark))
      | _ => failure : Parser Pieces) state (Single source .repaired state.offset) := by
  refine (inert_sign_gives valid (by decide)).bind fun symbol _ first => ?_
  refine (obeys.expression first.whole.valid _ _).bind fun value _ second => ?_
  have began := first.whole.append second.whole.1
  refine (peekLexeme_gives began.valid _).bind fun lexeme _ seen => ?_
  have began := began.stays seen.1
  split
  · exact (mark_gives began.valid seen.2.1 rfl).bind fun ends _ third =>
      .pure ((began.of_header.append third.1).node _ (by decide) nofun)
  · exact .failure

theorem decorated_gives (obeys : Obeys source grammar) (valid : state.Valid source) :
    Gives (decorated grammar) state (Single source .repaired state.offset) := by
  refine (decorator_gives obeys state valid).bind fun first _ began => ?_
  refine (Gives.extend (Whole source .repaired state.offset) began.whole ?_).bind
    fun decorators now whole => ?_
  · intro pieces now whole
    refine (atSign_gives whole.valid _ _).bind fun again _ seen => ?_
    have whole := whole.stays seen.1
    split
    · exact (decorator_gives obeys _ whole.valid).bind fun more _ read =>
        .pure (whole.append read.whole.1)
    · exact .pure whole
  · refine (peekLexeme_gives whole.valid _).bind fun lexeme now seen => ?_
    have whole : Whole source .repaired state.offset decorators now := whole.stays seen.1
    extract_lets rest
    have goes : ∀ {definition : Pieces} {next : ParseState},
        Single source .repaired now.offset definition next →
        Gives (rest definition) next (Single source .repaired state.offset) :=
      fun single => .pure ((whole.append single.whole.1).node _ (by decide) nofun)
    split
    · exact (classDefinition_gives obeys whole.valid).bind fun _ _ single => goes single
    · refine (inert_keyword_gives whole.valid (by decide) (by decide)).bind fun async _ first => ?_
      exact (functionDefinition_gives obeys first.whole.1).bind fun _ _ single => goes single
    · exact (functionDefinition_gives obeys (.start whole.valid)).bind fun _ _ single => goes single

theorem caseClause_gives (obeys : Obeys source grammar) (valid : state.Valid source) :
    Gives (caseClause grammar) state (Single source .repaired state.offset) := by
  refine (inert_keyword_gives valid (by decide) (by decide)).bind fun word next first => ?_
  refine (obeys.casePattern first.whole.valid _).bind fun pattern _ second => ?_
  refine (Gives.extend (Whole source .matched next.offset) second ?_).bind
    fun patterns _ whole => ?_
  · intro pieces now whole
    refine (atSign_gives whole.valid _ _).bind fun comma _ seen => ?_
    have whole := whole.stays seen.1
    split
    · refine (inert_sign_gives whole.valid (by decide)).bind fun comma _ read => ?_
      have whole := whole.append read.whole.1.of_header
      refine (peekLexeme_gives whole.valid _).bind fun lexeme _ seen => ?_
      have whole := whole.stays seen.1
      split
      · exact .pure whole
      · exact .pure whole
      · exact (obeys.casePattern whole.valid _).bind fun more _ read => .pure (whole.append read.1)
    · exact .pure whole
  · have began := first.whole.of_header.append whole.1
    refine (atWord_gives began.valid _ _).bind fun guarded _ seen => ?_
    have began := (began.stays seen.1).repaired
    extract_lets rest
    have goes : ∀ {guard : Pieces} {next : ParseState},
        Whole source .repaired state.offset (word ++ patterns ++ guard) next →
        Gives (rest guard) next (Single source .repaired state.offset) :=
      fun whole => (body_gives obeys whole.valid).bind fun inner _ last =>
        .pure ((whole.append last).node _ (by decide) nofun)
    split
    · refine (inert_keyword_gives began.valid (by decide) (by decide)).bind fun word _ third => ?_
      refine (obeys.expression third.whole.valid _ _).bind fun condition _ fourth => ?_
      have clause := (third.whole.append fourth.whole.1).node "if_clause" (by decide) nofun
      have whole := began.append clause.whole.1.of_header
      exact goes whole
    · have whole := began.append (.start began.valid)
      exact goes whole

theorem cases_gives (obeys : Obeys source grammar) (valid : state.Valid source) :
    Gives (cases grammar) state (Reach source .repaired state.offset) := by
  refine (peekLexeme_gives valid _).bind fun lexeme next seen => ?_
  rw [← seen.1.offset]
  split
  · refine (mark_gives seen.1.valid seen.2.1 rfl).bind fun start now first => ?_
    let sofar := fun (read : Pieces × Bool) now => Reach source .repaired next.offset read.1 now ∧
      read.1.isSolid = true
    refine (Gives.extend sofar ⟨first.1, first.2⟩ ?_).bind ?_
    · rintro ⟨pieces, ended⟩ now ⟨reach, solid⟩
      dsimp only
      split
      · exact .pure ⟨reach, solid⟩
      · refine (peekLexeme_gives reach.valid _).bind fun lexeme _ seen => ?_
        have reach := reach.stays seen.1
        split
        · exact (mark_gives reach.valid seen.2.1 rfl).bind fun ends _ read =>
            .pure ⟨reach.append read.1, by simp [solid]⟩
        · exact (caseClause_gives obeys reach.valid).bind fun more _ read =>
            .pure ⟨reach.append read.whole.1, by simp [solid]⟩
    · rintro ⟨pieces, ended⟩ now ⟨reach, solid⟩
      exact .pure (reach.block nofun solid (by decide)).1
  · exact (mark_gives seen.1.valid seen.2.1 rfl).bind fun ends now first =>
      .pure (first.1.block nofun first.2 (by decide)).1
  · exact .failure

theorem matchStatement_gives (obeys : Obeys source grammar) (valid : state.Valid source) :
    Gives (matchStatement grammar) state (Single source .repaired state.offset) := by
  refine (inert_keyword_gives valid (by decide) (by decide)).bind fun word _ first => ?_
  refine (peek_gives first.whole.valid _).bind fun _ middle seen => ?_
  have first := first.stays seen.1
  refine (obeys.expression first.whole.valid _ _).bind fun subject _ second => ?_
  refine (Gives.extend (Whole source .header middle.offset) second.whole ?_).bind
    fun subjects _ whole => ?_
  · intro pieces now whole
    exact sequence_gives (Whole source .header middle.offset) id _ _ Lexeme.startsExpression whole
      (fun _ valid => (obeys.expression valid _ _).mono fun _ _ read => read.whole.1)
      (fun _ stays => whole.stays stays) fun _ _ whole => whole
  · have began := first.whole.append whole.1
    refine (sign_gives began.valid _).bind fun colon _ third => ?_
    have began := (began.of_header.append third.colon.whole.1).repaired
    exact (cases_gives obeys began.valid).bind fun inner _ last =>
      .pure ((began.append last).node _ (by decide) nofun)

theorem asyncStatement_gives (obeys : Obeys source grammar) (inBlock : Bool)
    (valid : state.Valid source) :
    Gives (asyncStatement grammar inBlock) state (Opened source .repaired state.offset) := by
  refine .orElse ?_ ((statementLine_gives obeys valid).mono fun _ _ read => read.1)
  refine (inert_keyword_gives valid (by decide) (by decide)).bind fun async _ first => ?_
  refine (peekLexeme_gives first.whole.valid _).bind fun lexeme _ seen => ?_
  have began := (first.whole.stays seen.1).1
  split
  · exact (functionDefinition_gives obeys began).mono fun _ _ read => read.opened
  · exact (forStatement_gives obeys inBlock began).mono fun _ _ read => read.opened
  · exact (withStatement_gives obeys began).mono fun _ _ read => read.opened
  · exact .failure

theorem statement_gives (obeys : Obeys source grammar) (inBlock : Bool)
    (valid : state.Valid source) :
    Gives (statement grammar inBlock) state (Opened source .repaired state.offset) := by
  refine (peekLexeme_gives valid _).bind fun lexeme next seen => ?_
  rw [← seen.1.offset]
  have valid := seen.1.valid
  have line : Gives (statementLine grammar) next (Opened source .repaired next.offset) :=
    (statementLine_gives obeys valid).mono fun _ _ read => read.1
  split
  · exact (ifStatement_gives obeys inBlock valid).mono fun _ _ read => read.opened
  · exact (forStatement_gives obeys inBlock (.start valid)).mono fun _ _ read => read.opened
  · exact (whileStatement_gives obeys inBlock valid).mono fun _ _ read => read.opened
  · exact (tryStatement_gives obeys inBlock valid).mono fun _ _ read => read.opened
  · exact (withStatement_gives obeys (.start valid)).mono fun _ _ read => read.opened
  · exact (functionDefinition_gives obeys (.start valid)).mono fun _ _ read => read.opened
  · exact (classDefinition_gives obeys valid).mono fun _ _ read => read.opened
  · exact asyncStatement_gives obeys inBlock valid
  · exact ((matchStatement_gives obeys valid).mono fun _ _ read => read.opened).orElse line
  · exact (decorated_gives obeys valid).mono fun _ _ read => read.opened
  · exact line

end

end LambdaLayout.Python
