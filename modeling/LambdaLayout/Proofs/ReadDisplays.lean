import LambdaLayout.Proofs.ReadSequences
import LambdaLayout.Python.Display

/-!
Bracketed expressions. Whatever stands between brackets may stand in the header of a lambda together
with them. A list has its parts and commas as the grammar asks.
-/

namespace LambdaLayout.Python

open LambdaLayout.Python.Tree
open LambdaLayout.Python.Parser

section

variable {source : Text} {grammar : Grammar} {state : ParseState}

theorem loopTarget_gives (obeys : Obeys source grammar) (valid : state.Valid source) :
    Gives (loopTarget grammar) state (Whole source .header state.offset) := by
  delta loopTarget
  extract_lets operand
  have target : ∀ now : ParseState, now.Valid source →
      Gives operand now (Whole source .header now.offset) := by
    intro now valid
    refine (obeys (.operand { }) now valid).bind fun read next single => ?_
    split
    · next found =>
      obtain ⟨reach, solid⟩ := (single.whole.1).asTargets found
      exact .pure ⟨reach, by rw [solid, single.whole.2]⟩
    · exact .failure
  refine (target state valid).bind fun first next began => ?_
  let sofar := fun (read : Pieces × Bool) now => Whole source .header state.offset read.1 now
  refine (Gives.extend sofar began ?_).bind ?_
  · rintro ⟨pieces, flag⟩ now whole
    exact sequence_gives sofar (fun more => (more, true)) _ _ Lexeme.startsPrimary whole
      (fun _ valid => (target _ valid).mono fun _ _ read => read.1)
      (fun _ stays => whole.stays stays) fun _ _ whole => whole
  · rintro ⟨pieces, flag⟩ now whole
    refine .pure ?_
    split
    · exact (whole.node _ (by decide) nofun).whole
    · exact whole

theorem forClause_gives (obeys : Obeys source grammar) (valid : state.Valid source) :
    Gives (forClause grammar) state (Single source .header state.offset) := by
  refine (atWord_gives valid _ _).bind fun found next seen => ?_
  have began : Reach source .header state.offset [] next := (Reach.start valid).stays seen.1
  refine .either
    (fun _ => (inert_keyword_gives began.valid (by decide) (by decide)).mono fun _ _ read =>
      read.whole.1)
    (fun _ => .pure (.start began.valid)) fun async next first => ?_
  have began : Reach source .header state.offset async next := by
    have grown := began.append first
    exact grown
  refine (inert_keyword_gives began.valid (by decide) (by decide)).bind fun word next read => ?_
  have began : Whole source .header state.offset (async ++ word) next :=
    ⟨began.append read.whole.1, by rw [Pieces.isHeard_append, read.whole.2, Bool.or_true]⟩
  refine (loopTarget_gives obeys began.valid).bind fun target next read => ?_
  have began := began.append read.1
  refine (inert_keyword_gives began.valid (by decide) (by decide)).bind fun inside next read => ?_
  have began := began.append read.whole.1
  have iterable : ∀ now : ParseState, now.Valid source →
      Gives (grammar (.iterable { close := true })) now (Single source .header now.offset) :=
    fun now valid => obeys _ now valid
  refine (iterable next began.valid).bind fun first last read => ?_
  refine (Gives.extend (Whole source .header next.offset) read.whole ?_).bind fun all last read =>
    .pure ((began.append read.1).node _ (by decide) nofun)
  intro pieces now whole
  exact sequence_gives (Whole source .header next.offset) id _ _ Lexeme.startsExpression whole
    (fun _ valid => (iterable _ valid).mono fun _ _ read => read.whole.1)
    (fun _ stays => whole.stays stays) fun _ _ whole => whole

theorem clauses_gives (obeys : Obeys source grammar) (valid : state.Valid source) :
    Gives (clauses grammar) state (Whole source .header state.offset) := by
  refine (forClause_gives obeys valid).bind fun first next began => ?_
  refine Gives.extend (Whole source .header state.offset) began.whole fun pieces now whole => ?_
  refine (peekLexeme_gives whole.valid _).bind fun lexeme next seen => ?_
  have whole := whole.stays seen.1
  split
  · exact (forClause_gives obeys whole.valid).bind fun more _ read =>
      .pure (whole.append read.whole.1)
  · exact (forClause_gives obeys whole.valid).bind fun more _ read =>
      .pure (whole.append read.whole.1)
  · refine (inert_keyword_gives whole.valid (by decide) (by decide)).bind fun word _ first => ?_
    refine (obeys.expression first.whole.valid _ _).bind fun condition _ second => .pure ?_
    have clause := (first.whole.append second.whole.1).node "if_clause" (by decide) nofun
    exact whole.append clause.whole.1
  · exact .pure whole

/-- A node of a construct whose first part is a single tree. -/
theorem One.construct {grade own : Grade} {offset : Nat} {pieces more : Pieces} {tree : Tree}
    {next : ParseState} (one : One source own offset pieces tree state)
    (reach : Reach source grade offset (pieces ++ more) next) (known : grade ≠ .loose)
    {kind : String} (built : atoms.contains kind = false)
    (construct : Construct source tree.span.startByte kind (tree :: more.trees)) :
    OfKind source grade kind offset (Pieces.node kind (pieces ++ more)) next := by
  obtain ⟨lead, split, skipped⟩ := one.lead
  have split : pieces ++ more = lead.map Piece.tree ++ .tree tree :: more := by
    rw [split, List.append_assoc, List.singleton_append]
  obtain ⟨span, -, -, single⟩ :=
    reach.close known split skipped one.solid built nofun (fun _ => construct)
      fun (unnamed : true = false) => nomatch unnamed
  have closed := single (by rw [Pieces.isHeard_append, one.isHeard, Bool.true_or])
  exact ⟨_, closed, ⟨rfl, closed.solid, closed.heard⟩, rfl⟩

theorem squares : ("[", "]") ∈ bracketPairs := by decide

theorem rounds : ("(", ")") ∈ bracketPairs := by decide

theorem curls : ("\x7b", "\x7d") ∈ bracketPairs := by decide

/-- An element in brackets, followed by the clauses of a comprehension. -/
theorem comprehension_gives (obeys : Obeys source grammar) {opening closing : String}
    (pair : (opening, closing) ∈ bracketPairs) {offset : Nat} {opened element : Pieces}
    {middle : ParseState}
    (first : Reads source .loose opening offset opened state)
    (second : Single source .matched state.offset element middle) (kind : String)
    (free : (constructs ++ atoms).contains kind = false) :
    Gives (do
      let rest ← clauses grammar
      let shut ← sign closing
      return Pieces.node kind (opened ++ Pieces.role "body" element ++ rest ++ shut) :
        Parser Pieces) middle (OfKind source .header kind offset) := by
  refine (clauses_gives obeys second.whole.valid).bind fun rest next read => ?_
  have between := ((second.role "body").whole.append read.of_header.1)
  refine (sign_gives between.valid _).bind fun shut last ends => .pure ?_
  have whole := Whole.bracketed pair first between.1 ends
  rw [← List.append_assoc] at whole
  exact whole.ofKind kind free nofun

theorem listDisplay_gives (obeys : Obeys source grammar) (valid : state.Valid source) :
    Gives (listDisplay grammar) state (Single source .header state.offset) := by
  have list : ∀ {middle next : ParseState} {opened tail : Pieces},
      Reads source .loose "[" state.offset opened middle →
      Tail source "]" .ready middle.offset tail next →
      Single source .header state.offset (Pieces.node "list" (opened ++ tail)) next := by
    intro middle next opened tail first rest
    have reach := Ending.brackets squares first rest.toEnding
    obtain ⟨tree, one, sign⟩ := first
    exact (one.construct reach nofun (by decide) (.list rfl sign rest.listing rfl)).single
  refine (sign_gives valid _).bind fun opened middle first => ?_
  refine (atSign_gives first.whole.valid _ _).bind fun empty next seen => ?_
  split
  · refine (sign_gives seen.1.valid _).bind fun shut last ends => .pure ?_
    rw [seen.1.offset] at ends
    exact list first (.of_sign nofun ends)
  · refine (element_gives obeys seen.1.valid).bind fun value last second => ?_
    rw [seen.1.offset] at second
    refine (atClauses_gives second.whole.valid).bind fun clauses now stays => ?_
    have second := second.stays stays
    split
    · exact (comprehension_gives obeys squares first second.of_header _ (by decide)).mono fun _ _ read => read.single
    · refine (restOfList_gives (by decide) (fun _ valid => (element_gives obeys valid).mono
        fun _ _ single => single.of_header) second.whole.valid _).bind fun all last read => .pure ?_
      obtain ⟨tail, rfl, rest⟩ := read
      rw [List.append_assoc]
      exact list first (.after second.of_header.whole.1 (listing_part second.of_header) rest)

/-- A node over a list in brackets whose first part was read. -/
theorem listed_gives {part : Parser Pieces} {opening closing : String}
    (pair : (opening, closing) ∈ bracketPairs)
    (reads : ∀ state, state.Valid source → Gives part state (Single source .matched state.offset))
    {offset : Nat} {opened inner : Pieces} {middle : ParseState}
    (first : Reads source .loose opening offset opened state)
    (between : Single source .matched state.offset inner middle) (kind : String)
    (free : (constructs ++ atoms).contains kind = false) :
    Gives (do
      let all ← restOfList closing part (opened ++ inner)
      return Pieces.node kind all : Parser Pieces) middle (Single source .header offset) :=
  (restOfList_whole pair (fun _ valid => (reads _ valid).mono fun _ _ read => read.whole.1) first
    between.whole.1).bind fun _ _ whole => .pure (whole.node kind free nofun)

/-- A node over brackets with nothing between them. -/
theorem empty_gives {opening closing : String} (pair : (opening, closing) ∈ bracketPairs)
    {offset : Nat} {opened : Pieces} (first : Reads source .loose opening offset opened state)
    (kind : String) (free : (constructs ++ atoms).contains kind = false) :
    Gives (do
      let shut ← sign closing
      return Pieces.node kind (opened ++ shut) : Parser Pieces) state
      (Single source .header offset) := by
  refine (sign_gives first.whole.valid _).bind fun shut last ends => .pure ?_
  have whole := Whole.bracketed pair first (.start first.whole.valid) ends
  rw [List.append_nil] at whole
  exact whole.node kind free nofun

private theorem elements_give (obeys : Obeys source grammar) (state : ParseState)
    (valid : state.Valid source) :
    Gives (element grammar) state (Single source .matched state.offset) :=
  (element_gives obeys valid).mono fun _ _ single => single.of_header

theorem parenthesised_gives (obeys : Obeys source grammar) (valid : state.Valid source) :
    Gives (parenthesised grammar) state (Single source .header state.offset) := by
  refine (sign_gives valid _).bind fun opened middle first => ?_
  refine (atSign_gives first.whole.valid _ _).bind fun empty next seen => ?_
  have first := first.stays seen.1
  split
  · exact empty_gives rounds first _ (by decide)
  · refine (elements_give obeys _ first.whole.valid).bind fun value last second => ?_
    refine (atClauses_gives second.whole.valid).bind fun clauses now stays => ?_
    have second := second.stays stays
    split
    · exact (comprehension_gives obeys rounds first second _ (by decide)).mono fun _ _ read => read.single
    · refine (atSign_gives second.whole.valid _ _).bind fun closes next seen => ?_
      have second := second.stays seen.1
      split
      · refine (sign_gives second.whole.valid _).bind fun shut last ends => .pure ?_
        exact (Whole.bracketed rounds first second.whole.1 ends).node _ (by decide) nofun
      · exact listed_gives rounds (elements_give obeys) first second _ (by decide)

theorem pairAfter_gives (obeys : Obeys source grammar) {offset : Nat} {key : Pieces}
    (first : Single source .header offset key state) :
    Gives (pairAfter grammar key) state (Single source .matched offset) := by
  refine (sign_gives first.whole.valid _).bind fun colon next second => ?_
  have began := first.whole.of_header.append second.colon.whole.1
  refine (obeys.expression began.valid _ _).bind fun value last third => .pure ?_
  exact (began.append third.of_header.whole.1).node _ (by decide) nofun

theorem entry_gives (obeys : Obeys source grammar) (state : ParseState)
    (valid : state.Valid source) :
    Gives (entry grammar) state (Single source .matched state.offset) := by
  refine (atSign_gives valid _ _).bind fun starred next seen => ?_
  rw [← seen.1.offset]
  split
  · exact (splat_gives obeys seen.1.valid (by decide) _ (by decide)).mono
      fun _ _ single => single.of_header
  · exact (obeys.expression seen.1.valid _ _).bind fun key last first => pairAfter_gives obeys first

theorem braceDisplay_gives (obeys : Obeys source grammar) (valid : state.Valid source) :
    Gives (braceDisplay grammar) state (Single source .header state.offset) := by
  refine (sign_gives valid _).bind fun opened middle first => ?_
  refine (peekLexeme_gives first.whole.valid _).bind fun lexeme next seen => ?_
  have first := first.stays seen.1
  split
  · exact empty_gives curls first _ (by decide)
  · refine (inert_sign_gives first.whole.valid (by decide)).bind fun comma next second => ?_
    refine (sign_gives second.whole.valid _).bind fun shut last ends => .pure ?_
    exact (Whole.bracketed curls first second.whole.1.of_header ends).node _ (by decide) nofun
  · refine (splat_gives obeys first.whole.valid (by decide) _ (by decide)).bind
      fun value next second => ?_
    exact listed_gives curls (entry_gives obeys) first second.of_header _ (by decide)
  · refine (element_gives obeys first.whole.valid).bind fun value last second => ?_
    refine (atSign_gives second.whole.valid _ _).bind fun colon next seen => ?_
    have second := second.stays seen.1
    split
    · refine (pairAfter_gives obeys second).bind fun pair next second => ?_
      refine (atClauses_gives second.whole.valid).bind fun clauses now stays => ?_
      have second := second.stays stays
      split
      · exact (comprehension_gives obeys curls first second _ (by decide)).mono fun _ _ read => read.single
      · exact listed_gives curls (entry_gives obeys) first second _ (by decide)
    · refine (atClauses_gives second.whole.valid).bind fun clauses now stays => ?_
      have second := second.stays stays
      split
      · exact (comprehension_gives obeys curls first second.of_header _ (by decide)).mono fun _ _ read => read.single
      · exact listed_gives curls (elements_give obeys) first second.of_header _ (by decide)

end

end LambdaLayout.Python
