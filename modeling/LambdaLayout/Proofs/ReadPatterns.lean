import LambdaLayout.Proofs.ReadExpressions
import LambdaLayout.Python.CasePattern

/-!
The patterns of match statements, whose brackets match.
-/

namespace LambdaLayout.Python

open LambdaLayout.Python.Tree
open LambdaLayout.Python.Parser

section

variable {source : Text} {grammar : Grammar} {state : ParseState}

theorem Obeys.casePattern (obeys : Obeys source grammar) (valid : state.Valid source)
    (after : After) :
    Gives (grammar (.casePattern after)) state (Whole source .matched state.offset) :=
  obeys _ state valid

theorem Obeys.simplePattern (obeys : Obeys source grammar) (valid : state.Valid source)
    (after : After) :
    Gives (grammar (.simplePattern after)) state (Whole source .matched state.offset) :=
  obeys _ state valid

theorem dottedName_gives (after : After) (valid : state.Valid source) :
    Gives (dottedName after) state (Single source .header state.offset) := by
  refine (identifier_gives valid).bind fun first next began => ?_
  refine (Gives.extend (Whole source .header state.offset) began.single.whole ?_).bind
    fun all last whole => .pure (whole.node _ (by decide) nofun)
  intro pieces now whole
  refine (atSign_gives whole.valid _ _).bind fun dotted now seen => ?_
  have whole := whole.stays seen.1
  split
  · refine (inert_sign_gives whole.valid (by decide)).bind fun dot _ second => ?_
    have began := whole.append second.whole.1
    exact (identifier_gives began.valid).bind fun name _ third =>
      .pure (began.append third.single.whole.1)
  · exact .pure whole

theorem patternsIn_gives (obeys : Obeys source grammar) {opening closing : String}
    (pair : (opening, closing) ∈ bracketPairs) (valid : state.Valid source) :
    Gives (patternsIn grammar opening closing) state (Whole source .header state.offset) := by
  refine (sign_gives valid _).bind fun opened next first => ?_
  refine (atSign_gives first.whole.valid _ _).bind fun empty now seen => ?_
  have first := first.stays seen.1
  split
  · refine (sign_gives first.whole.valid _).bind fun shut last ends => .pure ?_
    have whole := Whole.bracketed pair first (.start first.whole.valid) ends
    rwa [List.append_nil] at whole
  · refine (obeys.casePattern first.whole.valid _).bind fun pattern last second => ?_
    exact restOfList_whole pair
      (fun _ valid => (obeys.casePattern valid _).mono fun _ _ read => read.1) first second.1

theorem splatPattern_gives {star : String} (inert : isInert star = true)
    (valid : state.Valid source) :
    Gives (splatPattern star) state (Single source .header state.offset) := by
  refine (inert_sign_gives valid inert).bind fun mark next first => ?_
  refine (atWord_gives first.whole.valid _ _).bind fun wild now seen => ?_
  have first := first.stays seen.1
  split
  · next is =>
    refine (leaf_word_gives first.whole.valid (seen.2 is) (by decide)).bind
      fun name last second => .pure ?_
    exact (first.whole.append (second.inert (by decide)).whole.1).node _ (by decide) nofun
  · refine (identifier_gives first.whole.valid).bind fun name last second => .pure ?_
    exact (first.whole.append second.single.whole.1).node _ (by decide) nofun

theorem patternEntry_gives (obeys : Obeys source grammar) (state : ParseState)
    (valid : state.Valid source) :
    Gives (patternEntry grammar) state (Whole source .matched state.offset) := by
  refine (peekLexeme_gives valid _).bind fun lexeme next seen => ?_
  rw [← seen.1.offset]
  have valid := seen.1.valid
  split
  · exact (splatPattern_gives (by decide) valid).mono fun _ _ read => read.whole.of_header
  · exact (splatPattern_gives (by decide) valid).mono fun _ _ read => read.whole.of_header
  · refine (obeys.simplePattern valid _).bind fun key now first => ?_
    refine (sign_gives first.valid _).bind fun colon now second => ?_
    have began := first.append second.colon.whole.1
    exact (obeys.casePattern began.valid _).bind fun pattern last third =>
      .pure (began.append third.1)

theorem dictionaryPattern_gives (obeys : Obeys source grammar) (valid : state.Valid source) :
    Gives (dictionaryPattern grammar) state (Single source .header state.offset) := by
  refine (sign_gives valid _).bind fun opened next first => ?_
  refine (atSign_gives first.whole.valid _ _).bind fun empty now seen => ?_
  have first := first.stays seen.1
  split
  · exact empty_gives curls first _ (by decide)
  · refine (patternEntry_gives obeys _ first.whole.valid).bind fun entry last second => ?_
    exact (restOfList_whole curls
      (fun _ valid => (patternEntry_gives obeys _ valid).mono fun _ _ read => read.1) first
      second.1).bind fun _ _ whole => .pure (whole.node _ (by decide) nofun)

theorem numeral_gives (valid : state.Valid source) :
    Gives numeral state (Single source .header state.offset) := by
  refine (peekLexeme_gives valid _).bind fun lexeme next seen => ?_
  rw [← seen.1.offset]
  split
  · exact named_leaf_gives seen.1.valid seen.2.1 rfl (by decide) fun _ covers =>
      ⟨⟨rfl, rfl, nofun, nofun⟩, covers.2⟩
  · exact named_leaf_gives seen.1.valid seen.2.1 rfl (by decide) fun _ covers =>
      ⟨⟨rfl, rfl, nofun, nofun⟩, covers.2⟩
  · exact .failure

theorem numberPattern_gives (after : After) (valid : state.Valid source) :
    Gives (numberPattern after) state (Whole source .header state.offset) := by
  refine (atSign_gives valid _ _).bind fun negative next seen => ?_
  rw [← seen.1.offset]
  refine .either
    (fun _ => (inert_sign_gives seen.1.valid (by decide)).mono fun _ _ read => read.whole.1)
    (fun _ => .pure (.start seen.1.valid)) fun minus now first => ?_
  refine (numeral_gives first.valid).bind fun whole now second => ?_
  have began : Whole source .header next.offset (minus ++ whole) now :=
    ⟨first.append second.whole.1, by simp [second.whole.2]⟩
  refine (anySign_gives began.valid _ (by decide)).bind fun result now read => ?_
  split
  · obtain ⟨text, third⟩ := read
    have began := began.append third.whole.1
    refine (numeral_gives began.valid).bind fun more last fourth => .pure ?_
    exact ((began.append fourth.whole.1).node _ (by decide) nofun).whole
  · exact .pure (began.stays read)

theorem plainPattern_gives (obeys : Obeys source grammar) (after : After)
    (valid : state.Valid source) :
    Gives (plainPattern grammar after) state (Whole source .header state.offset) := by
  refine (peekLexeme_gives valid _).bind fun lexeme next seen => ?_
  rw [← seen.1.offset]
  have valid := seen.1.valid
  have sees := seen.2.1
  have literal : ∀ {kind word : String}, (constructs ++ atoms).contains kind = false →
      next.Sees (.word word) → word ≠ "lambda" →
      Gives (leaf kind true) next (Whole source .header next.offset) := by
    intro kind word free sees other
    refine (named_leaf_gives valid sees rfl free fun _ covers => ?_).mono fun _ _ read => read.whole
    exact ⟨.of_word covers other, fresh_of_word covers⟩
  split
  · exact (stringLiteral_gives obeys after valid).mono fun _ _ read => read.whole
  · exact numberPattern_gives after valid
  · exact numberPattern_gives after valid
  · exact numberPattern_gives after valid
  · exact literal (by decide) sees (by decide)
  · exact literal (by decide) sees (by decide)
  · exact literal (by decide) sees (by decide)
  · exact (leaf_word_gives valid sees (by decide)).mono fun _ _ read =>
      (read.inert (by decide)).whole
  · refine (dottedName_gives after valid).bind fun name now first => ?_
    refine (atSign_gives first.whole.valid _ _).bind fun called now seen => ?_
    have first := first.stays seen.1
    split
    · refine (patternsIn_gives obeys rounds first.whole.valid).bind fun given last second => ?_
      exact .pure ((first.whole.append second.1).node _ (by decide) nofun).whole
    · exact .pure first.whole
  · exact (patternsIn_gives obeys squares valid).bind fun _ _ whole =>
      .pure (whole.node _ (by decide) nofun).whole
  · exact (patternsIn_gives obeys rounds valid).bind fun _ _ whole =>
      .pure (whole.node _ (by decide) nofun).whole
  · exact (dictionaryPattern_gives obeys valid).mono fun _ _ read => read.whole
  · exact (splatPattern_gives (by decide) valid).mono fun _ _ read => read.whole
  · exact (splatPattern_gives (by decide) valid).mono fun _ _ read => read.whole
  · exact .failure

theorem simplePattern_gives (obeys : Obeys source grammar) (after : After)
    (valid : state.Valid source) :
    Gives (simplePattern grammar after) state (Whole source .header state.offset) := by
  refine (plainPattern_gives obeys after valid).bind fun first next began => ?_
  let sofar := fun (read : Pieces × Bool) now => Whole source .header state.offset read.1 now
  refine (Gives.extend sofar began ?_).bind ?_
  · rintro ⟨pieces, several⟩ now whole
    refine (atSign_gives whole.valid _ _).bind fun found now seen => ?_
    have whole := whole.stays seen.1
    split
    · refine (inert_sign_gives whole.valid (by decide)).bind fun bar _ second => ?_
      have began := whole.append second.whole.1
      exact (plainPattern_gives obeys after began.valid).bind fun more _ third =>
        .pure (began.append third.1)
    · exact .pure whole
  · rintro ⟨pieces, several⟩ now whole
    refine .pure ?_
    split
    · exact (whole.node _ (by decide) nofun).whole
    · exact whole

theorem casePattern_gives (obeys : Obeys source grammar) (after : After)
    (valid : state.Valid source) :
    Gives (casePattern grammar after) state (Whole source .matched state.offset) := by
  have named : Gives (do
      let name ← identifier
      let equals ← sign "="
      return Pieces.node "keyword_pattern"
        (name ++ equals ++ (← grammar (.simplePattern after))) : Parser Pieces) state
      (Whole source .matched state.offset) := by
    refine (identifier_gives valid).bind fun name next first => ?_
    refine (inert_sign_gives first.single.whole.valid (by decide)).bind fun equals now second => ?_
    have began := first.single.whole.append second.whole.1
    refine (obeys.simplePattern began.valid _).bind fun value last third => .pure ?_
    exact ((began.of_header.append third.1).node _ (by decide) nofun).whole
  refine (named.orElse (obeys.simplePattern valid _)).bind fun first next began => ?_
  refine Gives.extend (Whole source .matched state.offset)
    (began.node _ (by decide) nofun).whole fun pattern now whole => ?_
  refine (atWord_gives whole.valid _ _).bind fun renamed now seen => ?_
  have whole := whole.stays seen.1
  split
  · refine (inert_keyword_gives whole.valid (by decide) (by decide)).bind fun word _ second => ?_
    have began := whole.append second.whole.1.of_header
    refine (identifier_gives began.valid).bind fun name _ third => .pure ?_
    have named := (began.append third.single.whole.1.of_header).node "as_pattern" (by decide) nofun
    exact (named.whole.node _ (by decide) nofun).whole
  · exact .pure whole

end

end LambdaLayout.Python
