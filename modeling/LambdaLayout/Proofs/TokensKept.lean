import LambdaLayout.Reformat

/-!
A pass keeps the tokens of a source. Every way in which a pass can succeed is followed to the text it
gives: a source that does not follow the grammar, one without candidates and one without edits come
back as they are, and an edited one only after its tokens were compared with those before. The
comparison stops at the shorter list and then compares lengths; together this is equality.
-/

namespace LambdaLayout

namespace Python.Tree

/-- A tree without repairs reports none. -/
theorem repairs_of_sound (sound : hasError tree = false) : repairs tree = [] := by
  cases tree with
  | node label children =>
    rw [hasError, Bool.or_eq_false_iff] at sound
    have whole : hasError (.node label children) = false := by
      rw [hasError, sound.1, sound.2, Bool.or_false]
    rw [repairs, whole, sound.1]
    rfl

mutual

/-- A tree that reports no repairs has none. -/
theorem sound_of_repairs : ∀ tree : Tree, repairs tree = [] → hasError tree = false
  | .node label children, clean => by
    cases below : anyError children <;>
      cases standing : label.standing != .sound <;>
      simp [repairs, hasError, standing, below] at clean ⊢
    exact absurd (sound_of_repairsOf children clean) (by simp [below])

theorem sound_of_repairsOf : ∀ trees : List Tree, repairsOf trees = [] → anyError trees = false
  | [], _ => rfl
  | tree :: rest, clean => by
    rw [repairsOf, List.append_eq_nil_iff] at clean
    rw [anyError, sound_of_repairs tree clean.1, sound_of_repairsOf rest clean.2]
    rfl

end

end Python.Tree

/-- A source that follows the grammar has no complaints. -/
theorem Python.Parsed.errors_of_sound {parsed : Python.Parsed} (sound : parsed.hasErrors = false) :
    parsed.errors = [] := by
  rw [errors, Tree.repairs_of_sound sound, List.map_nil]

/-- A source without complaints follows the grammar. -/
theorem Python.Parsed.sound_of_errors {parsed : Python.Parsed} (clean : parsed.errors = []) :
    parsed.hasErrors = false :=
  Tree.sound_of_repairs _ (List.map_eq_nil_iff.mp clean)

namespace Reformat

private theorem first_difference_none (index : Nat) (before after : List Mark)
    (agree : firstDifference index before after = none) (width : before.length = after.length) :
    before = after := by
  induction before generalizing index after with
  | nil => exact (List.eq_nil_of_length_eq_zero width.symm).symm
  | cons mark rest ih =>
    cases after with
    | nil => cases width
    | cons other others =>
      by_cases same : mark = other
      · rw [firstDifference, if_pos same] at agree
        rw [same, ih (index + 1) others agree (Nat.succ.inj width)]
      · rw [firstDifference, if_neg same] at agree
        cases agree

/-- Two lists of tokens pass the comparison only when they are equal: the scan for a difference
covers the common length, and the count covers the rest. -/
theorem compare_marks_none (agree : compareMarks before after = none) : before = after := by
  rw [compareMarks] at agree
  split at agree
  · cases agree
  · next clear =>
    split at agree
    · next width => exact first_difference_none 0 before after clear width
    · cases agree

variable {parse : Text → Python.Parsed}

/-- A text that passes verification follows the grammar and has the tokens asked for. -/
theorem mismatch_none {output : Text} (passed : mismatch? tokens output parse = none) :
    (parse output).errors = [] ∧
      significant (Token.tokenize (parse output)) = significant tokens := by
  rw [mismatch?] at passed
  split at passed
  · cases passed
  · next clean => exact ⟨clean, (compare_marks_none passed).symm⟩

/-- Edits are handed out only together with a text that passed verification. -/
theorem applied_ok {edits : List Edit} (ran : applied source tokens edits parse = .ok reformat) :
    mismatch? tokens reformat.output parse = none ∧ reformat.changes = edits.length := by
  rw [applied] at ran
  split at ran
  · cases ran
  · split at ran
    · cases ran
    · next passed =>
      cases ran
      exact ⟨passed, rfl⟩

/-- What is handed out for a source that follows the grammar: the source itself, unchanged, or a
text that passed verification against its tokens and counts at least one edit. -/
theorem of_parsed_ok {parsed : Python.Parsed} (sound : parsed.hasErrors = false)
    (ran : ofParsed keyword parsed parse = .ok reformat) :
    reformat = unchanged parsed.source ∨
      (mismatch? (Token.tokenize parsed) reformat.output parse = none ∧ 0 < reformat.changes) := by
  rw [ofParsed, sound, if_neg (by decide)] at ran
  cases scanned : Region.scan (Token.tokenize parsed) keyword with
  | error failure => simp [scanned, bind, Except.bind] at ran
  | ok regions =>
    cases confirmed : confirmedCalls keyword (Node.lower parsed) regions with
    | error failure =>
      by_cases none : regions.isEmpty
      · simp only [scanned, none, bind, Except.bind, ↓reduceIte, pure, Except.pure] at ran
        cases ran
        exact .inl rfl
      · simp [scanned, confirmed, none, bind, Except.bind] at ran
    | ok calls =>
      simp only [scanned, confirmed, bind, Except.bind, pure, Except.pure] at ran
      split at ran
      · cases ran
        exact .inl rfl
      · split at ran
        · cases ran
          exact .inl rfl
        · next some =>
          have facts := applied_ok ran
          refine .inr ⟨facts.1, ?_⟩
          rw [facts.2]
          exact List.length_pos_iff.mpr (fun empty => some (by rw [empty]; rfl))

/-- Whatever the parser, as long as it keeps the source: what is handed out for a source without
errors has none either, and the same tokens. -/
theorem keeps_tokens (keeps : ∀ source, (parse source).source = source)
    (ran : ofSource keyword source parse = .ok reformat) :
    ((parse source).hasErrors = true ∧ reformat.output = source) ∨
      ((parse reformat.output).errors = [] ∧
        significant (Token.tokenize (parse reformat.output)) =
          significant (Token.tokenize (parse source))) := by
  cases sound : (parse source).hasErrors with
  | true =>
    rw [ofSource, ofParsed, sound, if_pos rfl, keeps] at ran
    cases ran
    exact .inl ⟨rfl, rfl⟩
  | false =>
    refine .inr ?_
    rcases of_parsed_ok sound ran with unedited | ⟨passed, -⟩
    · have output : reformat.output = source := by rw [unedited]; exact keeps source
      rw [output]
      exact ⟨Python.Parsed.errors_of_sound sound, rfl⟩
    · exact mismatch_none passed

/-- Laying out a source either leaves a source with errors exactly as it is, or gives a text that
follows the grammar and has the same tokens and comments as the source, in the same order and with
the same categories; only commas and blank space may differ. -/
theorem of_source_keeps_tokens (keyword source : Text)
    (ran : ofSource keyword source = .ok reformat) :
    ((Python.parse source).hasErrors = true ∧ reformat.output = source) ∨
      ((Python.parse reformat.output).errors = [] ∧
        significant (Token.tokenize (Python.parse reformat.output)) =
          significant (Token.tokenize (Python.parse source))) :=
  keeps_tokens (fun _ => rfl) ran

theorem ok_of_to_option {ε α : Type} {outcome : Except ε α} {answer : α}
    (given : outcome.toOption = some answer) : outcome = .ok answer := by
  cases outcome with
  | error failure => cases given
  | ok result => cases given; rfl

/-- The theorem applies to a source whose only call loses a trailing comma. -/
theorem of_source_keeps_tokens_comma :
    ∃ reformat, ofSource defaultKeyword "f = def_(lambda: [a,])\n".toList = .ok reformat ∧
      reformat.output = "f = def_(lambda: [\n    a\n])\n".toList ∧
      significant (Token.tokenize (Python.parse reformat.output)) =
        significant (Token.tokenize (Python.parse "f = def_(lambda: [a,])\n".toList)) := by
  have ran : ofSource defaultKeyword "f = def_(lambda: [a,])\n".toList =
      .ok ⟨"f = def_(lambda: [\n    a\n])\n".toList, 1⟩ := ok_of_to_option (by decide +kernel)
  rcases of_source_keeps_tokens _ _ ran with ⟨broken, -⟩ | ⟨-, kept⟩
  · exact absurd broken (by decide +kernel)
  · exact ⟨_, ran, rfl, kept⟩

end Reformat

end LambdaLayout
