import LambdaLayout.Proofs.Frame

/-!
How a pass can fail. Candidates are found only for a keyword that is a name, and the patterns made
of a name can be read; the rules for tokens are always taken; and the edits are made in the place of
calls, which lie apart in the source and start and end with a character. What is left is a result
that is not what was read.
-/

namespace LambdaLayout

open LambdaLayout.Python (Parsed)

namespace Reformat

/-- A mismatch is not worded like an edit that does not fit. -/
theorem Mismatch.message_ne (mismatch : Mismatch) (fault : Edit.Fault) :
    mismatch.message ≠ fault.message := by
  have first : mismatch.message.head? = some 'f' := by cases mismatch <;> rfl
  have other : fault.message.head? = some 'e' := by cases fault <;> rfl
  intro same
  rw [same, other] at first
  exact absurd first (by decide)

variable {keyword : Text} {parsed : Parsed} {failure : Failure} {parse : Text → Parsed}

/-- A pass fails only after its edits were made, on a result that is not what was read. -/
theorem of_parsed_error (grammatical : parsed.hasErrors = false → parsed.Grammatical)
    (failed : ofParsed keyword parsed parse = .error failure) :
    ∃ mismatch : Mismatch, failure = .contentChanged mismatch.message := by
  cases sound : parsed.hasErrors with
  | true =>
    rw [ofParsed, sound, if_pos rfl] at failed
    cases failed
  | false =>
    have grammatical := grammatical sound
    have scanned := Region.scan_is_run (Token.tokenize parsed) keyword
    generalize (Region.run (Region.begin keyword) (Token.tokenize parsed)).1 = regions at scanned
    by_cases none : regions = []
    · subst none
      rw [ofParsed, sound, if_neg (by decide)] at failed
      simp only [scanned, bind, Except.bind] at failed
      cases failed
    · have confirmed :=
        confirmedCalls_eq (Region.name_of_found scanned none) (Node.lower parsed) regions
      have confirms : Confirms keyword parsed _ :=
        ⟨regions, scanned, by rw [if_neg none]; exact confirmed⟩
      obtain ⟨output, made⟩ := edits_made grammatical (confirms.layout grammatical sound)
      rw [of_parsed_eq sound scanned none] at failed
      simp only at failed
      split at failed
      · cases failed
      · have source : (Layout.make parsed.source (Token.tokenize parsed)
            (callsIn keyword (Node.lower parsed) regions)).source = parsed.source := rfl
        rw [source] at made
        rw [applied, made] at failed
        split at failed
        · next is => cases is
        · split at failed
          · next mismatch _ => exact ⟨mismatch, (Except.error.inj failed).symm⟩
          · cases failed

/-- A keyword that is no name leaves every source as it is. -/
theorem of_parsed_nameless (nameless : Text.isName keyword = false) :
    ofParsed keyword parsed parse = .ok (unchanged parsed.source) := by
  cases sound : parsed.hasErrors with
  | true => rw [ofParsed, sound, if_pos rfl]
  | false =>
    have scanned := Region.scan_is_run (Token.tokenize parsed) keyword
    generalize (Region.run (Region.begin keyword) (Token.tokenize parsed)).1 = regions at scanned
    by_cases none : regions = []
    · subst none
      rw [ofParsed, sound, if_neg (by decide)]
      simp only [scanned, bind, Except.bind]
      rfl
    · rw [Region.name_of_found scanned none] at nameless
      cases nameless

/-- Whatever the parser, as long as it is lawful: a pass fails on a mismatch only, and does nothing
for a keyword that is no name. -/
theorem failures_of_lawful (lawful : Python.Lawful parse) (keyword source : Text) :
    (∀ pattern reason, ofSource keyword source parse ≠ .error (.badPattern pattern reason)) ∧
      (∀ fault, ofSource keyword source parse ≠ .error (.dispatch fault)) ∧
      (∀ fault : Edit.Fault,
        ofSource keyword source parse ≠ .error (.contentChanged fault.message)) ∧
      (Text.isName keyword = true ∨ ofSource keyword source parse = .ok (unchanged source)) := by
  have fails : ∀ failure, ofSource keyword source parse = .error failure →
      ∃ mismatch : Mismatch, failure = .contentChanged mismatch.message :=
    fun failure => of_parsed_error (lawful.grammatical source)
  refine ⟨?_, ?_, ?_, ?_⟩
  · intro pattern reason failed
    obtain ⟨mismatch, is⟩ := fails _ failed
    cases is
  · intro fault failed
    obtain ⟨mismatch, is⟩ := fails _ failed
    cases is
  · intro fault failed
    obtain ⟨mismatch, is⟩ := fails _ failed
    exact mismatch.message_ne fault (Failure.contentChanged.inj is).symm
  · cases name : Text.isName keyword with
    | true => exact .inl rfl
    | false =>
      rw [ofSource, of_parsed_nameless name, lawful.keeps]
      exact .inr rfl

/-- Whatever the keyword and the source, a pass reports no pattern that cannot be read, no rule for
tokens that was not taken, and no edit that lies outside the source or parts a character. A keyword
that is no name leaves the source as it is. -/
theorem of_source_failures (keyword source : Text) :
    (∀ pattern reason, ofSource keyword source ≠ .error (.badPattern pattern reason)) ∧
      (∀ fault, ofSource keyword source ≠ .error (.dispatch fault)) ∧
      (∀ fault : Edit.Fault, ofSource keyword source ≠ .error (.contentChanged fault.message)) ∧
      (Text.isName keyword = true ∨ ofSource keyword source = .ok (unchanged source)) :=
  failures_of_lawful Python.parse_lawful keyword source

end Reformat

end LambdaLayout
