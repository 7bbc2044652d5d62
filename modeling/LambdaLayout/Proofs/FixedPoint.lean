import LambdaLayout.Proofs.LambdasFound
import LambdaLayout.Proofs.TokensKept

/-!
What a pass makes of a source that follows the grammar, and why a second pass may have something
left to do. Candidates are found for names only, so that the calls of a source that has candidates
are always confirmed. The layout of a call is taken at the indentation of the line the call starts
on in the source that the pass reads. That line may start inside a call that the same pass lays out
anew, so the result of a pass need not be a text that the next pass leaves as it is.
-/

namespace LambdaLayout

open LambdaLayout.Python (Parsed Tree)

namespace Token

private theorem name_of_punctuation {kind : String} {text : Text}
    (name : TokenKind.ofLeaf kind text = .name) : Text.isName text = true := by
  rw [TokenKind.ofLeaf] at name
  split at name
  · cases name
  split at name
  · cases name
  split at name
  · cases name
  cases punctuation : TokenKind.ofPunctuation? text with
  | some found =>
    rw [punctuation] at name
    subst name
    rw [TokenKind.ofPunctuation?.eq_def] at punctuation
    split at punctuation <;> cases punctuation
  | none =>
    rw [punctuation] at name
    by_cases word : Text.isName text = true
    · exact word
    · simp [word] at name

private theorem not_name_of_gap {byte : Nat} {position : Position} {gap : Text} {token : Token}
    (mem : token ∈ ofGap byte position gap) : token.kind ≠ .name := by
  intro name
  have kept : token ∈ (ofGap byte position gap).filter fun token => !token.isBlank :=
    List.mem_filter.mpr ⟨mem, by simp [isBlank, name]⟩
  rw [ofGap_blank] at kept
  cases kept

/-- A token of the category of names has the text of a name. -/
theorem name_of_kind {source : Text} {byte : Nat} {position : Position} {leaves : List Tree}
    {token : Token} (mem : token ∈ ofLeaves source byte position leaves)
    (kind : token.kind = .name) : Text.isName token.text = true := by
  induction leaves generalizing byte position with
  | nil =>
    rw [ofLeaves] at mem
    split at mem
    · exact absurd kind (not_name_of_gap mem)
    · cases mem
  | cons leaf rest ih =>
    rw [ofLeaves] at mem
    split at mem
    · exact ih mem
    split at mem
    · exact ih mem
    simp only at mem
    split at mem
    · rcases List.mem_append.mp mem with gap | later
      · exact absurd kind (not_name_of_gap gap)
      · exact ih later
    · rcases List.mem_append.mp mem with gap | later
      · exact absurd kind (not_name_of_gap gap)
      · rcases List.mem_cons.mp later with rfl | later
        · exact name_of_punctuation kind
        · exact ih later

end Token

/-- A source has candidates only for a keyword that is a name. -/
theorem Region.name_of_found {parsed : Parsed} {keyword : Text} {regions : List Region}
    (scanned : scan (Token.tokenize parsed) keyword = .ok regions) (found : regions ≠ []) :
    Text.isName keyword = true := by
  rw [scan_is_run] at scanned
  cases scanned
  obtain ⟨region, mem⟩ := List.exists_mem_of_ne_nil _ found
  obtain ⟨-, origins⟩ := run_follows (Token.tokenize parsed)
    (follows_begin keyword fun _ => Text.isName keyword = true) fun token mem word => by
      rw [← word.2]
      exact Token.name_of_kind mem word.1
  exact (origins region mem).1

namespace Reformat

/-- Without candidates no call is confirmed. -/
theorem confirmed_nil {keyword : Text} {root : Node} {calls : List Node}
    (checked : confirmedCalls keyword root [] = .ok calls) : calls = [] := by
  have none : ∀ node, isConfirmed [] node = false := by
    intro node
    rw [isConfirmed]
    split <;> rfl
  simp only [confirmedCalls, bind, Except.bind] at checked
  split at checked
  · cases checked
  split at checked
  · cases checked
  cases checked
  exact List.filter_eq_nil_iff.mpr fun node _ => by simp [none]

/-- What a pass does with a source that follows the grammar and has candidates. -/
theorem of_parsed_eq {keyword : Text} {parsed : Parsed} {regions : List Region}
    {parse : Text → Parsed} (sound : parsed.hasErrors = false)
    (scanned : Region.scan (Token.tokenize parsed) keyword = .ok regions) (some : regions ≠ []) :
    ofParsed keyword parsed parse =
      let edits := edits (Layout.make parsed.source (Token.tokenize parsed)
        (callsIn keyword (Node.lower parsed) regions))
      if edits.isEmpty then .ok (unchanged parsed.source)
      else applied parsed.source (Token.tokenize parsed) edits parse := by
  have confirmed :=
    confirmedCalls_eq (Region.name_of_found scanned some) (Node.lower parsed) regions
  rw [ofParsed, sound, if_neg (by decide)]
  simp only [scanned, confirmed, bind, Except.bind, List.isEmpty_iff, some, ↓reduceIte, pure,
    Except.pure]

/-- The confirmed calls of a source, in the order in which they are found. -/
def found (keyword source : Text) : List Node :=
  let parsed := Python.parse source
  callsIn keyword (Node.lower parsed)
    (Region.run (Region.begin keyword) (Token.tokenize parsed)).1

/-- Calls that are found in order need no sorting. -/
private theorem of_source_sorted {keyword source : Text} {reformat : Reformat}
    (ran : (Python.parse source).hasErrors = false ∧
      (Region.run (Region.begin keyword) (Token.tokenize (Python.parse source))).1 ≠ [] ∧
      ((found keyword source).Pairwise fun left right => Layout.precedes left right = true) ∧
      (let tokens := Token.tokenize (Python.parse source)
        let edits := edits ⟨source, tokens, Layout.dropRepeats none (found keyword source)⟩
        (if edits.isEmpty then .ok (unchanged source)
          else applied source tokens edits).toOption) = some reformat) :
    ofSource keyword source = .ok reformat := by
  obtain ⟨sound, some, sorted, made⟩ := ran
  rw [found] at sorted
  rw [ofSource, of_parsed_eq sound (Region.scan_is_run _ _) some, Layout.make,
    List.mergeSort_of_pairwise sorted]
  exact ok_of_to_option made

/-- A second pass may change the result of the first one. The second call starts on a line of the
first one, whose indentation goes away when the first one is laid out. -/
theorem of_source_again_moves :
    ∃ reformat, ofSource defaultKeyword
        "x = [def_(lambda: [a,\n  b]), def_(lambda: [\n      c\n  ])]\n".toList = .ok reformat ∧
      ofSource defaultKeyword reformat.output ≠ .ok (unchanged reformat.output) := by
  let output :=
    "x = [def_(lambda: [\n    a,\n    b\n]), def_(lambda: [\n      c\n  ])]\n".toList
  let moved :=
    "x = [def_(lambda: [\n    a,\n    b\n]), def_(lambda: [\n    c\n])]\n".toList
  have once : ofSource defaultKeyword
      "x = [def_(lambda: [a,\n  b]), def_(lambda: [\n      c\n  ])]\n".toList = .ok ⟨output, 1⟩ :=
    of_source_sorted (by decide +kernel)
  have twice : ofSource defaultKeyword output = .ok ⟨moved, 1⟩ :=
    of_source_sorted (by decide +kernel)
  refine ⟨_, once, fun again => ?_⟩
  have same := congrArg Reformat.output (Except.ok.inj (twice.symm.trans again))
  exact absurd same (by decide)

end Reformat

end LambdaLayout
