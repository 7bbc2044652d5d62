import Mathlib.Data.List.Induction
import LambdaLayout.Proofs.CandidatesFound

/-!
Every candidate among the tokens is found, unless an earlier one is still followed when the pass gets
there. The counters follow the tokens of the candidate up to its last parenthesis. What the pass
remembers of a candidate that it has dropped or completed makes no difference to what it finds later.
-/

namespace LambdaLayout.Region

/-- The pass over the tokens ends in no candidate. -/
def EndsOutside (keyword : Text) (tokens : List Token) : Prop :=
  ∃ rules, table = .ok rules ∧ (rules.dispatchAll (begin keyword) tokens).2.state = .outside

theorem ends_outside_iff {keyword : Text} {tokens : List Token} :
    EndsOutside keyword tokens ↔ (run (begin keyword) tokens).2.state = .outside := by
  obtain ⟨rules, made, runs⟩ := table_runs
  rw [← runs]
  constructor
  · rintro ⟨others, same, out⟩
    rw [made] at same
    cases same
    exact out
  · exact fun out => ⟨rules, made, out⟩

section Candidates

variable {keyword : Text} {callee : Callee keyword} {scan next other : Scan}
  {token openParen lambda colon openBracket : Token} {parameters body front : List Token}

/-- A step that completes nothing after a run that has not either. -/
theorem run_snoc (ran : run scan front = ([], next)) (stepped : step next token = (none, other)) :
    run scan (front ++ [token]) = ([], other) := by
  rw [run_append, ran, run, stepped]
  rfl

/-- A colon that could end the header leaves more colons than lambdas before it. -/
theorem IsHeader.not_pending (header : IsHeader lambda parameters colon)
    (enclosed : Enclosed parameters) : ¬ Pending (parameters ++ [colon]) := by
  intro pending
  have whole := pending _ (List.prefix_refl _)
  have other : ¬ IsKeyword lambdaWord colon := by
    rintro ⟨name, -⟩
    rw [header.isColon] at name
    cases name
  rw [colons_concat _ enclosed, if_pos ⟨header.level, header.isColon⟩, lambdas_concat _ enclosed,
    if_neg (fun both => other both.2), header.settled] at whole
  exact absurd whole (Nat.not_succ_le_self _)

/-- The pass follows the parameters of a lambda. -/
theorem InParameters.run (within : InParameters callee openParen lambda [] scan)
    (significant : ∀ token ∈ parameters, token.isInsignificant = false)
    (enclosed : Enclosed parameters) (pending : Pending parameters) :
    ∃ next, Region.run scan parameters = ([], next) ∧
      InParameters callee openParen lambda parameters next := by
  induction parameters using List.reverseRecOn with
  | nil => exact ⟨scan, rfl, within⟩
  | append_singleton front token ih =>
    have begins : front <+: front ++ [token] := List.prefix_append _ _
    obtain ⟨middle, ran, sofar⟩ := ih (fun other mem => significant other (by simp [mem]))
      (enclosed.front begins) (pending.front begins)
    obtain ⟨next, stepped, more | entered | ⟨early, -⟩⟩ := sofar.step (significant token (by simp))
    · exact ⟨next, run_snoc ran stepped, more⟩
    · exact absurd pending (entered.header.not_pending entered.enclosed)
    · exact absurd enclosed early

/-- The pass follows the body of a lambda. -/
theorem InBody.run
    (within : InBody callee openParen lambda parameters colon openBracket [] scan)
    (significant : ∀ token ∈ body, token.isInsignificant = false)
    (enclosed : Enclosed (parameters ++ colon :: openBracket :: body)) :
    ∃ next, Region.run scan body = ([], next) ∧
      InBody callee openParen lambda parameters colon openBracket body next := by
  induction body using List.reverseRecOn with
  | nil => exact ⟨scan, rfl, within⟩
  | append_singleton front token ih =>
    have split : parameters ++ colon :: openBracket :: (front ++ [token]) =
        (parameters ++ colon :: openBracket :: front) ++ [token] := by simp
    rw [split] at enclosed
    obtain ⟨middle, ran, sofar⟩ := ih (fun other mem => significant other (by simp [mem]))
      (enclosed.front (List.prefix_append _ _))
    rcases sofar.step (significant token (by simp)) with ⟨next, stepped, more⟩ | ⟨level, closes, -⟩
    · exact ⟨next, run_snoc ran stepped, more⟩
    · exact absurd enclosed (not_enclosed_snoc level closes)

/-- In no candidate the pass follows the next one to its end. -/
theorem Candidate.run (candidate : Candidate keyword) (away : Away keyword scan)
    (significant : ∀ token ∈ candidate.list, token.isInsignificant = false) :
    ∃ next, Region.run scan candidate.list = ([candidate.region], next) ∧ Away keyword next := by
  have plain := plain_of_name candidate.header.isLambda.1
  have enclosed : Enclosed (candidate.parameters ++ candidate.colon :: candidate.openBracket ::
    candidate.body) := (enclosed_cons plain).mp candidate.enclosed
  have begins : candidate.parameters ++ [candidate.colon] <+:
      candidate.parameters ++ candidate.colon :: candidate.openBracket :: candidate.body :=
    (List.prefix_append_right_inj _).mpr ⟨_, rfl⟩
  simp only [Candidate.list, Candidate.argument, List.mem_append, List.mem_cons,
    List.not_mem_nil, or_false] at significant
  -- The callee, its parenthesis and the lambda.
  obtain ⟨called, first, known⟩ := candidate.callee.run (.inl away.2) away.1
  obtain ⟨open_, second, begun⟩ := known.opens candidate.opens
  obtain ⟨header, third, within | ⟨other, -⟩⟩ :=
    begun.step (significant candidate.lambda (by simp))
  swap
  · exact absurd candidate.header.isLambda other
  -- The parameters and the colon after them.
  obtain ⟨ended, fourth, parameters⟩ := within.run
    (fun token mem => significant token (by simp [mem]))
    ((enclosed.front begins).front (List.prefix_append _ _)) candidate.header.pending
  obtain ⟨entered, fifth, more | inside | ⟨early, -⟩⟩ :=
    parameters.step (significant candidate.colon (by simp))
  · exact absurd more.pending (candidate.header.not_pending parameters.counted.enclosed)
  swap
  · exact absurd (enclosed.front begins) early
  -- The list and all that follows up to the parenthesis that closes the call.
  obtain ⟨listed, sixth, list | ⟨other, -⟩⟩ :=
    inside.step (significant candidate.openBracket (by simp))
  swap
  · exact absurd candidate.isList other
  obtain ⟨last, seventh, body⟩ := list.run
    (fun token mem => significant token (by simp [mem])) enclosed
  rcases body.step (significant candidate.closeParen (by simp)) with
    ⟨next, -, more⟩ | ⟨-, -, next, gone, eighth⟩
  · have level := candidate.balanced
    obtain ⟨up, down⟩ := counts_plain plain
    rw [closings_cons, openings_cons, up, down] at level
    have closes : candidate.closeParen.kind.closes = true := by rw [candidate.closes]; rfl
    have whole := more.counted.enclosed
    have split : candidate.parameters ++ candidate.colon :: candidate.openBracket ::
        (candidate.body ++ [candidate.closeParen]) = (candidate.parameters ++ candidate.colon ::
          candidate.openBracket :: candidate.body) ++ [candidate.closeParen] := by simp
    rw [split] at whole
    exact absurd whole (not_enclosed_snoc (by omega) closes)
  · refine ⟨next, ?_, gone⟩
    rw [if_pos candidate.closes] at eighth
    rw [Candidate.list, run_append, first, Region.run, second]
    simp only [Candidate.argument, List.cons_append, List.append_assoc, Region.run, third,
      run_append, fourth, fifth, sixth, seventh, eighth]
    rfl

end Candidates

section Leftovers

/-- The two scans stand at the same place, and what they remember differs only in what will not be
looked at before it is set anew. -/
inductive Alike (keyword : Text) : Scan → Scan → Prop where
  /-- Nothing is looked at in no candidate. -/
  | away {scan other : Scan} (first : Away keyword scan) (second : Away keyword other) :
      Alike keyword scan other
  /-- The offset of the parenthesis is set when it comes. -/
  | seen {progress : Progress} (openParen : Nat) (same : progress.keyword = keyword) :
      Alike keyword ⟨.seenKeyword, progress⟩ ⟨.seenKeyword, { progress with openParen := openParen }⟩
  | same (scan : Scan) : Alike keyword scan scan

variable {keyword : Text} {scan other : Scan} {token : Token}

private theorem seen_step {progress : Progress} (same : progress.keyword = keyword)
    (openParen : Nat) (token : Token) :
    let left : Scan := ⟨.seenKeyword, progress⟩
    let right : Scan := ⟨.seenKeyword, { progress with openParen := openParen }⟩
    (step left token).1 = (step right token).1 ∧
      Alike keyword (step left token).2 (step right token).2 := by
  intro left right
  cases blank : token.isInsignificant with
  | true =>
    have idle : ∀ scan, step scan token = (none, scan) := by
      intro scan
      rw [step, blank]
      rfl
    rw [idle, idle]
    exact ⟨rfl, .seen openParen same⟩
  | false =>
    have drops : Alike keyword ⟨.outside, left.aux⟩ ⟨.outside, right.aux⟩ :=
      .away ⟨same, rfl⟩ ⟨same, rfl⟩
    have here : left.state = .seenKeyword := rfl
    have there : right.state = .seenKeyword := rfl
    rw [step_after_keyword here blank, step_after_keyword there blank]
    split
    · simp only [onNameAfterKeyword, left, right]
      split
      · exact ⟨rfl, .seen openParen same⟩
      · split
        · exact ⟨rfl, .seen openParen same⟩
        · exact ⟨rfl, drops⟩
    · split
      · simp only [onDotAfterKeyword, left, right]
        split
        · exact ⟨rfl, drops⟩
        · exact ⟨rfl, .seen openParen same⟩
      · split
        · simp only [onCallOpen, left, right]
          split
          · exact ⟨rfl, drops⟩
          · exact ⟨rfl, .same _⟩
        · exact ⟨rfl, drops⟩

/-- Scans that are alike do the same with the next token, and are alike after it. -/
theorem Alike.step (alike : Alike keyword scan other) (token : Token) :
    (Region.step scan token).1 = (Region.step other token).1 ∧
      Alike keyword (Region.step scan token).2 (Region.step other token).2 := by
  cases alike with
  | away first second =>
    by_cases again : IsKeyword keyword token
    · have restarts : other.aux.restart token.span.startByte =
          { scan.aux.restart token.span.startByte with openParen := other.aux.openParen } := by
        simp only [Progress.restart, first.1, second.1]
      rw [CallTokens.step_keyword (.inl first.2) first.1 again,
        CallTokens.step_keyword (.inl second.2) second.1 again, restarts]
      exact ⟨rfl, .seen _ first.1⟩
    · rw [first.idle again, second.idle again]
      exact ⟨rfl, .away first second⟩
  | seen openParen same => exact seen_step same openParen token
  | same => exact ⟨rfl, .same _⟩

/-- What is left over of earlier candidates has no influence on later ones. -/
theorem Alike.run (alike : Alike keyword scan other) (tokens : List Token) :
    (Region.run scan tokens).1 = (Region.run other tokens).1 := by
  induction tokens generalizing scan other with
  | nil => rfl
  | cons token rest ih =>
    obtain ⟨same, later⟩ := alike.step token
    rw [Region.run, Region.run, same, ih later]

end Leftovers

theorem keyword_of_run (keyword : Text) (tokens : List Token) :
    (run (begin keyword) tokens).2.aux.keyword = keyword :=
  (run_follows tokens (follows_begin keyword fun _ => True) fun _ _ _ => trivial).1.keyword

/-- Where the pass is in no candidate, the tokens of a complete candidate make a region of their own.
The regions before it are those of the tokens before it, the regions behind it are those of the
tokens behind it, each searched on its own, and the pass is in no candidate again. -/
theorem scan_across_candidate {keyword : Text} {before tokens : List Token} (after : List Token)
    (candidate : Candidate keyword) (out : EndsOutside keyword before)
    (read : (tokens.filter fun token => !token.isInsignificant) = candidate.list) :
    ∃ first last, scan before keyword = .ok first ∧ scan after keyword = .ok last ∧
      scan (before ++ tokens ++ after) keyword = .ok (first ++ [candidate.region] ++ last) ∧
      EndsOutside keyword (before ++ tokens) := by
  have away : Away keyword (run (begin keyword) before).2 :=
    ⟨keyword_of_run keyword before, ends_outside_iff.mp out⟩
  have significant : ∀ token ∈ candidate.list, token.isInsignificant = false := by
    intro token mem
    rw [← read] at mem
    simpa using (List.mem_filter.mp mem).2
  obtain ⟨next, found, gone⟩ := candidate.run away significant
  rw [← read, run_significant] at found
  have fresh : Alike keyword next (begin keyword) := .away gone ⟨rfl, rfl⟩
  have whole : (run (begin keyword) (before ++ tokens ++ after)).1 =
      (run (begin keyword) before).1 ++ [candidate.region] ++ (run (begin keyword) after).1 := by
    rw [run_append, run_append, found, fresh.run]
  refine ⟨_, _, scan_is_run _ _, scan_is_run _ _, ?_, ?_⟩
  · rw [scan_is_run, whole]
  · rw [ends_outside_iff, run_append, found]
    exact gone.2

/-- A token on the first row. -/
private def onRow (column : Nat) (kind : TokenKind) (text : Text) : Token :=
  let stop := column + Text.byteLength text
  ⟨kind, text, ⟨column, stop, ⟨0, column⟩, ⟨0, stop⟩⟩⟩

/-- The tokens of `def_.f(lambda x=(lambda: 0): [x])` without the blanks. -/
private def defaulted : Candidate "def_".toList where
  callee := {
    word := onRow 17 .name "def_".toList
    label := some (onRow 21 .dot ['.'], onRow 22 .name ['f'])
    isKeyword := by decide
    isLabel := by
      rintro pair ⟨⟩
      exact ⟨rfl, rfl⟩ }
  openParen := onRow 23 .openParen ['(']
  lambda := onRow 24 .name lambdaWord
  parameters := [onRow 31 .name ['x'], onRow 32 .operator ['='], onRow 33 .openParen ['('],
    onRow 34 .name lambdaWord, onRow 40 .colon [':'], onRow 42 .number ['0'],
    onRow 43 .closeParen [')']]
  colon := onRow 44 .colon [':']
  openBracket := onRow 46 .openBracket ['[']
  body := [onRow 47 .name ['x'], onRow 48 .closeBracket [']']]
  closeParen := onRow 49 .closeParen [')']
  opens := rfl
  header := ⟨by decide, by decide, by decide, by decide, rfl⟩
  isList := rfl
  enclosed := by decide
  balanced := by decide
  closes := rfl

/-- A candidate that is dropped at a bracket before the colon of its lambda. -/
private def dropped : List Token :=
  Token.ofPieces 0 Position.origin
    [(.name, "def_".toList), (.openParen, ['(']), (.name, lambdaWord), (.whitespace, [' ']),
      (.name, ['x']), (.closeBracket, [']']), (.newline, ['\n']), (.colon, [':'])]

theorem scan_across_candidate_dropped :
    EndsOutside "def_".toList dropped ∧
      scan (dropped ++ (onRow 16 .whitespace [' '] :: defaulted.list) ++ dropped) "def_".toList =
        .ok [⟨17, 23, 46, 49⟩] := by
  have out : EndsOutside "def_".toList dropped := ends_outside_iff.mpr (by decide)
  have none : scan dropped "def_".toList = .ok [] := by
    rw [scan_is_run]
    decide
  obtain ⟨first, last, before, after, whole, -⟩ :=
    scan_across_candidate dropped defaulted out
      (show (onRow 16 .whitespace [' '] :: defaulted.list).filter _ = _ by decide)
  rw [none] at before after
  cases before
  cases after
  exact ⟨out, whole⟩

end LambdaLayout.Region
