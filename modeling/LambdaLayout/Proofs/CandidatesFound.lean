import LambdaLayout.Proofs.CandidateSteps

/-!
Every candidate that the search finds is made of tokens that look like one. The pass always holds the
front part of a candidate among the last tokens, so what it completes is a whole one, and the next one
begins behind it. The tokens need not be those of a source: brackets may be left open or be closed
without having been opened.
-/

namespace LambdaLayout.Region

/-- The last tokens are the front part of a candidate, and the pass is at the end of it. -/
inductive AtHand (keyword : Text) (scan : Scan) : List Token → Prop where
  | away (away : Away keyword scan) : AtHand keyword scan []
  | called {callee : Callee keyword} (called : Called callee scan) :
      AtHand keyword scan callee.tokens
  | dotted {word dot : Token} (dotted : Dotted keyword word dot scan) :
      AtHand keyword scan [word, dot]
  | begun {callee : Callee keyword} {openParen : Token} (begun : Begun callee openParen scan) :
      AtHand keyword scan (callee.tokens ++ [openParen])
  | parameters {callee : Callee keyword} {openParen : Token}
      (within : InParameters callee openParen lambda parameters scan) :
      AtHand keyword scan (callee.tokens ++ openParen :: lambda :: parameters)
  | entered {callee : Callee keyword} {openParen : Token}
      (entered : Entered callee openParen lambda parameters colon scan) :
      AtHand keyword scan (callee.tokens ++ openParen :: lambda :: (parameters ++ [colon]))
  | body {callee : Callee keyword} {openParen : Token}
      (within : InBody callee openParen lambda parameters colon openBracket body scan) :
      AtHand keyword scan
        (callee.tokens ++ openParen :: lambda :: (parameters ++ colon :: openBracket :: body))

/-- What a step may come to when those were the last tokens. -/
inductive Next (keyword : Text) (tokens : List Token) : Option Region × Scan → Prop where
  /-- Some of the last tokens are the front part of a candidate. -/
  | keeps (later : List Token) (last : later <:+ tokens) (atHand : AtHand keyword next later) :
      Next keyword tokens (none, next)
  /-- All of them are a candidate. -/
  | completes (candidate : Candidate keyword) (whole : candidate.list = tokens)
      (away : Away keyword next) : Next keyword tokens (some candidate.region, next)

/-- The candidates stand among the tokens, one after the other. -/
inductive Found (keyword : Text) : List Token → List Region → Prop where
  | none (tokens : List Token) : Found keyword tokens []
  | next (between : List Token) (candidate : Candidate keyword)
      (later : Found keyword tokens regions) :
      Found keyword (between ++ (candidate.list ++ tokens)) (candidate.region :: regions)

section Steps

variable {keyword : Text} {callee : Callee keyword} {scan next : Scan}
  {token openParen lambda colon openBracket : Token} {tokens parameters body part : List Token}
  {regions : List Region} {region : Region}

theorem Next.goes (grown : AtHand keyword next tokens) : Next keyword tokens (none, next) :=
  .keeps tokens (List.suffix_refl tokens) grown

theorem Next.drops (away : Away keyword next) : Next keyword tokens (none, next) :=
  .keeps [] (List.nil_suffix) (.away away)

/-- A candidate that begins at the last token. -/
theorem Next.begins (again : IsKeyword keyword token) (called : Called (.ofWord again) next) :
    Next keyword (tokens ++ [token]) (none, next) :=
  .keeps [token] (List.suffix_append tokens [token]) (.called called)

/-- In no candidate any other token than the keyword is passed over. -/
theorem Away.idle (away : Away keyword scan) (other : ¬ IsKeyword keyword token) :
    Region.step scan token = (none, scan) := by
  rw [Region.step]
  split
  · rfl
  · rw [away.2]
    split
    · next name =>
      have text : token.text ≠ scan.aux.keyword := fun same => other ⟨name, same.trans away.1⟩
      rw [onNameOutside, if_neg text]
      rfl
    · rfl
    all_goals contradiction

theorem Away.step (away : Away keyword scan) : Next keyword [token] (Region.step scan token) := by
  by_cases again : IsKeyword keyword token
  · obtain ⟨next, stepped, called⟩ := begins (.inl away.2) away.1 again
    rw [stepped]
    exact .goes (.called called)
  · rw [away.idle again]
    exact .drops away

/-- The candidate that a parenthesis after its body completes. -/
def InBody.candidate (within : InBody callee openParen lambda parameters colon openBracket body scan)
    (level : closings (parameters ++ colon :: openBracket :: body) =
      openings (parameters ++ colon :: openBracket :: body))
    (closes : token.kind = .closeParen) : Candidate keyword where
  callee := callee
  openParen := openParen
  lambda := lambda
  parameters := parameters
  colon := colon
  openBracket := openBracket
  body := body
  closeParen := token
  opens := within.opens
  header := within.header
  isList := within.isList
  enclosed := (enclosed_cons (plain_of_name within.header.isLambda.1)).mpr within.counted.enclosed
  balanced := by
    obtain ⟨more, less⟩ := counts_plain (plain_of_name within.header.isLambda.1)
    rw [closings_cons, openings_cons, more, less, level]
  closes := closes

/-- The next token adds to the candidate at hand, completes it, drops it or begins another one. -/
theorem AtHand.step (atHand : AtHand keyword scan part)
    (significant : token.isInsignificant = false) :
    Next keyword (part ++ [token]) (Region.step scan token) := by
  cases atHand with
  | away away => exact away.step
  | @called callee called =>
    obtain ⟨next, stepped, begun | ⟨bare, dotted⟩ | ⟨again, more⟩ | away⟩ := called.step significant
      <;> rw [stepped]
    · exact .goes (.begun begun)
    · rw [Callee.tokens, bare]
      exact .goes (.dotted dotted)
    · exact .begins again more
    · exact .drops away
  | dotted dotted =>
    obtain ⟨next, stepped, ⟨name, called⟩ | away⟩ := dotted.step significant <;> rw [stepped]
    · exact .goes (.called called)
    · exact .drops away
  | begun begun =>
    obtain ⟨next, stepped, within | ⟨-, away⟩⟩ := begun.step significant <;> rw [stepped]
    · rw [List.append_assoc]
      exact .goes (.parameters within)
    · exact .drops away
  | parameters within =>
    obtain ⟨next, stepped, more | entered | ⟨-, away⟩⟩ := within.step significant <;> rw [stepped]
    · rw [List.append_assoc]
      exact .goes (.parameters more)
    · rw [List.append_assoc]
      exact .goes (.entered entered)
    · exact .drops away
  | entered entered =>
    obtain ⟨next, stepped, within | ⟨-, away⟩⟩ := entered.step significant <;> rw [stepped]
    · rw [List.append_assoc, List.cons_append, List.cons_append, List.append_assoc]
      exact .goes (.body within)
    · exact .drops away
  | body within =>
    rcases within.step significant with ⟨next, stepped, more⟩ | ⟨level, -, next, away, stepped⟩
      <;> rw [stepped]
    · rw [List.append_assoc, List.cons_append, List.cons_append, List.append_assoc]
      exact .goes (.body more)
    · split
      · next closes =>
        refine .completes (within.candidate level closes) ?_ away
        simp [Candidate.list, Candidate.argument, InBody.candidate]
      · exact .drops away

namespace Found

theorem behind (front : List Token) (found : Found keyword tokens regions) :
    Found keyword (front ++ tokens) regions := by
  cases found with
  | none => exact .none _
  | next between candidate later =>
    rw [← List.append_assoc]
    exact .next _ candidate later

theorem candidate_of_mem (found : Found keyword tokens regions) (mem : region ∈ regions) :
    ∃ candidate : Candidate keyword, candidate.list <:+: tokens ∧ candidate.region = region := by
  induction found with
  | none => cases mem
  | @next tokens regions between candidate later ih =>
    rcases List.mem_cons.mp mem with rfl | mem
    · exact ⟨candidate, ⟨between, tokens, List.append_assoc _ _ _⟩, rfl⟩
    · obtain ⟨other, inside, same⟩ := ih mem
      have last : tokens <:+ between ++ (candidate.list ++ tokens) :=
        ⟨between ++ candidate.list, List.append_assoc _ _ _⟩
      exact ⟨other, inside.trans last.isInfix, same⟩

/-- Where the tokens come in the order of their offsets, each candidate ends before the next one
begins. -/
theorem apart (found : Found keyword tokens regions)
    (ordered : tokens.Pairwise fun first second => first.span.startByte < second.span.startByte) :
    regions.Pairwise fun first second => first.closeParen < second.keywordStart := by
  induction found with
  | none => exact .nil
  | @next tokens regions between candidate later ih =>
    obtain ⟨-, ordered, -⟩ := List.pairwise_append.mp ordered
    obtain ⟨-, rest, across⟩ := List.pairwise_append.mp ordered
    refine .cons (fun region mem => ?_) (ih rest)
    obtain ⟨other, inside, rfl⟩ := later.candidate_of_mem mem
    exact across _ candidate.last_mem _ (inside.subset other.first_mem)

end Found

/-- What a run completes are candidates of the tokens at hand and those to come. -/
theorem run_at_hand (atHand : AtHand keyword scan part)
    (significant : ∀ token ∈ tokens, token.isInsignificant = false) :
    Found keyword (part ++ tokens) (run scan tokens).1 := by
  induction tokens generalizing part scan with
  | nil => exact .none _
  | cons token rest ih =>
    have moved : Next keyword (part ++ [token]) (step scan token) :=
      atHand.step (significant token List.mem_cons_self)
    have later : ∀ other ∈ rest, other.isInsignificant = false :=
      fun other mem => significant other (List.mem_cons_of_mem _ mem)
    rw [run, ← List.singleton_append, ← List.append_assoc]
    revert moved
    generalize step scan token = outcome
    intro moved
    cases moved with
    | keeps kept last atHand =>
      obtain ⟨front, split⟩ := last
      rw [← split, List.append_assoc]
      exact (ih atHand later).behind front
    | completes candidate whole away =>
      rw [← whole]
      exact .next [] candidate (ih (.away away) later)

end Steps

/-- The search always gives an answer, and whatever the tokens are, each region of it consists of the
tokens of a candidate at the offsets of the region. If the tokens come in the order of their offsets,
so do the offsets of a region, and each region ends before the next one begins. -/
theorem scan_finds_candidates (keyword : Text) (tokens : List Token)
    (ordered : tokens.Pairwise fun first second => first.span.startByte < second.span.startByte) :
    ∃ regions, scan tokens keyword = .ok regions ∧
      (∀ region ∈ regions,
        (∃ candidate : Candidate keyword, candidate.region = region ∧
          candidate.list <:+: tokens.filter fun token => !token.isInsignificant) ∧
        region.keywordStart < region.openParen ∧ region.openParen < region.bodyOpen ∧
        region.bodyOpen < region.closeParen) ∧
      regions.Pairwise fun first second => first.closeParen < second.keywordStart := by
  have sorted := ordered.filter fun token => !token.isInsignificant
  have found : Found keyword (tokens.filter fun token => !token.isInsignificant)
      (run (begin keyword) (tokens.filter fun token => !token.isInsignificant)).1 := by
    have start : Away keyword (begin keyword) := ⟨rfl, rfl⟩
    refine run_at_hand (.away start) fun token mem => ?_
    simpa using (List.mem_filter.mp mem).2
  rw [run_significant] at found
  refine ⟨_, scan_is_run tokens keyword, fun region mem => ?_, found.apart sorted⟩
  obtain ⟨candidate, inside, rfl⟩ := found.candidate_of_mem mem
  have corners := (sorted.sublist inside.sublist).sublist candidate.corners
  simp only [List.pairwise_cons, List.mem_cons, List.not_mem_nil, or_false, forall_eq_or_imp,
    forall_eq] at corners
  obtain ⟨⟨first, -, -⟩, ⟨second, -⟩, third, -⟩ := corners
  exact ⟨⟨candidate, rfl, inside⟩, first, second, third⟩

/-- Tokens in which brackets are left open and closed without having been opened. -/
private def unbalanced : List Token :=
  Token.ofPieces 0 Position.origin
    [(.closeParen, [')']), (.name, "def_".toList), (.whitespace, [' ']), (.openParen, ['(']),
      (.name, "lambda".toList), (.name, ['x']), (.operator, ['=']), (.openBrace, ['\x7b']),
      (.colon, [':']), (.closeBracket, [']']), (.colon, [':']), (.openBracket, ['[']),
      (.comment, ['#']), (.closeBrace, ['\x7d']), (.closeParen, [')']), (.openBracket, ['['])]

theorem scan_finds_candidates_unbalanced :
    scan unbalanced "def_".toList = .ok [⟨1, 6, 19, 22⟩] ∧
      ∃ candidate : Candidate "def_".toList, candidate.region = ⟨1, 6, 19, 22⟩ ∧
        candidate.list <:+: unbalanced.filter fun token => !token.isInsignificant := by
  have ran : (run (begin "def_".toList) unbalanced).1 = [⟨1, 6, 19, 22⟩] := by decide +kernel
  have answer := scan_is_run unbalanced "def_".toList
  rw [ran] at answer
  obtain ⟨regions, scanned, sound, -⟩ :=
    scan_finds_candidates "def_".toList unbalanced (by decide +kernel)
  rw [answer] at scanned
  cases scanned
  obtain ⟨made, -⟩ := sound _ List.mem_cons_self
  exact ⟨answer, made⟩

end LambdaLayout.Region
