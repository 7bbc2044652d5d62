import LambdaLayout.Proofs.CandidateTokens

/-!
What the pass knows of the tokens it has read. At every moment it is in no candidate, or the last
tokens are the front part of one, and its counters are the counts of those tokens. From there the
next token adds to the candidate, completes it, drops it, or begins another one.
-/

namespace LambdaLayout.Region

variable {keyword : Text} {callee : Callee keyword} {scan : Scan}
  {token openParen lambda colon openBracket : Token} {tokens parameters body : List Token}
  {depth : Nat}

/-- The brackets that the tokens leave open, the parenthesis before them included. -/
structure Counted (tokens : List Token) (depth : Nat) : Prop where
  enclosed : Enclosed tokens
  depth : depth + closings tokens = openings tokens + 1

theorem counted_nil : Counted [] 1 := ⟨enclosed_nil, rfl⟩

/-- The next token leaves brackets open, or closes the last one. -/
theorem Counted.after (counted : Counted tokens depth) (token : Token) :
    (0 < depthAfter token depth ∧ Counted (tokens ++ [token]) (depthAfter token depth)) ∨
    (depthAfter token depth = 0 ∧ token.kind.closes = true ∧ closings tokens = openings tokens) := by
  obtain ⟨enclosed, sum⟩ := counted
  have within := enclosed tokens (List.prefix_refl tokens)
  have grown : ∀ {later}, 0 < later → later + closings (tokens ++ [token]) =
      openings (tokens ++ [token]) + 1 → Counted (tokens ++ [token]) later := by
    intro later positive total
    exact ⟨enclosed.concat (by omega), total⟩
  rw [openings_append, closings_append] at grown
  rcases counts_cases token with
    ⟨more, less, after⟩ | ⟨more, less, after⟩ | ⟨closes, more, less, after⟩
  · rw [more, less] at grown
    rw [after]
    exact .inl ⟨by omega, grown (by omega) (by omega)⟩
  · rw [more, less] at grown
    rw [after]
    exact .inl ⟨by omega, grown (by omega) (by omega)⟩
  · rw [more, less] at grown
    rw [after]
    by_cases last : depth = 1
    · exact .inr ⟨by omega, closes, by omega⟩
    · exact .inl ⟨by omega, grown (by omega) (by omega)⟩

theorem Counted.plain (counted : Counted tokens depth) (plain : IsPlain token) :
    Counted (tokens ++ [token]) depth := by
  have same : depthAfter token depth = depth := by simp [depthAfter, plain.1, plain.2]
  rcases counted.after token with ⟨-, grown⟩ | ⟨-, closes, -⟩
  · rwa [same] at grown
  · rw [plain.2] at closes
    cases closes

theorem Counted.one_iff (counted : Counted tokens depth) :
    depth = 1 ↔ closings tokens = openings tokens := by
  have sum := counted.depth
  omega

theorem track_eq (progress : Progress) (token : Token) :
    progress.track token = { progress with depth := depthAfter token progress.depth } := by
  rw [Progress.track, depthAfter]
  split
  · rfl
  · split <;> rfl

/-- The pass has read the callee and the parenthesis of a candidate. -/
structure Opened (callee : Callee keyword) (openParen : Token) (scan : Scan) : Prop where
  keyword : scan.aux.keyword = keyword
  start : scan.aux.keywordStart = callee.word.span.startByte
  paren : scan.aux.openParen = openParen.span.startByte
  opens : openParen.kind = .openParen

/-- And then a lambda with some of its parameters. -/
structure InParameters (callee : Callee keyword) (openParen lambda : Token)
    (parameters : List Token) (scan : Scan) : Prop extends Opened callee openParen scan where
  state : scan.state = .inParameters
  body : scan.aux.bodyOpen = none
  isLambda : IsKeyword lambdaWord lambda
  counted : Counted parameters scan.aux.depth
  pending : Pending parameters
  waiting : scan.aux.openLambdas + colons parameters = lambdas parameters + 1

/-- Or a lambda up to the colon of its own. -/
structure Entered (callee : Callee keyword) (openParen lambda : Token)
    (parameters : List Token) (colon : Token) (scan : Scan) : Prop
    extends Opened callee openParen scan where
  state : scan.state = .inBody
  body : scan.aux.bodyOpen = none
  depth : scan.aux.depth = 1
  header : IsHeader lambda parameters colon
  enclosed : Enclosed parameters

/-- Or such a lambda and some of the list that is its body. -/
structure InBody (callee : Callee keyword) (openParen lambda : Token) (parameters : List Token)
    (colon openBracket : Token) (body : List Token) (scan : Scan) : Prop
    extends Opened callee openParen scan where
  state : scan.state = .inBody
  list : scan.aux.bodyOpen = some openBracket.span.startByte
  header : IsHeader lambda parameters colon
  isList : openBracket.kind = .openBracket
  counted : Counted (parameters ++ colon :: openBracket :: body) scan.aux.depth

/-- The pass is in no candidate and looks for the keyword. -/
def Away (keyword : Text) (scan : Scan) : Prop :=
  scan.aux.keyword = keyword ∧ scan.state = .outside

namespace InParameters

/-- One more parameter token, with the counters that go with it. -/
private theorem grows (within : InParameters callee openParen lambda parameters scan) (count : Nat)
    (counted : Counted (parameters ++ [token]) depth)
    (fewer : colons (parameters ++ [token]) ≤ lambdas (parameters ++ [token]))
    (waiting : count + colons (parameters ++ [token]) = lambdas (parameters ++ [token]) + 1) :
    InParameters callee openParen lambda (parameters ++ [token])
      ⟨scan.state, { scan.aux with openLambdas := count, depth := depth }⟩ where
  keyword := within.keyword
  start := within.start
  paren := within.paren
  opens := within.opens
  state := within.state
  body := within.body
  isLambda := within.isLambda
  counted := counted
  pending := within.pending.concat fewer
  waiting := waiting

private theorem word_step (within : InParameters callee openParen lambda parameters scan)
    (word : IsKeyword lambdaWord token) :
    ∃ next, onLambda scan token = (none, next) ∧
      InParameters callee openParen lambda (parameters ++ [token]) next := by
  have counted := within.counted.plain (plain_of_name word.1)
  have sofar := within.pending parameters (List.prefix_refl parameters)
  have waiting := within.waiting
  have words := lambdas_concat token within.counted.enclosed
  have colon := colons_concat token within.counted.enclosed
  have other : token.kind ≠ .colon := by simp [word.1]
  simp only [← within.counted.one_iff, word, other, and_true, and_false, if_false] at words colon
  rw [onLambda]
  split
  · next one =>
    rw [if_pos one] at words
    exact ⟨_, rfl, within.grows (scan.aux.openLambdas + 1) counted (by omega) (by omega)⟩
  · next inner =>
    rw [if_neg inner] at words
    exact ⟨_, rfl, within.grows scan.aux.openLambdas counted (by omega) (by omega)⟩

/-- A colon goes with the innermost lambda that waits for one. If that is the lambda of the call, its
body begins. -/
private theorem colon_step (within : InParameters callee openParen lambda parameters scan)
    (colon : token.kind = .colon) :
    ∃ next, onHeaderColon scan token = (none, next) ∧
      (InParameters callee openParen lambda (parameters ++ [token]) next ∨
        Entered callee openParen lambda parameters token next) := by
  have counted := within.counted.plain (plain_of_colon colon)
  have sofar := within.pending parameters (List.prefix_refl parameters)
  have waiting := within.waiting
  have words := lambdas_concat token within.counted.enclosed
  have colons := colons_concat token within.counted.enclosed
  have other : ¬ IsKeyword lambdaWord token := by
    intro word
    rw [word.1] at colon
    cases colon
  simp only [← within.counted.one_iff, colon, other, and_true, and_false, if_false] at words colons
  rw [onHeaderColon]
  by_cases one : scan.aux.depth = 1
  · rw [if_neg (fun other => other one), if_neg (by omega)]
    rw [if_pos one] at colons
    by_cases last : scan.aux.openLambdas = 1
    · refine ⟨⟨.inBody, { scan.aux with openLambdas := scan.aux.openLambdas - 1 }⟩, ?_, .inr ?_⟩
      · simp [last, goOn]
      · exact {
          keyword := within.keyword
          start := within.start
          paren := within.paren
          opens := within.opens
          state := rfl
          body := within.body
          depth := one
          header := ⟨within.isLambda, within.pending, by omega, within.counted.one_iff.mp one, colon⟩
          enclosed := within.counted.enclosed }
    · have more : scan.aux.openLambdas - 1 ≠ 0 := by omega
      refine ⟨⟨scan.state, { scan.aux with openLambdas := scan.aux.openLambdas - 1 }⟩, ?_, .inl ?_⟩
      · simp [more, goOn]
      · exact within.grows (scan.aux.openLambdas - 1) counted (by omega) (by omega)
  · rw [if_pos one]
    rw [if_neg one] at colons
    exact ⟨_, rfl, .inl (within.grows scan.aux.openLambdas counted (by omega) (by omega))⟩

private theorem other_step (within : InParameters callee openParen lambda parameters scan)
    (word : ¬ IsKeyword lambdaWord token) (colon : token.kind ≠ .colon) :
    ∃ next, onParameterToken scan token = (none, next) ∧
      (InParameters callee openParen lambda (parameters ++ [token]) next ∨
        (¬ Enclosed (parameters ++ [token]) ∧ Away keyword next)) := by
  have sofar := within.pending parameters (List.prefix_refl parameters)
  have waiting := within.waiting
  have words := lambdas_concat token within.counted.enclosed
  have colons := colons_concat token within.counted.enclosed
  simp only [word, colon, and_false, if_false] at words colons
  rw [onParameterToken, if_neg (by omega)]
  dsimp only
  rw [track_eq]
  rcases within.counted.after token with ⟨positive, grown⟩ | ⟨shut, closes, level⟩
  · rw [if_neg (Nat.pos_iff_ne_zero.mp positive)]
    exact ⟨_, rfl, .inl (within.grows scan.aux.openLambdas grown (by omega) (by omega))⟩
  · rw [if_pos shut]
    exact ⟨_, rfl, .inr ⟨not_enclosed_snoc level closes, within.keyword, rfl⟩⟩

/-- A token after some of the parameters is one more of them, or the colon after which the body
begins, or it closes the call too early. -/
theorem step (within : InParameters callee openParen lambda parameters scan)
    (significant : token.isInsignificant = false) :
    ∃ next, Region.step scan token = (none, next) ∧
      (InParameters callee openParen lambda (parameters ++ [token]) next ∨
        Entered callee openParen lambda parameters token next ∨
        (¬ Enclosed (parameters ++ [token]) ∧ Away keyword next)) := by
  rw [step_in_header within.state significant]
  by_cases word : IsKeyword lambdaWord token
  · obtain ⟨next, stepped, more⟩ := within.word_step word
    exact ⟨next, by rw [← stepped]; exact if_pos word, .inl more⟩
  · have same : ∀ {left right : Option Region × Scan},
        (if token.kind = .name ∧ token.text = lambdaWord then left else right) = right :=
      if_neg word
    rw [same]
    by_cases colon : token.kind = .colon
    · obtain ⟨next, stepped, cases⟩ := within.colon_step colon
      rw [if_pos colon]
      exact ⟨next, stepped, cases.imp_right .inl⟩
    · obtain ⟨next, stepped, cases⟩ := within.other_step word colon
      rw [if_neg colon]
      exact ⟨next, stepped, cases.imp_right .inr⟩

end InParameters

/-- After the colon only a list goes on. -/
theorem Entered.step (entered : Entered callee openParen lambda parameters colon scan)
    (significant : token.isInsignificant = false) :
    ∃ next, Region.step scan token = (none, next) ∧
      (InBody callee openParen lambda parameters colon token [] next ∨
        (token.kind ≠ .openBracket ∧ Away keyword next)) := by
  by_cases list : token.kind = .openBracket
  · refine ⟨_, CallTokens.step_list_opens entered.state entered.depth entered.body list, .inl ?_⟩
    have one : Counted parameters 1 :=
      ⟨entered.enclosed, by have level := entered.header.level; omega⟩
    have after : depthAfter token 1 = 2 := by simp [depthAfter, list, TokenKind.opens]
    have two : Counted (parameters ++ [colon] ++ [token]) 2 := by
      rcases (one.plain (plain_of_colon entered.header.isColon)).after token with grown | shut
      · rw [after] at grown
        exact grown.2
      · rw [after] at shut
        cases shut.1
    rw [List.append_assoc] at two
    exact {
      keyword := entered.keyword
      start := entered.start
      paren := entered.paren
      opens := entered.opens
      state := rfl
      list := rfl
      header := entered.header
      isList := list
      counted := two }
  · have starts : scan.aux.depth = 1 ∧ scan.aux.bodyOpen = none := ⟨entered.depth, entered.body⟩
    refine ⟨⟨.outside, scan.aux⟩, ?_, .inr ⟨list, entered.keyword, rfl⟩⟩
    rw [step_in_body entered.state significant, onBodyToken, if_pos ⟨starts, list⟩]
    rfl

/-- The token that closes the last bracket ends the candidate, and completes it if it is a
parenthesis. -/
private theorem body_ends {start : Nat} (list : scan.aux.bodyOpen = some start)
    (shut : depthAfter token scan.aux.depth = 0) :
    onBodyToken scan token =
      (if token.kind = .closeParen then
        some ⟨scan.aux.keywordStart, scan.aux.openParen, start, token.span.startByte⟩ else none,
        ⟨.outside, scan.aux.track token⟩) := by
  have started : ¬ (scan.aux.depth = 1 ∧ scan.aux.bodyOpen = none) := by simp [list]
  have ended : ¬ 0 < (scan.aux.track token).depth := by simp [depth_tracked, shut]
  have kept : (scan.aux.track token).bodyOpen = some start := by rw [track_eq]; exact list
  simp only [onBodyToken, started, false_and, if_false, if_neg ended, kept]
  by_cases paren : token.kind = .closeParen
  · rw [if_pos paren, paren, track_eq]
  · rw [if_neg paren]
    split
    · next is _ => exact absurd is paren
    · rfl

/-- A token of the body leaves the call open, or closes it. Only a parenthesis that closes it
completes the candidate. -/
theorem InBody.step (within : InBody callee openParen lambda parameters colon openBracket body scan)
    (significant : token.isInsignificant = false) :
    (∃ next, Region.step scan token = (none, next) ∧
      InBody callee openParen lambda parameters colon openBracket (body ++ [token]) next) ∨
    (closings (parameters ++ colon :: openBracket :: body) =
        openings (parameters ++ colon :: openBracket :: body) ∧ token.kind.closes = true ∧
      ∃ next, Away keyword next ∧ Region.step scan token =
        (if token.kind = .closeParen then some ⟨callee.word.span.startByte,
          openParen.span.startByte, openBracket.span.startByte, token.span.startByte⟩ else none,
          next)) := by
  have known : scan.aux.bodyOpen ≠ none := by simp [within.list]
  rw [step_in_body within.state significant]
  rcases within.counted.after token with ⟨positive, grown⟩ | ⟨shut, closes, level⟩
  · rw [body_goes_on known (by rw [depth_tracked]; exact positive), track_eq]
    rw [List.append_assoc] at grown
    exact .inl ⟨_, rfl, {
      keyword := within.keyword
      start := within.start
      paren := within.paren
      opens := within.opens
      state := within.state
      list := within.list
      header := within.header
      isList := within.isList
      counted := grown }⟩
  · refine .inr ⟨level, closes, ⟨.outside, scan.aux.track token⟩, ⟨?_, rfl⟩, ?_⟩
    · exact (keyword_of_track _ _).1.trans within.keyword
    · rw [body_ends within.list shut, within.start, within.paren]

/-- The pass has read the keyword and a dot after it. -/
structure Dotted (keyword : Text) (word dot : Token) (scan : Scan) : Prop where
  isKeyword : IsKeyword keyword word
  isDot : dot.kind = .dot
  keyword : scan.aux.keyword = keyword
  state : scan.state = .seenKeyword
  start : scan.aux.keywordStart = word.span.startByte
  dotted : scan.aux.afterDot = true
  lambdas : scan.aux.openLambdas = 0
  body : scan.aux.bodyOpen = none

/-- The pass has read the callee and the parenthesis, and nothing after it. -/
structure Begun (callee : Callee keyword) (openParen : Token) (scan : Scan) : Prop
    extends Opened callee openParen scan where
  state : scan.state = .inParameters
  body : scan.aux.bodyOpen = none
  depth : scan.aux.depth = 1
  lambdas : scan.aux.openLambdas = 0

/-- The keyword alone. -/
def Callee.ofWord (isKeyword : IsKeyword keyword token) : Callee keyword :=
  ⟨token, none, isKeyword, nofun⟩

/-- The keyword with a name after a dot. -/
def Callee.ofLabel {word dot : Token} (isKeyword : IsKeyword keyword word) (isDot : dot.kind = .dot)
    (name : token.kind = .name) : Callee keyword :=
  ⟨word, some (dot, token), isKeyword, by rintro _ ⟨⟩; exact ⟨isDot, name⟩⟩

/-- The rules after the keyword: a name, a dot, a parenthesis, anything else. -/
theorem step_after_keyword (state : scan.state = .seenKeyword)
    (significant : token.isInsignificant = false) :
    Region.step scan token =
      if token.kind = .name then onNameAfterKeyword scan token
      else if token.kind = .dot then onDotAfterKeyword scan token
      else if token.kind = .openParen then onCallOpen scan token
      else drop scan token := by
  obtain ⟨state, aux⟩ := scan
  obtain ⟨kind, text, span⟩ := token
  cases state
  cases kind <;> first | rfl | cases significant

/-- The keyword begins a candidate wherever the pass is free to take it. -/
theorem begins (free : Free scan) (same : scan.aux.keyword = keyword)
    (isKeyword : IsKeyword keyword token) :
    ∃ next, Region.step scan token = (none, next) ∧ Called (.ofWord isKeyword) next :=
  ⟨_, CallTokens.step_keyword free same isKeyword, ⟨⟨same, rfl, rfl, rfl, rfl, rfl⟩, rfl⟩⟩

/-- The parenthesis opens the call. -/
theorem Called.opens (called : Called callee scan) (opens : token.kind = .openParen) :
    ∃ next, Region.step scan token = (none, next) ∧ Begun callee token next := by
  refine ⟨_, CallTokens.step_call_opens called.toNamed opens, ?_⟩
  exact ⟨⟨called.keyword, called.start, rfl, opens⟩, rfl, called.body, rfl, called.lambdas⟩

/-- After the callee there may be a parenthesis, or a dot if there was none before, or the keyword
once more. -/
theorem Called.step (called : Called callee scan) (significant : token.isInsignificant = false) :
    ∃ next, Region.step scan token = (none, next) ∧
      (Begun callee token next ∨ (callee.label = none ∧ Dotted keyword callee.word token next) ∨
        (∃ again : IsKeyword keyword token, Called (.ofWord again) next) ∨ Away keyword next) := by
  by_cases again : IsKeyword keyword token
  · obtain ⟨next, stepped, more⟩ := begins (.inr ⟨called.state, called.dotless⟩) called.keyword again
    exact ⟨next, stepped, .inr (.inr (.inl ⟨again, more⟩))⟩
  by_cases opens : token.kind = .openParen
  · obtain ⟨next, stepped, begun⟩ := called.opens opens
    exact ⟨next, stepped, .inl begun⟩
  rw [step_after_keyword called.state significant]
  have away : Away keyword ⟨.outside, scan.aux⟩ := ⟨called.keyword, rfl⟩
  by_cases name : token.kind = .name
  · have other : token.text ≠ scan.aux.keyword := fun same => again ⟨name, same.trans called.keyword⟩
    rw [if_pos name, onNameAfterKeyword, called.dotless, if_neg Bool.false_ne_true, if_neg other]
    exact ⟨_, rfl, .inr (.inr (.inr away))⟩
  rw [if_neg name]
  by_cases dot : token.kind = .dot
  · rw [if_pos dot, onDotAfterKeyword, called.dotless, called.label, Bool.false_or]
    cases label : callee.label with
    | none =>
      refine ⟨_, rfl, .inr (.inl ⟨rfl, ?_⟩)⟩
      exact ⟨callee.isKeyword, dot, called.keyword, called.state, called.start, rfl, called.lambdas,
        called.body⟩
    | some pair => exact ⟨_, rfl, .inr (.inr (.inr away))⟩
  rw [if_neg dot, if_neg opens]
  exact ⟨_, rfl, .inr (.inr (.inr away))⟩

/-- After the dot there must be a name. -/
theorem Dotted.step {word dot : Token} (dotted : Dotted keyword word dot scan)
    (significant : token.isInsignificant = false) :
    ∃ next, Region.step scan token = (none, next) ∧
      ((∃ name : token.kind = .name,
        Called (.ofLabel dotted.isKeyword dotted.isDot name) next) ∨ Away keyword next) := by
  obtain ⟨state, aux⟩ := scan
  cases dotted.state
  rw [CallTokens.step_after_dot significant dotted.dotted]
  split
  · next name =>
    refine ⟨_, rfl, .inl ⟨name, ?_⟩⟩
    exact ⟨⟨dotted.keyword, rfl, dotted.start, rfl, dotted.lambdas, dotted.body⟩, rfl⟩
  · exact ⟨_, rfl, .inr ⟨dotted.keyword, rfl⟩⟩

/-- After the parenthesis there must be a lambda. -/
theorem Begun.step (begun : Begun callee openParen scan)
    (significant : token.isInsignificant = false) :
    ∃ next, Region.step scan token = (none, next) ∧
      (InParameters callee openParen token [] next ∨
        (¬ IsKeyword lambdaWord token ∧ Away keyword next)) := by
  by_cases word : IsKeyword lambdaWord token
  · refine ⟨_, step_lambda_at_one begun.state begun.depth word.1 word.2, .inl ?_⟩
    exact {
      keyword := begun.keyword
      start := begun.start
      paren := begun.paren
      opens := begun.opens
      state := begun.state
      body := begun.body
      isLambda := word
      counted := by
        show Counted [] scan.aux.depth
        rw [begun.depth]
        exact counted_nil
      pending := pending_nil
      waiting := by
        show scan.aux.openLambdas + 1 + 0 = 1
        rw [begun.lambdas] }
  · refine ⟨⟨.outside, scan.aux⟩, ?_, .inr ⟨word, begun.keyword, rfl⟩⟩
    have other : ¬ (token.kind = .name ∧ token.text = lambdaWord) := word
    rw [step_in_header begun.state significant, if_neg other]
    split
    · rw [onHeaderColon, if_neg (fun other => other begun.depth), if_pos begun.lambdas]
      rfl
    · rw [onParameterToken, if_pos ⟨begun.depth, begun.lambdas⟩]
      rfl

end LambdaLayout.Region
