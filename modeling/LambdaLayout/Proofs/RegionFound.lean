import LambdaLayout.Proofs.RegionPass

/-!
What the search does with one candidate. Every step begins a candidate, follows it, drops it or
completes it, and this list is all that is needed to see where the candidates of a run come from. A
candidate that is open when tokens with matching brackets begin is not completed among them, and the
tokens of an extended lambda make a candidate of their own wherever the search is free to take the
keyword for a new beginning.
-/

namespace LambdaLayout.Region

/-- The keyword would begin a candidate here. -/
def Free (scan : Scan) : Prop :=
  scan.state = .outside ∨ (scan.state = .seenKeyword ∧ scan.aux.afterDot = false)

instance (scan : Scan) : Decidable (Free scan) :=
  inferInstanceAs (Decidable (_ ∨ _))

/-- The token is the keyword looked for. -/
def IsKeyword (keyword : Text) (token : Token) : Prop :=
  token.kind = .name ∧ token.text = keyword

/-- The pass is past the opening parenthesis of a candidate. -/
def IsOpen (scan : Scan) : Prop := scan.state = .inParameters ∨ scan.state = .inBody

/-- The two scans look for one keyword and follow one candidate. -/
def SameCandidate (scan next : Scan) : Prop :=
  next.aux.keyword = scan.aux.keyword ∧ next.aux.keywordStart = scan.aux.keywordStart

/-- All that one token can do to the pass. -/
inductive Moves (scan : Scan) (token : Token) : Option Region × Scan → Prop where
  /-- The keyword begins a candidate. -/
  | begins (free : Free scan) (found : IsKeyword scan.aux.keyword token) :
      Moves scan token (none, ⟨.seenKeyword, scan.aux.restart token.span.startByte⟩)
  /-- The pass is in no candidate, or drops the one it had. -/
  | leaves (same : next.aux.keyword = scan.aux.keyword) (out : next.state = .outside) :
      Moves scan token (none, next)
  /-- The dot or the name after the keyword. -/
  | names (seen : scan.state = .seenKeyword) (plain : IsPlain token)
      (same : SameCandidate scan next) (still : next.state = .seenKeyword) :
      Moves scan token (none, next)
  /-- The parenthesis of the call. -/
  | calls (seen : scan.state = .seenKeyword) (same : SameCandidate scan next)
      (opened : token.kind = .openParen) (header : next.state = .inParameters)
      (depth : next.aux.depth = 1) : Moves scan token (none, next)
  /-- A token inside the call, after which one of its brackets is still open. -/
  | follows (isOpen : IsOpen scan) (same : SameCandidate scan next) (still : IsOpen next)
      (depth : next.aux.depth = (scan.aux.track token).depth)
      (positive : 1 ≤ next.aux.depth) : Moves scan token (none, next)
  /-- The parenthesis that closes the call. -/
  | completes (isOpen : IsOpen scan) (closed : (scan.aux.track token).depth = 0)
      (found : region.keywordStart = scan.aux.keywordStart)
      (stop : region.closeParen = token.span.startByte)
      (same : next.aux.keyword = scan.aux.keyword) (out : next.state = .outside) :
      Moves scan token (some region, next)

section

variable {scan : Scan} {token : Token}

theorem keyword_of_track (progress : Progress) (token : Token) :
    (progress.track token).keyword = progress.keyword ∧
      (progress.track token).keywordStart = progress.keywordStart := by
  rw [Progress.track]
  split
  · exact ⟨rfl, rfl⟩
  · split <;> exact ⟨rfl, rfl⟩

private theorem depth_of_track {left right : Progress} (same : left.depth = right.depth) :
    (left.track token).depth = (right.track token).depth := by
  simp only [Progress.track]
  split
  · exact congrArg (· + 1) same
  · split
    · exact congrArg (· - 1) same
    · exact same

theorem plain_of_dot (dot : token.kind = .dot) : IsPlain token := by
  rw [IsPlain, dot]
  exact ⟨rfl, rfl⟩

theorem not_outside (isOpen : IsOpen scan) : scan.state ≠ .outside := by
  rcases isOpen with state | state <;> rw [state] <;> exact State.noConfusion

private theorem moves_to_stay (state : scan.state = .outside) : Moves scan token (none, scan) :=
  .leaves rfl state

private theorem name_outside_moves (state : scan.state = .outside) (name : token.kind = .name) :
    Moves scan token (onNameOutside scan token) := by
  rw [onNameOutside]
  split
  · next same => exact .begins (.inl state) ⟨name, same⟩
  · exact moves_to_stay state

private theorem name_after_keyword_moves (state : scan.state = .seenKeyword)
    (name : token.kind = .name) : Moves scan token (onNameAfterKeyword scan token) := by
  rw [onNameAfterKeyword]
  split
  · exact .names state (plain_of_name name) ⟨rfl, rfl⟩ state
  · next dotless =>
    split
    · next same =>
      have begun : Moves scan token (none, ⟨.seenKeyword, scan.aux.restart token.span.startByte⟩) :=
        .begins (.inr ⟨state, by simpa using dotless⟩) ⟨name, same⟩
      rw [goOn, state]
      exact begun
    · exact .leaves rfl rfl

private theorem dot_after_keyword_moves (state : scan.state = .seenKeyword)
    (dot : token.kind = .dot) : Moves scan token (onDotAfterKeyword scan token) := by
  rw [onDotAfterKeyword]
  split
  · exact .leaves rfl rfl
  · exact .names state (plain_of_dot dot) ⟨rfl, rfl⟩ state

private theorem call_open_moves (state : scan.state = .seenKeyword)
    (opened : token.kind = .openParen) : Moves scan token (onCallOpen scan token) := by
  rw [onCallOpen]
  split
  · exact .leaves rfl rfl
  · exact .calls state ⟨rfl, rfl⟩ opened rfl rfl

private theorem lambda_moves (state : scan.state = .inParameters) (positive : 1 ≤ scan.aux.depth)
    (name : token.kind = .name) : Moves scan token (onLambda scan token) := by
  have idle : scan.aux.track token = scan.aux := track_plain (plain_of_name name)
  rw [onLambda]
  split
  · exact .follows (.inl state) ⟨rfl, rfl⟩ (.inl state) (by rw [idle]) positive
  · exact .follows (.inl state) ⟨rfl, rfl⟩ (.inl state) (by rw [idle]) positive

private theorem header_colon_moves (state : scan.state = .inParameters)
    (positive : 1 ≤ scan.aux.depth) (colon : token.kind = .colon) :
    Moves scan token (onHeaderColon scan token) := by
  have idle : scan.aux.track token = scan.aux := track_plain (plain_of_colon colon)
  rw [onHeaderColon]
  split
  · exact .follows (.inl state) ⟨rfl, rfl⟩ (.inl state) (by rw [idle]) positive
  · split
    · exact .leaves rfl rfl
    · refine .follows (.inl state) ⟨rfl, rfl⟩ ?_ (by rw [idle]) positive
      split
      · exact .inr rfl
      · exact .inl state

private theorem parameter_moves (state : scan.state = .inParameters) :
    Moves scan token (onParameterToken scan token) := by
  rw [onParameterToken]
  split
  · exact .leaves rfl rfl
  · dsimp only
    split
    · exact .leaves (keyword_of_track _ _).1 rfl
    · next open_ =>
      exact .follows (.inl state) (keyword_of_track _ _) (.inl state) rfl
        (Nat.one_le_iff_ne_zero.mpr open_)

private theorem body_moves (state : scan.state = .inBody) :
    Moves scan token (onBodyToken scan token) := by
  rw [onBodyToken]
  dsimp only
  split
  · exact .leaves rfl rfl
  · generalize counted : Progress.track _ token = progress
    have same : progress.depth = (scan.aux.track token).depth ∧
        progress.keyword = scan.aux.keyword ∧
        progress.keywordStart = scan.aux.keywordStart := by
      rw [← counted]
      split
      · exact ⟨depth_of_track rfl, (keyword_of_track _ _).1, (keyword_of_track _ _).2⟩
      · exact ⟨rfl, (keyword_of_track _ _).1, (keyword_of_track _ _).2⟩
    split
    · next positive => exact .follows (.inr state) ⟨same.2.1, same.2.2⟩ (.inr state) same.1 positive
    · next shut =>
      have closed : (scan.aux.track token).depth = 0 := by omega
      split
      · exact .completes (.inr state) closed same.2.2 rfl same.2.1 rfl
      · exact .leaves same.2.1 rfl

/-- Every step is one of the moves, as long as an open candidate counts its own parenthesis. -/
theorem step_moves (deep : IsOpen scan → 1 ≤ scan.aux.depth) :
    Moves scan token (step scan token) := by
  rw [step]
  split
  · -- Blank space and comments: the pass stands still, whatever its state.
    next blank =>
    have idle : scan.aux.track token = scan.aux := track_plain (insignificant_is_plain blank)
    cases state : scan.state with
    | outside => exact moves_to_stay state
    | seenKeyword => exact .names state (insignificant_is_plain blank) ⟨rfl, rfl⟩ state
    | inParameters =>
      exact .follows (.inl state) ⟨rfl, rfl⟩ (.inl state) (by rw [idle]) (deep (.inl state))
    | inBody =>
      exact .follows (.inr state) ⟨rfl, rfl⟩ (.inr state) (by rw [idle]) (deep (.inr state))
  · split
    · next state name => exact name_outside_moves state name
    · next state _ => exact moves_to_stay state
    · next state name => exact name_after_keyword_moves state name
    · next state dot => exact dot_after_keyword_moves state dot
    · next state opened => exact call_open_moves state opened
    · exact .leaves rfl rfl
    · next state name =>
      split
      · exact lambda_moves state (deep (.inl state)) name
      · exact parameter_moves state
    · next state colon => exact header_colon_moves state (deep (.inl state)) colon
    · next state _ _ => exact parameter_moves state
    · next state => exact body_moves state

end

/-- The pass looks for the keyword, counts the parenthesis of an open candidate, and the candidate
it follows, if any, began at a place of the given kind. -/
structure Follows (keyword : Text) (known : Nat → Prop) (scan : Scan) : Prop where
  keyword : scan.aux.keyword = keyword
  counted : IsOpen scan → 1 ≤ scan.aux.depth
  origin : scan.state ≠ .outside → known scan.aux.keywordStart

/-- The pass either follows a candidate of the given kind, or still the one it had before, with so
many brackets open. Right after the keyword there are none. -/
inductive Stays (keyword : Text) (known : Nat → Prop) : Nat → Scan → Prop where
  | fresh {scan : Scan} (follows : Follows keyword known scan) : Stays keyword known depth scan
  | seen {scan : Scan} (same : scan.aux.keyword = keyword)
      (state : scan.state = .seenKeyword) : Stays keyword known 0 scan
  | inside {scan : Scan} (same : scan.aux.keyword = keyword) (isOpen : IsOpen scan)
      (positive : 1 ≤ scan.aux.depth) : Stays keyword known scan.aux.depth scan

section Runs

variable {scan : Scan} {token : Token} {keyword : Text} {known : Nat → Prop}

theorem follows_from_outside (same : scan.aux.keyword = keyword) (out : scan.state = .outside) :
    Follows keyword known scan where
  keyword := same
  counted := by
    rintro (header | body)
    · rw [out] at header; cases header
    · rw [out] at body; cases body
  origin := fun inside => absurd out inside

/-- A step keeps to candidates that began at places of the given kind, and completes only such. -/
theorem step_follows (follows : Follows keyword known scan)
    (given : Free scan → IsKeyword keyword token → known token.span.startByte) :
    Follows keyword known (step scan token).2 ∧
      ∀ region ∈ (step scan token).1, known region.keywordStart ∧
        region.closeParen = token.span.startByte := by
  have moved : Moves scan token (step scan token) := step_moves follows.counted
  revert moved
  generalize step scan token = outcome
  intro moved
  cases moved with
  | begins free found =>
    refine ⟨⟨follows.keyword, ?_, fun _ => given free (follows.keyword ▸ found)⟩, by simp⟩
    rintro (header | body)
    · cases header
    · cases body
  | leaves same out => exact ⟨follows_from_outside (same.trans follows.keyword) out, by simp⟩
  | names seen plain same still =>
    refine ⟨⟨same.1.trans follows.keyword, ?_, fun _ => ?_⟩, by simp⟩
    · rintro (header | body)
      · rw [still] at header; cases header
      · rw [still] at body; cases body
    · rw [same.2]
      exact follows.origin (by rw [seen]; exact State.noConfusion)
  | calls seen same opened header depth =>
    refine ⟨⟨same.1.trans follows.keyword, fun _ => Nat.le_of_eq depth.symm, fun _ => ?_⟩, by simp⟩
    rw [same.2]
    exact follows.origin (by rw [seen]; exact State.noConfusion)
  | follows isOpen same still depth positive =>
    refine ⟨⟨same.1.trans follows.keyword, fun _ => positive, fun _ => ?_⟩, by simp⟩
    rw [same.2]
    exact follows.origin (not_outside isOpen)
  | completes isOpen closed found stop same out =>
    refine ⟨follows_from_outside (same.trans follows.keyword) out, ?_⟩
    rintro region ⟨⟩
    exact ⟨found ▸ follows.origin (not_outside isOpen), stop⟩

/-- The candidates of a run began at places of the given kind, if the one at hand did and the
keyword stands at such places only. Each is completed at one of the tokens. -/
theorem run_follows (tokens : List Token) (follows : Follows keyword known scan)
    (given : ∀ token ∈ tokens, IsKeyword keyword token → known token.span.startByte) :
    Follows keyword known (run scan tokens).2 ∧
      ∀ region ∈ (run scan tokens).1, known region.keywordStart ∧
        ∃ token ∈ tokens, region.closeParen = token.span.startByte := by
  induction tokens generalizing scan with
  | nil => exact ⟨follows, by simp [run]⟩
  | cons token rest ih =>
    have first := step_follows follows fun _ => given token List.mem_cons_self
    have later := ih first.1 fun other mem => given other (List.mem_cons_of_mem _ mem)
    refine ⟨later.1, fun region mem => ?_⟩
    rw [run, List.mem_append, Option.mem_toList] at mem
    rcases mem with found | found
    · exact ⟨(first.2 region found).1, token, List.mem_cons_self, (first.2 region found).2⟩
    · obtain ⟨origin, other, mem, stop⟩ := later.2 region found
      exact ⟨origin, other, List.mem_cons_of_mem _ mem, stop⟩

theorem Stays.counted (stays : Stays keyword known depth scan) :
    IsOpen scan → 1 ≤ scan.aux.depth := by
  intro isOpen
  cases stays with
  | fresh follows => exact follows.counted isOpen
  | seen same state => rcases isOpen with other | other <;> rw [state] at other <;> cases other
  | inside same isOpen positive => exact positive

/-- The pass always follows a candidate of some kind. -/
theorem stays_of_follows (known : Nat → Prop) {earlier : Nat → Prop}
    (follows : Follows keyword earlier scan) : ∃ depth, Stays keyword known depth scan := by
  cases state : scan.state with
  | outside => exact ⟨0, .fresh (follows_from_outside follows.keyword state)⟩
  | seenKeyword => exact ⟨0, .seen follows.keyword state⟩
  | inParameters => exact ⟨_, .inside follows.keyword (.inl state) (follows.counted (.inl state))⟩
  | inBody => exact ⟨_, .inside follows.keyword (.inr state) (follows.counted (.inr state))⟩

/-- One token counted. -/
def depthAfter (token : Token) (depth : Nat) : Nat :=
  if token.kind.opens then depth + 1 else if token.kind.closes then depth - 1 else depth

theorem depth_tracked (progress : Progress) (token : Token) :
    (progress.track token).depth = depthAfter token progress.depth := by
  rw [Progress.track, depthAfter]
  split
  · rfl
  · split <;> rfl

/-- A step completes an inherited candidate only by closing the last bracket that is open. -/
theorem step_stays (stays : Stays keyword known depth scan)
    (given : IsKeyword keyword token → known token.span.startByte) :
    Stays keyword known (depthAfter token depth) (step scan token).2 ∧
      ∀ region ∈ (step scan token).1, known region.keywordStart ∨
        (1 ≤ depth ∧ depthAfter token depth = 0 ∧ region.closeParen = token.span.startByte) := by
  have moved : Moves scan token (step scan token) := step_moves stays.counted
  cases stays with
  | fresh follows =>
    have kept := step_follows follows fun _ => given
    exact ⟨.fresh kept.1, fun region found => .inl (kept.2 region found).1⟩
  | seen same state =>
    revert moved
    generalize step scan token = outcome
    intro moved
    cases moved with
    | begins free found =>
      exact ⟨.fresh ⟨same, by rintro (header | body) <;> contradiction,
        fun _ => given (same ▸ found)⟩, by simp⟩
    | leaves kept out => exact ⟨.fresh (follows_from_outside (kept.trans same) out), by simp⟩
    | names _ plain kept still =>
      rw [depthAfter, plain.1, plain.2]
      exact ⟨.seen (kept.1.trans same) still, by simp⟩
    | @calls next _ kept opened header depth =>
      rw [depthAfter, opened]
      have entered : Stays keyword known next.aux.depth next :=
        .inside (kept.1.trans same) (.inl header) (Nat.le_of_eq depth.symm)
      rw [depth] at entered
      exact ⟨entered, by simp⟩
    | follows isOpen => rcases isOpen with other | other <;> rw [state] at other <;> cases other
    | completes isOpen => rcases isOpen with other | other <;> rw [state] at other <;> cases other
  | inside same isOpen positive =>
    revert moved
    generalize step scan token = outcome
    intro moved
    cases moved with
    | begins free found =>
      rcases isOpen with other | other <;> rcases free with free | free <;>
        simp [other] at free
    | leaves kept out => exact ⟨.fresh (follows_from_outside (kept.trans same) out), by simp⟩
    | names seen => rcases isOpen with other | other <;> rw [seen] at other <;> cases other
    | calls seen => rcases isOpen with other | other <;> rw [seen] at other <;> cases other
    | @follows next _ kept still depth positive =>
      rw [depth_tracked] at depth
      rw [← depth]
      exact ⟨.inside (kept.1.trans same) still positive, by simp⟩
    | completes _ closed found stop kept out =>
      rw [depth_tracked] at closed
      refine ⟨.fresh (follows_from_outside (kept.trans same) out), ?_⟩
      rintro region ⟨⟩
      exact .inr ⟨positive, closed, stop⟩

private theorem depth_after_plain (plain : IsPlain token) : depthAfter token depth = depth := by
  rw [depthAfter, plain.1, plain.2]
  rfl

private theorem depth_after_open (opens : token.kind.opens = true) :
    depthAfter token depth = depth + 1 := by
  rw [depthAfter, if_pos opens]

private theorem depth_after_close (closes : token.kind.closes = true) :
    depthAfter token (depth + 1) = depth := by
  rw [depthAfter, opens_not_closes closes, closes]
  rfl

private theorem given_here {tokens : List Token}
    (given : ∀ other ∈ token :: tokens, IsKeyword keyword other → known other.span.startByte) :
    IsKeyword keyword token → known token.span.startByte :=
  given token List.mem_cons_self

private theorem given_later {tokens : List Token}
    (given : ∀ other ∈ token :: tokens, IsKeyword keyword other → known other.span.startByte) :
    ∀ other ∈ tokens, IsKeyword keyword other → known other.span.startByte :=
  fun other mem => given other (List.mem_cons_of_mem _ mem)

/-- Among tokens with matching brackets, inside at least one open bracket, no inherited candidate is
completed, and afterwards as many brackets are open as before. -/
theorem run_matched_stays (matched : Matched tokens) (positive : 1 ≤ depth)
    (stays : Stays keyword known depth scan)
    (given : ∀ token ∈ tokens, IsKeyword keyword token → known token.span.startByte) :
    Stays keyword known depth (run scan tokens).2 ∧
      ∀ region ∈ (run scan tokens).1, known region.keywordStart := by
  induction matched generalizing scan depth with
  | nil => exact ⟨stays, by simp [run]⟩
  | @plain token tokens one _ ih =>
    have first := step_stays stays (given_here given)
    rw [depth_after_plain one] at first
    have later := ih positive first.1 (given_later given)
    refine ⟨later.1, fun region found => ?_⟩
    rw [run, List.mem_append, Option.mem_toList] at found
    rcases found with found | found
    · rcases first.2 region found with origin | ⟨-, shut, -⟩
      · exact origin
      · omega
    · exact later.2 region found
  | @brackets inner tokens first last opens _ closes _ inner_ih rest_ih =>
    have opened := step_stays stays (given_here given)
    rw [depth_after_open opens] at opened
    have within := inner_ih (Nat.le_add_left 1 depth) opened.1 fun token mem =>
      given_later given token (List.mem_append_left _ mem)
    have closed := step_stays within.1 (given last (by simp))
    rw [depth_after_close closes] at closed
    have later := rest_ih positive closed.1 fun token mem =>
      given_later given token (List.mem_append_right _ (List.mem_cons_of_mem _ mem))
    rw [run, run_append, run]
    refine ⟨later.1, fun region found => ?_⟩
    simp only [List.mem_append, Option.mem_toList] at found
    rcases found with found | found | found | found
    · rcases opened.2 region found with origin | ⟨-, shut, -⟩
      · exact origin
      · omega
    · exact within.2 region found
    · rcases closed.2 region found with origin | ⟨-, shut, -⟩
      · exact origin
      · omega
    · exact later.2 region found

/-- Tokens that are no brackets complete no inherited candidate. -/
private theorem run_plain_stays (plain : ∀ token ∈ tokens, IsPlain token)
    (stays : Stays keyword known depth scan)
    (given : ∀ token ∈ tokens, IsKeyword keyword token → known token.span.startByte) :
    Stays keyword known depth (run scan tokens).2 ∧
      ∀ region ∈ (run scan tokens).1, known region.keywordStart := by
  induction tokens generalizing scan with
  | nil => exact ⟨stays, by simp [run]⟩
  | cons token rest ih =>
    have one := plain token List.mem_cons_self
    have first := step_stays stays (given_here given)
    rw [depth_after_plain one] at first
    have later := ih (fun other mem => plain other (List.mem_cons_of_mem _ mem)) first.1
      (given_later given)
    refine ⟨later.1, fun region found => ?_⟩
    rw [run, List.mem_append, Option.mem_toList] at found
    rcases found with found | found
    · rcases first.2 region found with origin | ⟨positive, shut, -⟩
      · exact origin
      · omega
    · exact later.2 region found

/-- In a call an inherited candidate is completed at the closing parenthesis or not at all. -/
theorem run_across_call {inner : List Token} {first last : Token}
    (plain : ∀ token ∈ callee, IsPlain token) (opens : first.kind.opens = true)
    (matched : Matched inner)
    (stays : Stays keyword known depth scan)
    (given : ∀ token ∈ callee ++ first :: (inner ++ [last]),
      IsKeyword keyword token → known token.span.startByte) :
    ∀ region ∈ (run scan (callee ++ first :: (inner ++ [last]))).1,
      known region.keywordStart ∨ region.closeParen = last.span.startByte := by
  have named := run_plain_stays plain stays fun token mem =>
    given token (List.mem_append_left _ mem)
  have opened := step_stays named.1 (given first (by simp))
  rw [depth_after_open opens] at opened
  have within := run_matched_stays matched (Nat.le_add_left 1 depth) opened.1 fun token mem =>
    given token (by simp [mem])
  have closed := step_stays within.1 (given last (by simp))
  intro region found
  rw [run_append, run, run_append, run, run] at found
  simp only [List.mem_append, Option.mem_toList, List.not_mem_nil, or_false] at found
  rcases found with found | found | found | found
  · exact .inl (named.2 region found)
  · rcases opened.2 region found with origin | ⟨-, shut, -⟩
    · exact .inl origin
    · omega
  · exact .inl (within.2 region found)
  · rcases closed.2 region found with origin | ⟨-, -, stop⟩
    · exact .inl origin
    · exact .inr stop

end Runs

/-- The tokens of an extended lambda, blank space and comments left out: the keyword with the label
that may follow it, and in parentheses a lambda whose body is a list. -/
structure CallTokens (keyword : Text) where
  word : Token
  label : Option (Token × Token)
  openParen : Token
  lambda : Token
  parameters : List Token
  colon : Token
  openBracket : Token
  inner : List Token
  closeBracket : Token
  tail : List Token
  closeParen : Token
  isKeyword : IsKeyword keyword word
  isLabel : ∀ pair ∈ label, pair.1.kind = .dot ∧ IsPlain pair.2 ∧ pair.2.isInsignificant = false
  opens : openParen.kind = .openParen
  isLambda : IsKeyword lambdaWord lambda
  header : Header parameters
  isColon : colon.kind = .colon
  opensList : openBracket.kind = .openBracket
  matched : Matched inner
  closesList : closeBracket.kind = .closeBracket
  rest : Matched tail
  closes : closeParen.kind = .closeParen

namespace CallTokens

variable {keyword : Text} (call : CallTokens keyword)

/-- The dot and the label. -/
def labelTokens : List Token :=
  match call.label with
  | none => []
  | some (dot, name) => [dot, name]

/-- What stands between the parentheses. -/
def argument : List Token :=
  call.lambda :: (call.parameters ++
    call.colon :: call.openBracket :: (call.inner ++ call.closeBracket :: call.tail))

/-- All the tokens in order. -/
def list : List Token :=
  call.word :: call.labelTokens ++ call.openParen :: (call.argument ++ [call.closeParen])

/-- The candidate that the tokens make. -/
def region : Region :=
  ⟨call.word.span.startByte, call.openParen.span.startByte, call.openBracket.span.startByte,
    call.closeParen.span.startByte⟩

/-- The keyword is called under no name, or under one that counts as a name. -/
def Callable : Prop := ∀ pair ∈ call.label, pair.2.kind = .name

theorem callee_plain : ∀ token ∈ call.word :: call.labelTokens, IsPlain token := by
  intro token mem
  rcases List.mem_cons.mp mem with rfl | mem
  · exact plain_of_name call.isKeyword.1
  · have facts := call.isLabel
    revert mem facts
    rw [labelTokens]
    cases call.label with
    | none => simp
    | some pair =>
      intro mem facts
      obtain ⟨dot, plain, -⟩ := facts pair rfl
      simp only [List.mem_cons, List.not_mem_nil, or_false] at mem
      rcases mem with rfl | rfl
      · exact plain_of_dot dot
      · exact plain

theorem argument_matched : Matched call.argument := by
  have listed : Matched (call.openBracket :: (call.inner ++ call.closeBracket :: call.tail)) :=
    .brackets (by rw [call.opensList]; rfl) call.matched (by rw [call.closesList]; rfl) call.rest
  exact .plain (plain_of_name call.isLambda.1)
    (call.header.matched.append (.plain (plain_of_colon call.isColon) listed))

/-- What is known of the candidate after the keyword and its label. -/
structure Named (keyword : Text) (start : Nat) (scan : Scan) : Prop where
  keyword : scan.aux.keyword = keyword
  state : scan.state = .seenKeyword
  start : scan.aux.keywordStart = start
  dotless : scan.aux.afterDot = false
  lambdas : scan.aux.openLambdas = 0
  body : scan.aux.bodyOpen = none

theorem significant_of_name {token : Token} (name : token.kind = .name) :
    token.isInsignificant = false := by
  rw [Token.isInsignificant, name]
  rfl

theorem step_keyword {scan : Scan} {token : Token} (free : Free scan)
    (same : scan.aux.keyword = keyword) (found : IsKeyword keyword token) :
    step scan token = (none, ⟨.seenKeyword, scan.aux.restart token.span.startByte⟩) := by
  have word : token.text = scan.aux.keyword := found.2.trans same.symm
  rw [step, significant_of_name found.1, found.1, if_neg (by decide)]
  rcases free with state | ⟨state, dotless⟩
  · rw [state]
    simp only [onNameOutside, if_pos word, goOn]
  · rw [state]
    simp only [onNameAfterKeyword, dotless, Bool.false_eq_true, if_false, if_pos word, goOn,
      state]

theorem step_dot {progress : Progress} {token : Token} (dot : token.kind = .dot)
    (dotless : progress.afterDot = false) (unnamed : progress.named = false) :
    step ⟨.seenKeyword, progress⟩ token =
      (none, ⟨.seenKeyword, { progress with afterDot := true }⟩) := by
  obtain ⟨kind, text, span⟩ := token
  cases dot
  simp [step, Token.isInsignificant, TokenKind.isInsignificant, onDotAfterKeyword, dotless,
    unnamed, goOn]

/-- Right after the dot a name goes on, and anything else drops the candidate. -/
theorem step_after_dot {progress : Progress} {token : Token}
    (significant : token.isInsignificant = false) (dotted : progress.afterDot = true) :
    step ⟨.seenKeyword, progress⟩ token =
      if token.kind = .name then
        (none, ⟨.seenKeyword, { progress with afterDot := false, named := true }⟩)
      else (none, ⟨.outside, progress⟩) := by
  obtain ⟨kind, text, span⟩ := token
  cases kind <;>
    simp_all [step, onNameAfterKeyword, onDotAfterKeyword, onCallOpen, drop, goOn,
      Token.isInsignificant, TokenKind.isInsignificant]

end CallTokens

/-- The keyword, possibly with a name after a dot. -/
structure Callee (keyword : Text) where
  word : Token
  label : Option (Token × Token)
  isKeyword : IsKeyword keyword word
  isLabel : ∀ pair ∈ label, pair.1.kind = .dot ∧ pair.2.kind = .name

/-- The pass has read the keyword, and the name after a dot if there is one. -/
structure Called {keyword : Text} (callee : Callee keyword) (scan : Scan) : Prop
    extends CallTokens.Named keyword callee.word.span.startByte scan where
  label : scan.aux.named = callee.label.isSome

namespace Callee

variable {keyword : Text} {scan : Scan}

/-- The tokens in order. -/
def tokens (callee : Callee keyword) : List Token :=
  match callee.label with
  | none => [callee.word]
  | some (dot, name) => [callee.word, dot, name]

/-- The keyword and the name after it leave the search before the parenthesis. -/
theorem run (callee : Callee keyword) (free : Free scan) (same : scan.aux.keyword = keyword) :
    ∃ next, Region.run scan callee.tokens = ([], next) ∧ Called callee next := by
  obtain ⟨word, label, isKeyword, isLabel⟩ := callee
  have begun := CallTokens.step_keyword free same isKeyword
  cases label with
  | none =>
    refine ⟨⟨.seenKeyword, scan.aux.restart word.span.startByte⟩, ?_, ?_⟩
    · simp only [tokens, Region.run, begun, Option.toList_none, List.nil_append]
    · exact ⟨⟨same, rfl, rfl, rfl, rfl, rfl⟩, rfl⟩
  | some pair =>
    obtain ⟨dot, name⟩ := isLabel pair rfl
    have significant := CallTokens.significant_of_name name
    simp only [tokens, Region.run]
    rw [begun, CallTokens.step_dot dot rfl rfl, CallTokens.step_after_dot significant rfl,
      if_pos name]
    exact ⟨_, rfl, ⟨same, rfl, rfl, rfl, rfl, rfl⟩, rfl⟩

end Callee

namespace CallTokens

variable {keyword : Text} (call : CallTokens keyword) {scan : Scan}

/-- The callee of a call whose label counts as a name. -/
def callee (callable : call.Callable) : Callee keyword where
  word := call.word
  label := call.label
  isKeyword := call.isKeyword
  isLabel := fun pair mem => ⟨(call.isLabel pair mem).1, callable pair mem⟩

theorem callee_tokens (callable : call.Callable) :
    (call.callee callable).tokens = call.word :: call.labelTokens := by
  simp only [Callee.tokens, callee, labelTokens]
  cases call.label <;> rfl

/-- The keyword and a label that counts as a name leave the search before the parenthesis. -/
theorem run_callee (free : Free scan) (same : scan.aux.keyword = keyword)
    (callable : call.Callable) :
    (run scan (call.word :: call.labelTokens)).1 = [] ∧
      Named keyword call.word.span.startByte (run scan (call.word :: call.labelTokens)).2 := by
  obtain ⟨next, ran, called⟩ := (call.callee callable).run free same
  rw [← call.callee_tokens callable, ran]
  exact ⟨rfl, called.toNamed⟩

/-- A label that does not count as a name drops the candidate. -/
theorem run_callee_dropped (free : Free scan) (same : scan.aux.keyword = keyword)
    (other : ¬ call.Callable) :
    (run scan (call.word :: call.labelTokens)).1 = [] ∧
      (run scan (call.word :: call.labelTokens)).2.state = .outside ∧
      (run scan (call.word :: call.labelTokens)).2.aux.keyword = keyword := by
  have begun := step_keyword free same call.isKeyword
  have facts := call.isLabel
  revert facts other
  rw [run, begun, labelTokens, Callable]
  cases call.label with
  | none => exact fun other _ => absurd (by rintro pair ⟨⟩) other
  | some pair =>
    intro other facts
    obtain ⟨dot, -, significant⟩ := facts pair rfl
    have unnamed : ¬ pair.2.kind = .name := fun name => other (by rintro _ ⟨⟩; exact name)
    simp only [run]
    rw [step_dot dot rfl rfl, step_after_dot significant rfl, if_neg unnamed]
    exact ⟨rfl, rfl, same⟩

/-- The pass is in the body of a lambda, between the parenthesis of the call and the list. -/
theorem step_list_opens {token : Token} (state : scan.state = .inBody)
    (depth : scan.aux.depth = 1) (body : scan.aux.bodyOpen = none)
    (opens : token.kind = .openBracket) :
    step scan token = (none, ⟨.inBody,
      { scan.aux with bodyOpen := some token.span.startByte, depth := 2 }⟩) := by
  have significant : token.isInsignificant = false := by
    rw [Token.isInsignificant, opens]
    rfl
  rw [step_in_body state significant, onBodyToken]
  simp [depth, body, opens, Progress.track, TokenKind.opens, goOn, state]

theorem step_call_closes {token : Token} {list : Nat} (state : scan.state = .inBody)
    (depth : scan.aux.depth = 1) (body : scan.aux.bodyOpen = some list)
    (closes : token.kind = .closeParen) :
    step scan token = (some ⟨scan.aux.keywordStart, scan.aux.openParen, list,
      token.span.startByte⟩, ⟨.outside, { scan.aux with depth := 0 }⟩) := by
  have significant : token.isInsignificant = false := by
    rw [Token.isInsignificant, closes]
    rfl
  rw [step_in_body state significant, onBodyToken]
  simp [depth, body, closes, Progress.track, TokenKind.opens, TokenKind.closes]

theorem step_call_opens {start : Nat} {token : Token} (named : Named keyword start scan)
    (opens : token.kind = .openParen) :
    step scan token = (none, ⟨.inParameters,
      { scan.aux with openParen := token.span.startByte, depth := 1 }⟩) := by
  have significant : token.isInsignificant = false := by
    rw [Token.isInsignificant, opens]
    rfl
  rw [step, significant, opens, named.state, if_neg (by decide)]
  simp only [onCallOpen, named.dotless, Bool.false_eq_true, if_false, goOn]

/-- After the callee the parentheses complete the candidate, and no other one begins in them. -/
theorem run_parentheses (named : Named keyword call.word.span.startByte scan) :
    let (regions, next) := run scan (call.openParen :: (call.argument ++ [call.closeParen]))
    regions = [call.region] ∧ next.state = .outside ∧ next.aux.keyword = scan.aux.keyword := by
  let called : Scan := ⟨.inParameters,
    { scan.aux with openParen := call.openParen.span.startByte, depth := 1 }⟩
  have opened : step scan call.openParen = (none, called) := step_call_opens named call.opens
  let header := withLambdas called 1
  have counted : step called call.lambda = (none, header) := by
    have one : called.aux.openLambdas + 1 = 1 := congrArg (· + 1) named.lambdas
    rw [step_lambda_at_one rfl rfl call.isLambda.1 call.isLambda.2, one]
  have read : run header call.parameters = ([], header) :=
    run_header call.header ⟨rfl, Nat.le_refl 1, Nat.le_refl 1⟩
  let body : Scan := ⟨.inBody, (withLambdas header 0).aux⟩
  have entered : step header call.colon = (none, body) := by
    have one : header.aux.openLambdas = 0 + 1 := rfl
    rw [step_colon_at_one rfl rfl one call.isColon, if_pos rfl]
  let listed : Scan := ⟨.inBody,
    { body.aux with bodyOpen := some call.openBracket.span.startByte, depth := 2 }⟩
  have started : step body call.openBracket = (none, listed) :=
    step_list_opens rfl rfl named.body call.opensList
  have inside : Inside listed := .inl ⟨rfl, Option.some_ne_none _, Nat.le_succ 1⟩
  have kept : run listed call.inner = ([], listed) := run_matched call.matched inside
  have shut : call.closeBracket.kind.closes = true := by rw [call.closesList]; rfl
  have ended : step listed call.closeBracket = (none, atDepth listed 1) := by
    rw [step_inside inside (by rw [track_close shut]; exact Nat.one_pos), track_close shut]
    rfl
  have last : Inside (atDepth listed 1) := .inl ⟨rfl, Option.some_ne_none _, Nat.le_refl 1⟩
  have closed : step (atDepth listed 1) call.closeParen =
      (some call.region, ⟨.outside, (atDepth listed 0).aux⟩) := by
    rw [step_call_closes rfl rfl rfl call.closes]
    exact congrArg (fun start => (some (Region.mk start _ _ _), _)) named.start
  rw [argument, run, opened, List.cons_append, run, counted, List.append_assoc, run_append, read,
    List.cons_append, run, entered, List.cons_append, run, started, List.append_assoc, run_append,
    kept, List.cons_append, run, ended, run_append, run_matched call.rest last, run, closed]
  exact ⟨rfl, rfl, rfl⟩

/-- Wherever the search is free, a callable extended lambda makes its candidate and no other one. -/
theorem run_found (free : Free scan) (same : scan.aux.keyword = keyword)
    (callable : call.Callable) :
    (run scan call.list).1 = [call.region] ∧ (run scan call.list).2.state = .outside ∧
      (run scan call.list).2.aux.keyword = keyword := by
  obtain ⟨none, named⟩ := call.run_callee free same callable
  obtain ⟨one, out, kept⟩ := call.run_parentheses named
  rw [list, run_append, none]
  exact ⟨one, out, kept.trans named.keyword⟩

end CallTokens

theorem follows_begin (keyword : Text) (known : Nat → Prop) :
    Follows keyword known (begin keyword) := follows_from_outside rfl rfl

section Found

variable {keyword : Text} {call : CallTokens keyword} {before tokens after : List Token}

/-- Where the search is not free, or the label does not count as a name, the callee leaves it with
what it had. -/
theorem run_callee_unfit {scan : Scan} {known : Nat → Prop} (follows : Follows keyword known scan)
    (unfit : ¬ (Free scan ∧ call.Callable))
    (given : ∀ token ∈ call.labelTokens, known token.span.startByte) :
    Follows keyword known (run scan (call.word :: call.labelTokens)).2 ∧
      ∀ region ∈ (run scan (call.word :: call.labelTokens)).1, known region.keywordStart := by
  by_cases free : Free scan
  · obtain ⟨none, out, same⟩ := call.run_callee_dropped free follows.keyword
      fun callable => unfit ⟨free, callable⟩
    exact ⟨follows_from_outside same out, by simp [none]⟩
  · have first : Follows keyword known (step scan call.word).2 ∧ _ :=
      step_follows follows fun now => absurd now free
    have later := run_follows call.labelTokens first.1 fun token mem _ => given token mem
    refine ⟨later.1, fun region found => ?_⟩
    rw [run, List.mem_append, Option.mem_toList] at found
    rcases found with found | found
    · exact (first.2 region found).1
    · exact (later.2 region found).1

/-- A candidate begins at the keyword of an extended lambda exactly if the search is free when it
gets there and the call is callable, and then it is the candidate that the tokens of the call make. -/
theorem region_begins_iff {region : Region}
    (read : (tokens.filter fun token => !token.isInsignificant) = call.list)
    (earlier : ∀ token ∈ before, token.span.startByte < call.word.span.startByte)
    (inner : ∀ token ∈ call.list.tail, call.word.span.startByte < token.span.startByte)
    (later : ∀ token ∈ after, call.word.span.startByte < token.span.startByte) :
    (region ∈ (run (begin keyword) (before ++ tokens ++ after)).1 ∧
        region.keywordStart = call.word.span.startByte) ↔
      Free (run (begin keyword) before).2 ∧ call.Callable ∧ region = call.region := by
  let known : Nat → Prop := fun start => start ≠ call.word.span.startByte
  obtain ⟨reached, first⟩ := run_follows before (follows_begin keyword known)
    fun token mem _ => Nat.ne_of_lt (earlier token mem)
  have last : ∀ {scan : Scan}, Follows keyword known scan → ∀ region ∈ (run scan after).1,
      known region.keywordStart := fun follows region found => ((run_follows after follows
    fun token mem _ => Nat.ne_of_gt (later token mem)).2 region found).1
  rw [run_append, run_append, ← run_significant _ tokens, read]
  simp only [List.mem_append]
  by_cases fit : Free (run (begin keyword) before).2 ∧ call.Callable
  · obtain ⟨one, out, kept⟩ := call.run_found fit.1 reached.keyword fit.2
    rw [one]
    constructor
    · rintro ⟨(found | found) | found, start⟩
      · exact absurd start (first region found).1
      · exact ⟨fit.1, fit.2, List.mem_singleton.mp found⟩
      · exact absurd start (last (follows_from_outside kept out) region found)
    · rintro ⟨-, -, rfl⟩
      exact ⟨.inl (.inr (List.mem_singleton_self _)), rfl⟩
  · refine ⟨?_, fun ⟨free, callable, _⟩ => absurd ⟨free, callable⟩ fit⟩
    rintro ⟨found, start⟩
    have split : call.list.tail =
        call.labelTokens ++ call.openParen :: (call.argument ++ [call.closeParen]) := rfl
    obtain ⟨named, second⟩ := run_callee_unfit reached fit fun token mem =>
      Nat.ne_of_gt (inner token (by rw [split]; exact List.mem_append_left _ mem))
    obtain ⟨closed, third⟩ := run_follows (call.openParen :: (call.argument ++ [call.closeParen]))
      named fun token mem _ =>
        Nat.ne_of_gt (inner token (by rw [split]; exact List.mem_append_right _ mem))
    rw [CallTokens.list, run_append, List.mem_append] at found
    rcases found with (found | found | found) | found
    · exact absurd start (first region found).1
    · exact absurd start (second region found)
    · exact absurd start (third region found).1
    · exact absurd start (last closed region found)

/-- A candidate that began before an extended lambda and is completed after its start is not
completed inside it. -/
theorem region_closes_after {region : Region}
    (read : (tokens.filter fun token => !token.isInsignificant) = call.list)
    (earlier : ∀ token ∈ before, token.span.startByte < call.word.span.startByte)
    (inner : ∀ token ∈ call.list, call.word.span.startByte ≤ token.span.startByte)
    (later : ∀ token ∈ after, call.closeParen.span.startByte ≤ token.span.startByte)
    (found : region ∈ (run (begin keyword) (before ++ tokens ++ after)).1)
    (began : region.keywordStart < call.word.span.startByte)
    (closes : call.word.span.startByte < region.closeParen) :
    call.closeParen.span.startByte ≤ region.closeParen := by
  obtain ⟨reached, first⟩ := run_follows before (follows_begin keyword fun _ => True)
    fun _ _ _ => trivial
  obtain ⟨depth, stays⟩ := stays_of_follows (call.word.span.startByte ≤ ·) reached
  have across := run_across_call call.callee_plain (by rw [call.opens]; rfl)
    call.argument_matched stays fun token mem _ => inner token mem
  rw [run_append, run_append, ← run_significant _ tokens, read] at found
  simp only [List.mem_append] at found
  rcases found with (found | found) | found
  · obtain ⟨-, token, mem, stop⟩ := first region found
    have early := earlier token mem
    omega
  · rcases across region found with origin | stop
    · omega
    · exact Nat.le_of_eq stop.symm
  · obtain ⟨passed, -⟩ := run_follows call.list reached fun _ _ _ => trivial
    obtain ⟨-, token, mem, stop⟩ := (run_follows after passed fun _ _ _ => trivial).2 region found
    rw [stop]
    exact later token mem

end Found

end LambdaLayout.Region
