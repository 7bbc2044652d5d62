import LambdaLayout.Reformat

/-!
The search for candidates as a machine that takes one token at a time. The table of rules is replaced
by the rule it chooses, blank space and comments drop out, and a run over a list of tokens splits
where the list does. Two kinds of token sequences are then followed through the machine: those whose
brackets match, which leave an open candidate where it was, and those that may stand in the header of
a lambda, in which besides the brackets every colon belongs to a lambda before it.
-/

namespace LambdaLayout.Region

open Dispatch

/-- The word that opens a lambda. -/
def lambdaWord : Text := "lambda".toList

/-- One token of the pass. The rule depends on the state and the category of the token, and in the
header of a lambda also on its text. -/
def step (scan : Scan) (token : Token) : Option Region × Scan :=
  if token.isInsignificant then (none, scan)
  else
    match scan.state, token.kind with
    | .outside, .name => onNameOutside scan token
    | .outside, _ => (none, scan)
    | .seenKeyword, .name => onNameAfterKeyword scan token
    | .seenKeyword, .dot => onDotAfterKeyword scan token
    | .seenKeyword, .openParen => onCallOpen scan token
    | .seenKeyword, _ => drop scan token
    | .inParameters, .name =>
      if token.text = lambdaWord then onLambda scan token else onParameterToken scan token
    | .inParameters, .colon => onHeaderColon scan token
    | .inParameters, _ => onParameterToken scan token
    | .inBody, _ => onBodyToken scan token

/-- The pass over several tokens: the candidates completed and where it stands afterwards. -/
def run (scan : Scan) : List Token → List Region × Scan
  | [] => ([], scan)
  | token :: rest =>
    ((step scan token).1.toList ++ (run (step scan token).2 rest).1,
      (run (step scan token).2 rest).2)

/-- Where the pass starts. -/
def begin (keyword : Text) : Scan := ⟨.outside, { keyword := keyword }⟩

private def rules : Table State Progress (Option Region) := { rules := ruleList.reverse }

private theorem table_is_complete : table = .ok rules := rfl

/-- The table chooses the rule that one step applies. Only names are looked up by their text, and
only one rule asks for a text. -/
private theorem dispatch_is_step (scan : Scan) (token : Token) :
    ((rules.dispatch scan token).1.join, (rules.dispatch scan token).2) = step scan token := by
  obtain ⟨state, aux⟩ := scan
  obtain ⟨kind, text, span⟩ := token
  by_cases name : kind = .name
  · subst name
    by_cases same : text = lambdaWord
    · subst same
      cases state <;> rfl
    · have other : ¬ ['l', 'a', 'm', 'b', 'd', 'a'] = text := Ne.symm same
      cases state <;>
        simp [Table.dispatch, step, Token.isInsignificant, TokenKind.isInsignificant,
          Table.probes, Key.canonical, Key.asksName, TokenKind.isNamed, Table.find?, rules,
          ruleList, List.findSome?, other, same]
  · cases state <;> cases kind <;> first | rfl | exact absurd rfl name

private theorem dispatch_all_is_run (scan : Scan) (tokens : List Token) :
    ((rules.dispatchAll scan tokens).1.filterMap id, (rules.dispatchAll scan tokens).2) =
      run scan tokens := by
  induction tokens generalizing scan with
  | nil => rfl
  | cons token rest ih =>
    have first := dispatch_is_step scan token
    have found : (rules.dispatch scan token).1.join = (step scan token).1 := by rw [← first]
    have next : (rules.dispatch scan token).2 = (step scan token).2 := by rw [← first]
    rw [run, ← found, ← next, ← ih (rules.dispatch scan token).2]
    simp only [Table.dispatchAll, List.filterMap_append]
    cases (rules.dispatch scan token).1 with
    | none => rfl
    | some found => cases found <;> rfl

/-- The rules make a table, and a pass by that table is a run. -/
theorem table_runs : ∃ rules, table = .ok rules ∧ ∀ scan tokens,
    ((rules.dispatchAll scan tokens).1.filterMap id, (rules.dispatchAll scan tokens).2) =
      run scan tokens :=
  ⟨rules, table_is_complete, dispatch_all_is_run⟩

/-- The search always gives an answer: the candidates of a run from the beginning. -/
theorem scan_is_run (tokens : List Token) (keyword : Text) :
    scan tokens keyword = .ok (run (begin keyword) tokens).1 := by
  rw [scan, table_is_complete, ← dispatch_all_is_run]
  rfl

/-- A run over two lists is a run over the first and then over the second. -/
theorem run_append (scan : Scan) (first second : List Token) :
    run scan (first ++ second) =
      ((run scan first).1 ++ (run (run scan first).2 second).1,
        (run (run scan first).2 second).2) := by
  induction first generalizing scan with
  | nil => rfl
  | cons token rest ih =>
    rw [List.cons_append, run, run, ih]
    simp only [List.append_assoc]

/-- Blank space and comments change nothing. -/
theorem run_significant (scan : Scan) (tokens : List Token) :
    run scan (tokens.filter fun token => !token.isInsignificant) = run scan tokens := by
  induction tokens generalizing scan with
  | nil => rfl
  | cons token rest ih =>
    cases blank : token.isInsignificant with
    | true =>
      have idle : step scan token = (none, scan) := by rw [step, blank, if_pos rfl]
      rw [List.filter_cons_of_neg (by simp [blank]), ih, run, idle]
      rfl
    | false => rw [List.filter_cons_of_pos (by simp [blank]), run, run, ih]

/-- A token that neither opens nor closes brackets. -/
def IsPlain (token : Token) : Prop := token.kind.opens = false ∧ token.kind.closes = false

/-- Tokens whose brackets match. The kinds of brackets are not told apart. -/
inductive Matched : List Token → Prop where
  | nil : Matched []
  | plain (one : IsPlain token) (rest : Matched tokens) : Matched (token :: tokens)
  | brackets {inner tokens : List Token} {first last : Token} (opens : first.kind.opens = true)
      (inside : Matched inner) (closes : last.kind.closes = true) (rest : Matched tokens) :
      Matched (first :: (inner ++ last :: tokens))

/-- Tokens that may stand in the header of a lambda: their brackets match, and outside of brackets
every colon belongs to a lambda before it. -/
inductive Header : List Token → Prop where
  | nil : Header []
  | plain (one : IsPlain token) (other : token.kind ≠ .colon)
      (word : ¬ (token.kind = .name ∧ token.text = lambdaWord)) (rest : Header tokens) :
      Header (token :: tokens)
  | brackets {inner tokens : List Token} {first last : Token} (opens : first.kind.opens = true)
      (inside : Matched inner) (closes : last.kind.closes = true) (rest : Header tokens) :
      Header (first :: (inner ++ last :: tokens))
  | lambda {inner tokens : List Token} {first last : Token} (name : first.kind = .name)
      (word : first.text = lambdaWord) (inside : Header inner) (colon : last.kind = .colon)
      (rest : Header tokens) :
      Header (first :: (inner ++ last :: tokens))

theorem Matched.append (first : Matched left) (second : Matched right) :
    Matched (left ++ right) := by
  induction first with
  | nil => exact second
  | plain one _ ih => exact .plain one ih
  | brackets opens inside closes _ _ ih =>
    rw [List.cons_append, List.append_assoc]
    exact .brackets opens inside closes ih

theorem Header.append (first : Header left) (second : Header right) : Header (left ++ right) := by
  induction first with
  | nil => exact second
  | plain one other word _ ih => exact .plain one other word ih
  | brackets opens inside closes _ ih =>
    rw [List.cons_append, List.append_assoc]
    exact .brackets opens inside closes ih
  | lambda name word inside colon _ _ ih =>
    rw [List.cons_append, List.append_assoc]
    exact .lambda name word inside colon ih

/-- A token that is no bracket may be left out. -/
theorem Matched.of_plain {token : Token} {tokens : List Token} (plain : IsPlain token)
    (matched : Matched (token :: tokens)) : Matched tokens := by
  generalize whole : token :: tokens = list at matched
  cases matched with
  | nil => cases whole
  | plain one rest => cases whole; exact rest
  | brackets opens inside closes rest =>
    cases whole
    rw [plain.1] at opens
    cases opens

theorem Header.of_plain {token : Token} {tokens : List Token} (plain : IsPlain token)
    (word : token.kind ≠ .name) (header : Header (token :: tokens)) : Header tokens := by
  generalize whole : token :: tokens = list at header
  cases header with
  | nil => cases whole
  | plain one other word rest => cases whole; exact rest
  | brackets opens inside closes rest =>
    cases whole
    rw [plain.1] at opens
    cases opens
  | lambda name =>
    cases whole
    exact absurd name word

theorem plain_of_name {token : Token} (name : token.kind = .name) : IsPlain token := by
  rw [IsPlain, name]
  exact ⟨rfl, rfl⟩

theorem plain_of_colon {token : Token} (colon : token.kind = .colon) : IsPlain token := by
  rw [IsPlain, colon]
  exact ⟨rfl, rfl⟩

/-- What may stand in a header has matching brackets. -/
theorem Header.matched (header : Header tokens) : Matched tokens := by
  induction header with
  | nil => exact .nil
  | plain one _ _ _ ih => exact .plain one ih
  | brackets opens inside closes _ ih => exact .brackets opens inside closes ih
  | lambda name _ _ colon _ inner rest =>
    exact .plain (plain_of_name name) (inner.append (.plain (plain_of_colon colon) rest))

/-- The pass with another number of open brackets. -/
def atDepth (scan : Scan) (depth : Nat) : Scan :=
  { scan with aux := { scan.aux with depth := depth } }

/-- The pass is inside brackets of a candidate, where neither a colon nor a lambda counts. -/
def Inside (scan : Scan) : Prop :=
  (scan.state = .inBody ∧ scan.aux.bodyOpen ≠ none ∧ 1 ≤ scan.aux.depth) ∨
    (scan.state = .inParameters ∧ 2 ≤ scan.aux.depth)

/-- The pass is in the header of a candidate's lambda. -/
def InHeader (scan : Scan) : Prop :=
  scan.state = .inParameters ∧ 1 ≤ scan.aux.depth ∧ 1 ≤ scan.aux.openLambdas

section Steps

variable {scan : Scan} {token : Token} {progress : Progress}

theorem insignificant_is_plain (blank : token.isInsignificant = true) : IsPlain token := by
  obtain ⟨kind, text, span⟩ := token
  cases kind <;> first | exact ⟨rfl, rfl⟩ | cases blank

theorem significant_of_open (opens : token.kind.opens = true) : token.isInsignificant = false := by
  cases blank : token.isInsignificant with
  | false => rfl
  | true => rw [(insignificant_is_plain blank).1] at opens; cases opens

theorem significant_of_close (closes : token.kind.closes = true) :
    token.isInsignificant = false := by
  cases blank : token.isInsignificant with
  | false => rfl
  | true => rw [(insignificant_is_plain blank).2] at closes; cases closes

theorem opens_not_closes (closes : token.kind.closes = true) :
    token.kind.opens = false := by
  obtain ⟨kind, text, span⟩ := token
  cases kind <;> first | rfl | cases closes

theorem track_plain (plain : IsPlain token) : progress.track token = progress := by
  simp [Progress.track, plain.1, plain.2]

theorem track_open (opens : token.kind.opens = true) :
    progress.track token = { progress with depth := progress.depth + 1 } := by
  simp [Progress.track, opens]

theorem track_close (closes : token.kind.closes = true) :
    progress.track token = { progress with depth := progress.depth - 1 } := by
  simp [Progress.track, closes, opens_not_closes closes]

/-- The three rules of the header: a lambda, a colon, anything else. -/
theorem step_in_header (header : scan.state = .inParameters)
    (significant : token.isInsignificant = false) :
    step scan token =
      if token.kind = .name ∧ token.text = lambdaWord then onLambda scan token
      else if token.kind = .colon then onHeaderColon scan token
      else onParameterToken scan token := by
  obtain ⟨state, aux⟩ := scan
  obtain ⟨kind, text, span⟩ := token
  cases header
  cases kind with
  | name => simp [step, significant]
  | _ => first | rfl | cases significant

theorem step_in_body (body : scan.state = .inBody) (significant : token.isInsignificant = false) :
    step scan token = onBodyToken scan token := by
  obtain ⟨state, aux⟩ := scan
  cases body
  rw [step, significant, if_neg (by decide)]

theorem body_goes_on (known : scan.aux.bodyOpen ≠ none)
    (deep : 0 < (scan.aux.track token).depth) :
    onBodyToken scan token = (none, ⟨scan.state, scan.aux.track token⟩) := by
  have started : ¬ (scan.aux.depth = 1 ∧ scan.aux.bodyOpen = none) := fun both => known both.2
  simp only [onBodyToken, started, false_and, if_false, if_pos deep, goOn]

theorem parameters_go_on (started : ¬ (scan.aux.depth = 1 ∧ scan.aux.openLambdas = 0))
    (deep : 0 < (scan.aux.track token).depth) :
    onParameterToken scan token = (none, ⟨scan.state, scan.aux.track token⟩) := by
  simp only [onParameterToken, if_neg started, if_neg (Nat.pos_iff_ne_zero.mp deep), goOn]

/-- Inside brackets of a candidate any token only counts brackets, as long as one stays open. -/
theorem step_inside (inside : Inside scan) (deep : 0 < (scan.aux.track token).depth) :
    step scan token = (none, ⟨scan.state, scan.aux.track token⟩) := by
  cases blank : token.isInsignificant with
  | true => rw [step, blank, if_pos rfl, track_plain (insignificant_is_plain blank)]
  | false =>
    rcases inside with ⟨body, known, -⟩ | ⟨header, nested⟩
    · rw [step_in_body body blank, body_goes_on known deep]
    · have inner : ¬ scan.aux.depth = 1 := by omega
      rw [step_in_header header blank]
      split
      · next word => rw [onLambda, if_neg inner, goOn, track_plain (plain_of_name word.1)]
      · split
        · next colon => rw [onHeaderColon, if_pos inner, goOn, track_plain (plain_of_colon colon)]
        · exact parameters_go_on (fun both => inner both.1) deep

private theorem inside_deeper (inside : Inside scan) (more : scan.aux.depth ≤ depth) :
    Inside (atDepth scan depth) := by
  rcases inside with ⟨body, known, positive⟩ | ⟨header, nested⟩
  · exact .inl ⟨body, known, Nat.le_trans positive more⟩
  · exact .inr ⟨header, Nat.le_trans nested more⟩

private theorem inside_positive (inside : Inside scan) : 0 < scan.aux.depth := by
  rcases inside with ⟨-, -, positive⟩ | ⟨-, nested⟩ <;> omega

/-- Tokens whose brackets match leave the inside of a candidate as it was. -/
theorem run_matched (matched : Matched tokens) (inside : Inside scan) :
    run scan tokens = ([], scan) := by
  induction matched generalizing scan with
  | nil => rfl
  | plain one _ ih =>
    rw [run, step_inside inside (by rw [track_plain one]; exact inside_positive inside),
      track_plain one, ih inside]
    rfl
  | @brackets inner tokens first last opens _ closes _ inner_ih rest_ih =>
    have entered : step scan first = (none, atDepth scan (scan.aux.depth + 1)) := by
      rw [step_inside inside (by rw [track_open opens]; exact Nat.succ_pos _), track_open opens]
      rfl
    have deeper := inside_deeper inside (Nat.le_succ scan.aux.depth)
    have left : step (atDepth scan (scan.aux.depth + 1)) last = (none, scan) := by
      rw [step_inside deeper (by rw [track_close closes]; exact inside_positive inside),
        track_close closes]
      rfl
    rw [run, entered, run_append, inner_ih deeper, run, left, rest_ih inside]
    rfl

private theorem step_plain_in_header (header : InHeader scan) (plain : IsPlain token)
    (other : token.kind ≠ .colon) (word : ¬ (token.kind = .name ∧ token.text = lambdaWord)) :
    step scan token = (none, scan) := by
  obtain ⟨state, positive, counted⟩ := header
  cases blank : token.isInsignificant with
  | true => rw [step, blank, if_pos rfl]
  | false =>
    rw [step_in_header state blank, if_neg word, if_neg other,
      parameters_go_on (by omega) (by rw [track_plain plain]; exact positive), track_plain plain]

/-- The pass with another number of lambdas whose colon is still to come. -/
def withLambdas (scan : Scan) (count : Nat) : Scan :=
  { scan with aux := { scan.aux with openLambdas := count } }

theorem step_lambda_at_one (header : scan.state = .inParameters)
    (first : scan.aux.depth = 1) (name : token.kind = .name) (word : token.text = lambdaWord) :
    step scan token = (none, withLambdas scan (scan.aux.openLambdas + 1)) := by
  have significant : token.isInsignificant = false := by
    rw [Token.isInsignificant, name]
    rfl
  rw [step_in_header header significant, if_pos ⟨name, word⟩, onLambda, if_pos first]
  rfl

theorem step_colon_at_one (header : scan.state = .inParameters)
    (first : scan.aux.depth = 1) (counted : scan.aux.openLambdas = count + 1)
    (colon : token.kind = .colon) :
    step scan token =
      (none, ⟨if count = 0 then .inBody else .inParameters, (withLambdas scan count).aux⟩) := by
  have significant : token.isInsignificant = false := by
    rw [Token.isInsignificant, colon]
    rfl
  rw [step_in_header header significant, if_neg (by simp [colon]), if_pos colon, onHeaderColon,
    if_neg (by simp [first]), if_neg (by omega)]
  simp only [counted, Nat.add_sub_cancel, goOn, withLambdas, header]

/-- Tokens that may stand in the header of a lambda leave the pass in that header. -/
theorem run_header (tokens : Header list) (header : InHeader scan) :
    run scan list = ([], scan) := by
  induction tokens generalizing scan with
  | nil => rfl
  | plain one other word _ ih =>
    rw [run, step_plain_in_header header one other word, ih header]
    rfl
  | @brackets inner tokens first last opens inside closes _ ih =>
    obtain ⟨state, positive, counted⟩ := header
    have entered : step scan first = (none, atDepth scan (scan.aux.depth + 1)) := by
      have plainly : ¬ (first.kind = .name ∧ first.text = lambdaWord) := by
        intro both
        rw [both.1] at opens
        cases opens
      have other : ¬ first.kind = .colon := by
        intro colon
        rw [colon] at opens
        cases opens
      rw [step_in_header state (significant_of_open opens), if_neg plainly, if_neg other,
        parameters_go_on (by omega) (by rw [track_open opens]; exact Nat.succ_pos _),
        track_open opens]
      rfl
    have deeper : Inside (atDepth scan (scan.aux.depth + 1)) := .inr ⟨state, by
      simp only [atDepth]; omega⟩
    have left : step (atDepth scan (scan.aux.depth + 1)) last = (none, scan) := by
      rw [step_inside deeper (by rw [track_close closes]; exact positive), track_close closes]
      rfl
    rw [run, entered, run_append, run_matched inside deeper, run, left,
      ih ⟨state, positive, counted⟩]
    rfl
  | @lambda inner tokens first last name word inside colon _ inner_ih rest_ih =>
    obtain ⟨state, positive, counted⟩ := header
    rcases Nat.eq_or_lt_of_le positive with one | more
    · -- At the level of the call's own parenthesis the lambda is counted, and its colon uncounts it.
      have entered := step_lambda_at_one state one.symm name word
      have within : InHeader (withLambdas scan (scan.aux.openLambdas + 1)) :=
        ⟨state, positive, Nat.le_add_left _ _⟩
      have left : step (withLambdas scan (scan.aux.openLambdas + 1)) last = (none, scan) := by
        have more : (withLambdas scan (scan.aux.openLambdas + 1)).aux.openLambdas =
            scan.aux.openLambdas + 1 := rfl
        rw [step_colon_at_one within.1 one.symm more colon, if_neg (by omega), ← state]
        rfl
      rw [run, entered, run_append, inner_ih within, run, left, rest_ih ⟨state, positive, counted⟩]
      rfl
    · -- Inside brackets neither the lambda nor its colon is counted.
      have deep : Inside scan := .inr ⟨state, more⟩
      have matched : Matched (first :: (inner ++ last :: tokens)) :=
        .plain (plain_of_name name)
          (inside.matched.append (.plain (plain_of_colon colon) (Header.matched ‹_›)))
      exact run_matched matched deep

end Steps

end LambdaLayout.Region
