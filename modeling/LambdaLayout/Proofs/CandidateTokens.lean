import Mathlib.Data.List.Infix
import LambdaLayout.Proofs.RegionFound

/-!
Candidates as tokens, without the pass that finds them. Brackets of all kinds are counted alike. A
lambda, and the colon that belongs to it, count only where the parenthesis of the call is the one
bracket that is open. A candidate is the keyword, possibly with a name after a dot, a parenthesis, a
lambda with its parameters up to the colon that leaves no lambda waiting, and a list, up to the
first token that closes as many brackets as were opened.
-/

namespace LambdaLayout.Region

/-- How many brackets the tokens open. -/
def openings (tokens : List Token) : Nat := tokens.countP fun token => token.kind.opens

/-- How many brackets the tokens close. -/
def closings (tokens : List Token) : Nat := tokens.countP fun token => token.kind.closes

/-- The tokens that are reached while no bracket is open, if so many are open at the start. -/
def outer (depth : Nat) : List Token → List Token
  | [] => []
  | token :: rest =>
    if depth = 0 then token :: outer (depthAfter token depth) rest
    else outer (depthAfter token depth) rest

instance (keyword : Text) (token : Token) : Decidable (IsKeyword keyword token) :=
  inferInstanceAs (Decidable (_ ∧ _))

/-- How many lambdas stand among the tokens in no brackets. -/
def lambdas (tokens : List Token) : Nat :=
  (outer 0 tokens).countP fun token => IsKeyword lambdaWord token

/-- How many colons stand among the tokens in no brackets. -/
def colons (tokens : List Token) : Nat :=
  (outer 0 tokens).countP fun token => token.kind == .colon

/-- No front part of the tokens closes more brackets than it opens. -/
def Enclosed (tokens : List Token) : Prop :=
  ∀ front, front <+: tokens → closings front ≤ openings front

/-- No front part of the tokens has, in no brackets, more colons than lambdas. -/
def Pending (tokens : List Token) : Prop :=
  ∀ front, front <+: tokens → colons front ≤ lambdas front

instance (tokens : List Token) : Decidable (Enclosed tokens) :=
  decidable_of_iff (∀ front ∈ tokens.inits, closings front ≤ openings front)
    (forall_congr' fun front => by rw [List.mem_inits])

instance (tokens : List Token) : Decidable (Pending tokens) :=
  decidable_of_iff (∀ front ∈ tokens.inits, colons front ≤ lambdas front)
    (forall_congr' fun front => by rw [List.mem_inits])

/-- A lambda with its parameters up to the colon of its own: only there no lambda is left that waits
for a colon, and no bracket that was opened meanwhile is open any more. -/
structure IsHeader (lambda : Token) (parameters : List Token) (colon : Token) : Prop where
  isLambda : IsKeyword lambdaWord lambda
  pending : Pending parameters
  settled : colons parameters = lambdas parameters
  level : closings parameters = openings parameters
  isColon : colon.kind = .colon

/-- The tokens of a complete candidate. -/
structure Candidate (keyword : Text) where
  callee : Callee keyword
  openParen : Token
  lambda : Token
  parameters : List Token
  colon : Token
  openBracket : Token
  body : List Token
  closeParen : Token
  opens : openParen.kind = .openParen
  header : IsHeader lambda parameters colon
  isList : openBracket.kind = .openBracket
  /-- Before the last token the parenthesis of the call is always open. -/
  enclosed : Enclosed (lambda :: (parameters ++ colon :: openBracket :: body))
  /-- At the last token nothing else is. -/
  balanced : closings (lambda :: (parameters ++ colon :: openBracket :: body)) =
    openings (lambda :: (parameters ++ colon :: openBracket :: body))
  closes : closeParen.kind = .closeParen

namespace Candidate

variable {keyword : Text} (candidate : Candidate keyword)

/-- What stands between the parentheses of the call. -/
def argument : List Token :=
  candidate.lambda :: (candidate.parameters ++ candidate.colon :: candidate.openBracket ::
    candidate.body)

/-- All the tokens in order. -/
def list : List Token :=
  candidate.callee.tokens ++ candidate.openParen :: (candidate.argument ++ [candidate.closeParen])

/-- The offsets of the candidate. -/
def region : Region :=
  ⟨candidate.callee.word.span.startByte, candidate.openParen.span.startByte,
    candidate.openBracket.span.startByte, candidate.closeParen.span.startByte⟩

theorem first_mem : candidate.callee.word ∈ candidate.list := by
  rw [list, Callee.tokens]
  cases candidate.callee.label <;> simp

theorem last_mem : candidate.closeParen ∈ candidate.list := by simp [list]

/-- The tokens at the offsets of the candidate come in this order. -/
theorem corners :
    [candidate.callee.word, candidate.openParen, candidate.openBracket, candidate.closeParen].Sublist
      candidate.list := by
  have word : [candidate.callee.word].Sublist candidate.callee.tokens := by
    rw [Callee.tokens]
    cases candidate.callee.label <;> simp
  have list : [candidate.openBracket].Sublist candidate.argument := by simp [argument]
  exact word.append ((list.append (List.Sublist.refl [candidate.closeParen])).cons_cons _)

end Candidate

section Counting

variable {token : Token} {tokens part : List Token} {depth : Nat}

theorem openings_append (left right : List Token) :
    openings (left ++ right) = openings left + openings right := List.countP_append

theorem closings_append (left right : List Token) :
    closings (left ++ right) = closings left + closings right := List.countP_append

theorem openings_cons (token : Token) (tokens : List Token) :
    openings (token :: tokens) = openings [token] + openings tokens :=
  openings_append [token] tokens

theorem closings_cons (token : Token) (tokens : List Token) :
    closings (token :: tokens) = closings [token] + closings tokens :=
  closings_append [token] tokens

theorem counts_plain (plain : IsPlain token) : openings [token] = 0 ∧ closings [token] = 0 := by
  simp [openings, closings, plain.1, plain.2]

theorem counts_open (opens : token.kind.opens = true) :
    openings [token] = 1 ∧ closings [token] = 0 := by
  have other : token.kind.closes = false := by
    cases closes : token.kind.closes with
    | false => rfl
    | true => rw [opens_not_closes closes] at opens; cases opens
  simp [openings, closings, opens, other]

theorem counts_close (closes : token.kind.closes = true) :
    openings [token] = 0 ∧ closings [token] = 1 := by
  simp [openings, closings, opens_not_closes closes, closes]

/-- A token opens one bracket, or closes one, or does neither. -/
theorem counts_cases (token : Token) :
    (openings [token] = 0 ∧ closings [token] = 0 ∧ ∀ depth, depthAfter token depth = depth) ∨
    (openings [token] = 1 ∧ closings [token] = 0 ∧ ∀ depth, depthAfter token depth = depth + 1) ∨
    (token.kind.closes = true ∧ openings [token] = 0 ∧ closings [token] = 1 ∧
      ∀ depth, depthAfter token depth = depth - 1) := by
  cases opens : token.kind.opens with
  | true =>
    obtain ⟨more, less⟩ := counts_open opens
    exact .inr (.inl ⟨more, less, fun depth => by simp [depthAfter, opens]⟩)
  | false =>
    cases closes : token.kind.closes with
    | true =>
      obtain ⟨more, less⟩ := counts_close closes
      exact .inr (.inr ⟨rfl, more, less, fun depth => by simp [depthAfter, opens, closes]⟩)
    | false =>
      obtain ⟨more, less⟩ := counts_plain ⟨opens, closes⟩
      exact .inl ⟨more, less, fun depth => by simp [depthAfter, opens, closes]⟩

/-- The last token is reached in no brackets exactly if as many were closed as were open. -/
private theorem outer_concat (enclosed : ∀ front, front <+: tokens →
    closings front ≤ depth + openings front) :
    outer depth (tokens ++ [token]) =
      outer depth tokens ++ if closings tokens = depth + openings tokens then [token] else [] := by
  induction tokens generalizing depth with
  | nil =>
    by_cases none : depth = 0
    · simp [outer, none, closings, openings]
    · simp [outer, none, closings, openings, Ne.symm none]
  | cons first rest ih =>
    have counted : depthAfter first depth + closings [first] = depth + openings [first] := by
      have one := enclosed [first] ⟨rest, rfl⟩
      rcases counts_cases first with
        ⟨more, less, after⟩ | ⟨more, less, after⟩ | ⟨-, more, less, after⟩
      · rw [after, more, less]
      · rw [after, more, less]
      · rw [after, more, less]
        omega
    have later : ∀ front, front <+: rest →
        closings front ≤ depthAfter first depth + openings front := by
      intro front begins
      have whole := enclosed (first :: front) (List.cons_prefix_cons.mpr ⟨rfl, begins⟩)
      rw [closings_cons, openings_cons] at whole
      omega
    have same : closings (first :: rest) = depth + openings (first :: rest) ↔
        closings rest = depthAfter first depth + openings rest := by
      rw [closings_cons, openings_cons]
      omega
    simp only [List.cons_append, outer, ih later, same]
    split <;> rfl

theorem lambdas_concat (token : Token) (enclosed : Enclosed tokens) : lambdas (tokens ++ [token]) =
    lambdas tokens +
      if closings tokens = openings tokens ∧ IsKeyword lambdaWord token then 1 else 0 := by
  have inside : ∀ front, front <+: tokens → closings front ≤ 0 + openings front := by
    simpa [Enclosed] using enclosed
  rw [lambdas, outer_concat inside, List.countP_append, Nat.zero_add]
  by_cases out : closings tokens = openings tokens
  · simp [lambdas, out, List.countP_singleton]
  · simp [lambdas, out]

theorem colons_concat (token : Token) (enclosed : Enclosed tokens) : colons (tokens ++ [token]) =
    colons tokens + if closings tokens = openings tokens ∧ token.kind = .colon then 1 else 0 := by
  have inside : ∀ front, front <+: tokens → closings front ≤ 0 + openings front := by
    simpa [Enclosed] using enclosed
  rw [colons, outer_concat inside, List.countP_append, Nat.zero_add]
  by_cases out : closings tokens = openings tokens
  · simp [colons, out, List.countP_singleton]
  · simp [colons, out]

theorem Enclosed.front (enclosed : Enclosed tokens) (begins : part <+: tokens) : Enclosed part :=
  fun front first => enclosed front (first.trans begins)

theorem Pending.front (pending : Pending tokens) (begins : part <+: tokens) : Pending part :=
  fun front first => pending front (first.trans begins)

theorem enclosed_nil : Enclosed [] := by
  intro front begins
  rw [List.prefix_nil.mp begins]
  exact Nat.le_refl _

theorem pending_nil : Pending [] := by
  intro front begins
  rw [List.prefix_nil.mp begins]
  exact Nat.le_refl _

theorem Enclosed.concat (enclosed : Enclosed tokens)
    (whole : closings (tokens ++ [token]) ≤ openings (tokens ++ [token])) :
    Enclosed (tokens ++ [token]) := by
  intro front begins
  rcases List.prefix_concat_iff.mp begins with rfl | begins
  · exact whole
  · exact enclosed front begins

/-- The token that closes the last bracket cannot be one of those that leave the call open. -/
theorem not_enclosed_snoc (level : closings tokens = openings tokens)
    (closes : token.kind.closes = true) : ¬ Enclosed (tokens ++ [token]) := by
  intro enclosed
  have whole := enclosed _ (List.prefix_refl _)
  obtain ⟨more, less⟩ := counts_close closes
  rw [openings_append, closings_append, more, less] at whole
  omega

theorem Pending.concat (pending : Pending tokens)
    (whole : colons (tokens ++ [token]) ≤ lambdas (tokens ++ [token])) :
    Pending (tokens ++ [token]) := by
  intro front begins
  rcases List.prefix_concat_iff.mp begins with rfl | begins
  · exact whole
  · exact pending front begins

/-- A token at the front that is no bracket makes no difference. -/
theorem enclosed_cons (plain : IsPlain token) : Enclosed (token :: tokens) ↔ Enclosed tokens := by
  obtain ⟨more, less⟩ := counts_plain plain
  constructor
  · intro enclosed front begins
    have whole := enclosed (token :: front) (List.cons_prefix_cons.mpr ⟨rfl, begins⟩)
    rw [closings_cons, openings_cons] at whole
    omega
  · intro enclosed front begins
    cases front with
    | nil => exact Nat.le_refl _
    | cons first part =>
      obtain ⟨rfl, rest⟩ := List.cons_prefix_cons.mp begins
      have whole := enclosed part rest
      rw [closings_cons, openings_cons]
      omega

end Counting

end LambdaLayout.Region
