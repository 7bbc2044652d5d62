import LambdaLayout.Proofs.ReadOperands
import LambdaLayout.Python.Parameter

/-!
Type annotations, parameters and lambdas. The parameters of a lambda have no types, so a colon
outside of brackets among them closes the header of a lambda further in, and the whole lambda may
stand in the header of another one. Parameters of functions are only known to have matching
brackets, and not even that where the closing parenthesis was taken to be missing.
-/

namespace LambdaLayout.Python

open LambdaLayout.Region (Header)
open LambdaLayout.Python.Tree
open LambdaLayout.Python.Parser

section

variable {source : Text} {grammar : Grammar} {state : ParseState}

theorem Obeys.typeHint (obeys : Obeys source grammar) (valid : state.Valid source) (after : After)
    (constrained : Bool) :
    Gives (grammar (.typeHint after constrained)) state (Single source .matched state.offset) :=
  obeys _ state valid

theorem typeParameters_gives (obeys : Obeys source grammar) (valid : state.Valid source) :
    Gives (typeParameters grammar) state (Single source .header state.offset) := by
  refine (sign_gives valid _).bind fun opened next first => ?_
  refine (obeys.typeHint first.whole.valid _ _).bind fun type now second => ?_
  exact listed_gives squares (fun _ valid => obeys.typeHint valid _ _) first second _ (by decide)

theorem splatType_gives (valid : state.Valid source) {star : String} (inert : isInert star = true)
    (after : After) : Gives (splatType star after) state (Single source .header state.offset) := by
  refine (inert_sign_gives valid inert).bind fun mark next first => ?_
  refine (identifier_gives first.whole.valid).bind fun name now second => ?_
  have began := first.whole.append second.single.whole.1
  refine (atSign_gives began.valid _ _).bind fun bracket last seen => ?_
  split
  · exact .failure
  · exact .pure ((began.stays seen.1).node _ (by decide) nofun)

theorem genericType_gives (obeys : Obeys source grammar) (valid : state.Valid source)
    (after : After) : Gives (genericType grammar after) state (Single source .header state.offset) := by
  refine (identifier_gives valid).bind fun name next first => ?_
  have began := first.single.whole
  refine (atSign_gives began.valid _ _).bind fun bracket now seen => ?_
  have began := began.stays seen.1
  split
  · refine (typeParameters_gives obeys began.valid).bind fun given last second => .pure ?_
    exact (began.append second.whole.1).node _ (by decide) nofun
  · exact .failure

theorem typeHint_gives (obeys : Obeys source grammar) (valid : state.Valid source) (after : After)
    (constrained : Bool) :
    Gives (typeHint grammar after constrained) state (Single source .matched state.offset) := by
  delta typeHint
  extract_lets first
  have whole : Gives first state (Single source .header state.offset) := by
    refine (peekLexeme_gives valid _).bind fun lexeme next seen => ?_
    rw [← seen.1.offset]
    have valid := seen.1.valid
    split
    · exact (splatType_gives valid (by decide) after).orElse (obeys.expression valid _ _)
    · exact splatType_gives valid (by decide) after
    · exact (genericType_gives obeys valid after).orElse (obeys.expression valid _ _)
    · exact obeys.expression valid _ _
  refine whole.bind fun first next began => ?_
  have typed : ∀ {pieces : Pieces} {now : ParseState} (kind : String),
      (constructs ++ atoms).contains kind = false →
      Whole source .matched state.offset pieces now →
      Single source .matched state.offset (Pieces.node "type" (Pieces.node kind pieces)) now :=
    fun kind free whole => (whole.node kind free nofun).whole.node _ (by decide) nofun
  refine Gives.extend (Single source .matched state.offset)
    (began.of_header.whole.node _ (by decide) nofun) fun left now first => ?_
  refine (peekLexeme_gives first.whole.valid _).bind fun lexeme now seen => ?_
  have first := first.stays seen.1
  split
  · refine (inert_sign_gives first.whole.valid (by decide)).bind fun mark _ second => ?_
    have began := first.whole.append second.whole.1.of_header
    refine (obeys.typeHint began.valid _ _).bind fun right _ third => .pure ?_
    exact typed _ (by decide) (began.append third.whole.1)
  · refine (inert_sign_gives first.whole.valid (by decide)).bind fun dot _ second => ?_
    have began := first.whole.append second.whole.1.of_header
    refine (identifier_gives began.valid).bind fun name _ third => .pure ?_
    exact typed _ (by decide) (began.append third.single.whole.1.of_header)
  · split
    · refine (sign_gives first.whole.valid _).bind fun colon _ second => ?_
      have began := first.whole.append second.colon.whole.1
      refine (obeys.typeHint began.valid _ _).bind fun right _ third => .pure ?_
      exact typed _ (by decide) (began.append third.whole.1)
    · exact .pure first
  · exact .pure first

theorem defaultValue_gives (obeys : Obeys source grammar) (valid : state.Valid source)
    (after : After) : Gives (defaultValue grammar after) state (Reach source .header state.offset) := by
  refine (atSign_gives valid _ _).bind fun given next seen => ?_
  rw [← seen.1.offset]
  split
  · refine (inert_sign_gives seen.1.valid (by decide)).bind fun equals now first => ?_
    exact (obeys.expression first.whole.valid _ _).bind fun value last second =>
      .pure (first.whole.1.append second.whole.1)
  · exact .pure (.start seen.1.valid)

/-- What is known of parameters: those of a function may have types. -/
def gradeOf (typed : Bool) : Grade := if typed then .matched else .header

/-- A type after what was read, and whatever follows it. -/
private theorem typed_gives (obeys : Obeys source grammar) {offset : Nat} {pieces : Pieces}
    (whole : Whole source .matched offset pieces state) (after : After)
    {rest : Pieces → Pieces → Parser Pieces} {post : Pieces → ParseState → Prop}
    (goes : ∀ colon type next, Whole source .matched offset (pieces ++ colon ++ type) next →
      Gives (rest colon type) next post) :
    Gives (do
      let colon ← sign ":"
      let type ← grammar (.typeHint after true)
      rest colon type : Parser Pieces) state post := by
  refine (sign_gives whole.valid _).bind fun colon next second => ?_
  have began := whole.append second.colon.whole.1
  exact (obeys.typeHint began.valid _ _).bind fun type last third =>
    goes colon type last (began.append third.whole.1)

theorem starredParameter_gives (obeys : Obeys source grammar) (valid : state.Valid source)
    {star : String} (inert : isInert star = true) {kind : String}
    (free : (constructs ++ atoms).contains kind = false) (typed : Bool) (after : After) :
    Gives (starredParameter grammar star kind typed after) state
      (Single source (gradeOf typed) state.offset) := by
  refine (inert_sign_gives valid inert).bind fun mark next first => ?_
  refine (obeys (.operand after) next first.whole.valid).bind fun name now second => ?_
  have began := (first.whole.append second.whole.1).node kind free nofun
  split
  · exact .failure
  · refine (atSign_gives began.whole.valid _ _).bind fun colon now seen => ?_
    have began := began.stays seen.1
    split
    · next is =>
      rw [(Bool.and_eq_true_iff.mp is).1]
      exact typed_gives obeys began.of_header.whole after fun _ _ _ whole =>
        .pure (whole.node _ (by decide) nofun)
    · exact .pure began.of_header

/-- A sign that makes a leaf with a name. -/
theorem separator_gives {kind sign : String} (valid : state.Valid source)
    (sees : state.Sees (.sign sign)) (free : (constructs ++ atoms).contains kind = false)
    (inert : isInert sign = true) (fresh : sign.toList.head? ≠ some '\n') :
    Gives (leaf kind true) state (Single source .header state.offset) := by
  refine named_leaf_gives valid sees rfl free fun text covers => ?_
  rw [covers.1]
  exact ⟨.of_text (by simpa [isInert] using inert), fresh⟩

theorem parameter_gives (obeys : Obeys source grammar) (typed : Bool) (after : After)
    (state : ParseState) (valid : state.Valid source) :
    Gives (parameter grammar typed after) state (Whole source (gradeOf typed) state.offset) := by
  refine (peekLexeme_gives valid _).bind fun lexeme next seen => ?_
  rw [← seen.1.offset]
  have valid := seen.1.valid
  have sees := seen.2.1
  split
  · exact (separator_gives valid sees (by decide) (by decide) (by decide)).mono
      fun _ _ single => single.whole.of_header
  · exact (starredParameter_gives obeys valid (by decide) (by decide) typed after).mono
      fun _ _ single => single.whole
  · refine .orElse ?_ ((starredParameter_gives obeys valid (by decide) (by decide) typed
      after).mono fun _ _ single => single.whole)
    refine (separator_gives valid sees (by decide) (by decide) (by decide)).bind
      fun star now first => ?_
    refine (peekLexeme_gives first.whole.valid _).bind fun lexeme now seen => ?_
    split
    · split
      · exact .pure (first.whole.of_header.stays seen.1)
      · exact .failure
    · exact .failure
  · refine (parenthesised_gives obeys valid).bind fun read now first => ?_
    split
    · exact .failure
    · next pattern found =>
      obtain ⟨reach, solid⟩ := first.whole.1.asTargets found
      have began : Whole source .header next.offset pattern now :=
        ⟨reach, by rw [solid, first.whole.2]⟩
      refine (defaultValue_gives obeys began.valid after).bind fun value last second => .pure ?_
      split
      · next none =>
        rw [List.isEmpty_iff.mp none] at second
        have whole := began.append second
        rw [List.append_nil] at whole
        exact whole.of_header
      · exact ((began.append second).node _ (by decide) nofun).whole.of_header
  · refine (identifier_gives valid).bind fun name now first => ?_
    have began := first.single.whole
    refine (atSign_gives began.valid _ _).bind fun colon now seen => ?_
    have began := began.stays seen.1
    split
    · next is =>
      rw [(Bool.and_eq_true_iff.mp is).1]
      refine typed_gives obeys began.of_header after fun _ _ _ whole => ?_
      refine (defaultValue_gives obeys whole.valid after).bind fun value last second => .pure ?_
      have whole := whole.append second.of_header
      split
      · exact (whole.node _ (by decide) nofun).whole
      · exact (whole.node _ (by decide) nofun).whole
    · refine (defaultValue_gives obeys began.valid after).bind fun value last second => .pure ?_
      have whole := began.append second
      split
      · next none =>
        rw [List.isEmpty_iff.mp none, List.append_nil] at whole
        exact whole.of_header
      · exact (whole.node _ (by decide) nofun).whole.of_header

theorem parameterList_gives (obeys : Obeys source grammar) (typed : Bool) (after : After)
    (closing : String) (valid : state.Valid source) :
    Gives (parameterList grammar typed after closing) state
      (Whole source (gradeOf typed) state.offset) := by
  refine (parameter_gives obeys typed after state valid).bind fun first next began => ?_
  refine Gives.extend _ began fun pieces now whole => ?_
  refine (atSign_gives whole.valid _ _).bind fun comma now seen => ?_
  have whole := whole.stays seen.1
  split
  · refine (inert_sign_gives whole.valid (by decide)).bind fun comma now second => ?_
    have whole := whole.append second.whole.1.of_header
    refine (atSign_gives whole.valid _ _).bind fun ends now seen => ?_
    have whole := whole.stays seen.1
    split
    · exact .pure whole
    · exact (parameter_gives obeys typed after _ whole.valid).bind fun more last third =>
        .pure (whole.append third.1)
  · exact .pure whole

theorem parameters_gives (obeys : Obeys source grammar) (valid : state.Valid source) :
    Gives (parameters grammar) state (Single source .matched state.offset) := by
  have shuts : ∀ {inner shut opened : Pieces} {first middle last : ParseState},
      Reads source .loose "(" state.offset opened first →
      Reach source .matched first.offset inner middle →
      Reads source .loose ")" middle.offset shut last →
      Single source .matched state.offset (Pieces.node "parameters" (opened ++ inner ++ shut))
        last :=
    fun opens between ends => (Whole.bracketed rounds opens between ends).of_header.node _
      (by decide) nofun
  refine (sign_gives valid _).bind fun opened next first => ?_
  refine (atSign_gives first.whole.valid _ _).bind fun empty now seen => ?_
  have first := first.stays seen.1
  split
  · refine (sign_gives first.whole.valid _).bind fun shut last ends => .pure ?_
    have single := shuts first (.start first.whole.valid) ends
    rwa [List.append_nil] at single
  · refine (parameterList_gives obeys true _ _ first.whole.valid).bind fun inner middle second => ?_
    exact (sign_gives second.valid _).bind fun shut last ends => .pure (shuts first second.1 ends)

/-- The tokens of a single tree may stand in a header without the comments before it. -/
theorem One.header {offset : Nat} {pieces : Pieces} {tree : Tree}
    (one : One source .header offset pieces tree state) : Header (tree.tokens source) := by
  obtain ⟨lead, split, skipped⟩ := one.lead
  have fits := one.fits
  rw [split, Pieces.trees_append, Pieces.trees_map] at fits
  have alone : Grade.header.Fits source [tree] := by
    refine Grade.fits_drop (fun extra mem => ?_) fits
    obtain ⟨sits, clean⟩ := one.laid.clean extra (by rw [split]; simp [mem])
    exact ⟨sits, skipped extra mem, clean (skipped extra mem)⟩
  rwa [Grade.Fits, tokensOf_cons, tokensOf_nil, List.append_nil] at alone

/-- A lambda up to its colon closes the header it opens. -/
theorem lambda_reach {offset : Nat} {word given colon value : Pieces}
    {second third next : ParseState} (first : Reads source .loose "lambda" offset word state)
    (between : Reach source .header state.offset given second)
    (ends : Reads source .loose ":" second.offset colon third)
    (last : Reach source .header third.offset value next) :
    Reach source .header offset (word ++ (given ++ (colon ++ value))) next := by
  obtain ⟨name, one, opens⟩ := first
  obtain ⟨sign, two, closes⟩ := ends
  refine ⟨last.valid, one.laid.append (between.laid.append (two.laid.append last.laid)), ?_, ?_⟩
  rotate_left
  · rw [Pieces.trees_append, Pieces.trees_append, Pieces.trees_append]
    exact (one.ends_leaf opens.closed).append
      (between.ends.append ((two.ends_leaf closes.closed).append last.ends))
  obtain ⟨lead, split, skipped⟩ := one.lead
  obtain ⟨trail, ending, passed⟩ := two.lead
  have extras : Grade.header.Fits source lead := Grade.fits_extras
    (fun tree mem => (one.laid.clean tree (by rw [split]; simp [mem])).1) skipped
  have inner := Grade.fits_append between.fits (Grade.fits_extras
    (fun tree mem => (two.laid.clean tree (by rw [ending]; simp [mem])).1) passed)
  have opening := (opens.tokens one.sits (by decide) (by decide)).1
  have closing := (closes.tokens two.sits (by decide) (by decide)).1
  have lambda : Grade.header.Fits source (name :: ((given.trees ++ trail) ++ sign :: value.trees)) := by
    rw [Grade.Fits, tokensOf_cons, opening, tokensOf_append, tokensOf_cons, closing,
      List.singleton_append, List.singleton_append]
    exact .lambda (by rw [opens.token_kind one.sits]; rfl) (opens.text one.sits) inner
      (by rw [closes.token_kind two.sits]; rfl) last.fits
  have all := Grade.fits_append extras lambda
  rw [split, ending]
  simpa using all

/-- The parameters of a lambda, or nothing. -/
private def Bound (source : Text) (offset : Nat) (pieces : Pieces) (next : ParseState) : Prop :=
  (pieces = [] ∧ Reach source .header offset pieces next) ∨
    ∃ tree, One source .header offset pieces tree next ∧ tree.label.role = some "parameters"

/-- A lambda after its word and parameters. -/
private theorem lambda_rest {word given : Pieces} {offset : Nat} {middle : ParseState} {body : Rule}
    (reads : ∀ now : ParseState, now.Valid source →
      Gives (grammar body) now (Single source .header now.offset))
    (first : Reads source .loose "lambda" offset word state)
    (between : Bound source state.offset given middle) :
    Gives (do
      let colon ← sign ":"
      let value ← grammar body
      return Pieces.node "lambda" (word ++ given ++ colon ++ Pieces.role "body" value) :
        Parser Pieces) middle (Single source .header offset) := by
  have inner : Reach source .header state.offset given middle := by
    rcases between with ⟨-, reach⟩ | ⟨tree, one, -⟩
    · exact reach
    · exact one.toReach
  refine (sign_gives inner.valid _).bind fun colon next ends => ?_
  refine (reads next ends.whole.valid).bind fun value last single => .pure ?_
  have reach := lambda_reach first inner ends (single.role "body").whole.1
  obtain ⟨name, one, opens⟩ := first
  obtain ⟨sign, two, closes⟩ := ends
  obtain ⟨result, three, -⟩ := single
  have three := three.role "body"
  have ending : Row [sign, result.withRole "body"]
      (colon.trees ++ ((Pieces.role "body" value).trees ++ [])) := two.row (three.row .nil)
  have construct : Construct source name.span.startByte "lambda"
      (name :: (given ++ (colon ++ Pieces.role "body" value)).trees) := by
    rw [List.append_nil, ← Pieces.trees_append] at ending
    rcases between with ⟨rfl, -⟩ | ⟨tree, given, role⟩
    · exact .thunk rfl (.part one.solid ending) opens closes (role_of _ _).1
    · rw [Pieces.trees_append]
      exact .lambda rfl (.part one.solid (given.row ending)) opens role given.header closes
        (role_of _ _).1
  rw [List.append_assoc, List.append_assoc]
  exact (one.construct reach nofun (by decide) construct).single

/-- A lambda is a single tree if its body is. -/
theorem lambda_gives (obeys : Obeys source grammar) (valid : state.Valid source) {body : Rule}
    (reads : ∀ now : ParseState, now.Valid source →
      Gives (grammar body) now (Single source .header now.offset)) :
    Gives (lambda grammar body) state (Single source .header state.offset) := by
  refine (keyword_gives valid (by decide)).bind fun word next first => ?_
  refine (atSign_gives first.whole.valid _ _).bind fun bare now seen => ?_
  have first := first.stays seen.1
  extract_lets rest
  split
  · have none : Bound source now.offset [] now := .inl ⟨rfl, .start first.whole.valid⟩
    exact (Gives.pure none).bind fun given middle between => lambda_rest reads first between
  · refine (parameterList_gives obeys false _ _ first.whole.valid).bind fun inner last whole => ?_
    have some : Bound source now.offset
        (Pieces.role "parameters" (Pieces.node "lambda_parameters" inner)) last := by
      obtain ⟨tree, one, -⟩ := whole.node "lambda_parameters" (by decide) nofun
      exact .inr ⟨_, one.role "parameters", (role_of _ _).1⟩
    exact (Gives.pure some).bind fun given middle between => lambda_rest reads first between

end

end LambdaLayout.Python
