import LambdaLayout.Proofs.ReadTargets

/-!
Parsers step by step. What holds of every result of a parser is put together from what holds of the
results of its parts: after one another, as alternatives, and repeated as long as an invariant is
kept. The steps that consume a token give a single tree, which stands where the token stood.
-/

namespace LambdaLayout.Python

open LambdaLayout.Python.Tree

/-- The next token was asked for and is of the given kind. -/
def ParseState.Sees (state : ParseState) (lexeme : Lexeme) : Prop :=
  ∃ lexed, state.ahead = some lexed ∧ lexed.lexeme = lexeme

/-- Nothing was consumed. -/
structure Stays (source : Text) (state next : ParseState) : Prop where
  valid : next.Valid source
  reader : next.reader = state.reader
  ahead : ∀ lexed, state.ahead = some lexed → next.ahead = some lexed

theorem Stays.sees {source : Text} {state next : ParseState} {lexeme : Lexeme}
    (stays : Stays source state next) (sees : state.Sees lexeme) : next.Sees lexeme := by
  obtain ⟨lexed, ahead, is⟩ := sees
  exact ⟨lexed, stays.ahead lexed ahead, is⟩

theorem Stays.trans {source : Text} {state next last : ParseState} (first : Stays source state next)
    (second : Stays source next last) : Stays source state last :=
  ⟨second.valid, second.reader.trans first.reader, fun lexed ahead =>
    second.ahead lexed (first.ahead lexed ahead)⟩

theorem Stays.offset {source : Text} {state next : ParseState} (stays : Stays source state next) :
    next.offset = state.offset := by
  rw [ParseState.offset, stays.reader, ParseState.offset]

/-- Asking for a token changes nothing in what was read. -/
theorem Reach.stays {source : Text} {grade : Grade} {offset : Nat} {pieces : Pieces}
    {state next : ParseState} (reach : Reach source grade offset pieces state)
    (stays : Stays source state next) : Reach source grade offset pieces next :=
  ⟨stays.valid, stays.offset ▸ reach.laid, reach.fits, reach.ends⟩

theorem One.stays {source : Text} {grade : Grade} {offset : Nat} {pieces : Pieces} {tree : Tree}
    {state next : ParseState} (one : One source grade offset pieces tree state)
    (stays : Stays source state next) : One source grade offset pieces tree next :=
  ⟨one.toReach.stays stays, one.solid, one.heard, one.lead⟩

/-- A leaf that is neither a bracket nor a colon nor the word of a lambda. -/
structure Inert (kind : String) (text : Text) : Prop where
  opens : (TokenKind.ofLeaf kind text).opens = false
  closes : (TokenKind.ofLeaf kind text).closes = false
  colon : TokenKind.ofLeaf kind text ≠ .colon
  word : ¬ (TokenKind.ofLeaf kind text = .name ∧ text = Region.lambdaWord)

theorem Inert.of_text {kind : String} {text : Text} (other : text ∉ nestingTexts) :
    Inert kind text := by
  obtain ⟨opens, closes, colon⟩ := ofLeaf_plain kind other
  exact ⟨opens, closes, colon, fun word => other (by rw [word.2]; decide)⟩

/-- The text of a name is no bracket and no colon. -/
theorem Inert.of_word {kind word : String} {text : Text} (covers : (Lexeme.word word).Covers text)
    (other : word ≠ "lambda") : Inert kind text := by
  obtain ⟨is, c, rest, first, starts⟩ := covers
  refine .of_text fun nests => ?_
  simp only [nestingTexts, List.map_cons, List.map_nil, List.mem_cons, List.not_mem_nil,
    or_false] at nests
  rcases nests with same | same | same | same | same | same | same | same
  all_goals rw [same] at first
  case inr.inr.inr.inr.inr.inr.inr =>
    exact other (String.toList_injective (is.symm.trans same))
  all_goals
    have head : c = _ := (List.cons.inj first).1.symm
    rw [head] at starts
    exact absurd starts (by decide +kernel)

/-- A name does not start with a line break. -/
theorem fresh_of_word {word : String} {text : Text} (covers : (Lexeme.word word).Covers text) :
    text.head? ≠ some '\n' := by
  obtain ⟨-, c, rest, first, starts⟩ := covers
  rw [first]
  rintro ⟨⟩
  exact absurd starts (by decide +kernel)

/-- An inert leaf may stand in a header. -/
theorem Inert.fits {source : Text} {tree : Tree} (inert : Inert tree.kind (tree.text source))
    (leaf : tree.isClosed = true) : Grade.header.Fits source [tree] := by
  rw [Grade.Fits, tokensOf_cons, tokensOf_nil, List.append_nil, tokens_of_closed leaf]
  split
  · exact .nil
  · exact .plain ⟨inert.opens, inert.closes⟩ inert.colon inert.word .nil

namespace Parser

/-- The condition holds of every result of the parser in the state. -/
def Gives {α : Type} (parser : Parser α) (state : ParseState) (post : α → ParseState → Prop) :
    Prop :=
  ∀ value next, parser state = some (value, next) → post value next

section Combinators

variable {α β : Type} {state : ParseState} {post other : α → ParseState → Prop}

theorem Gives.pure {value : α} (holds : post value state) :
    Gives (pure value : Parser α) state post := by
  intro result next ran
  cases ran
  exact holds

theorem Gives.failure : Gives (failure : Parser α) state post := nofun

theorem Gives.mono {parser : Parser α} (gives : Gives parser state other)
    (weaker : ∀ value next, other value next → post value next) : Gives parser state post :=
  fun value next ran => weaker value next (gives value next ran)

theorem Gives.bind {parser : Parser α} {rest : α → Parser β} {final : β → ParseState → Prop}
    (first : Gives parser state post)
    (second : ∀ value next, post value next → Gives (rest value) next final) :
    Gives (parser >>= rest) state final := by
  intro result last ran
  obtain ⟨⟨value, next⟩, began, went⟩ := Option.bind_eq_some_iff.mp ran
  exact second value next (first value next began) result last went

theorem Gives.orElse {left right : Parser α} (first : Gives left state post)
    (second : Gives right state post) : Gives (left <|> right) state post := by
  intro value next ran
  cases tried : left state with
  | some result =>
    have same : (left <|> right) state = some result := by
      simp only [HOrElse.hOrElse, OrElse.orElse, Alternative.orElse, StateT.orElse, tried]
      rfl
    rw [same] at ran
    cases ran
    exact first value next tried
  | none =>
    have same : (left <|> right) state = right state := by
      simp only [HOrElse.hOrElse, OrElse.orElse, Alternative.orElse, StateT.orElse, tried]
      rfl
    rw [same] at ran
    exact second value next ran

/-- One of two parsers, and then the same way on. -/
theorem Gives.either {test : Prop} [Decidable test] {left right : Parser α} {rest : α → Parser β}
    {final : β → ParseState → Prop} (first : test → Gives left state post)
    (second : ¬ test → Gives right state post)
    (after : ∀ value next, post value next → Gives (rest value) next final) :
    Gives (if test then left >>= rest else right >>= rest) state final := by
  split
  · next holds => exact (first holds).bind after
  · next fails => exact (second fails).bind after

theorem Gives.get {post : ParseState → ParseState → Prop} (holds : post state state) :
    Gives (get : Parser ParseState) state post := by
  intro value next ran
  cases ran
  exact holds

theorem Gives.set {post : PUnit → ParseState → Prop} {next : ParseState} (holds : post ⟨⟩ next) :
    Gives (set next : Parser PUnit) state post := by
  intro value last ran
  cases ran
  exact holds

theorem Gives.modify {post : PUnit → ParseState → Prop} {f : ParseState → ParseState}
    (holds : post ⟨⟩ (f state)) : Gives (modify f : Parser PUnit) state post := by
  intro value last ran
  cases ran
  exact holds

/-- A step that keeps an invariant may be repeated. What the last step gives holds in the end. -/
theorem Gives.repeatStep {step : α → Parser (Option α)} {invariant : α → ParseState → Prop}
    (keeps : ∀ value state, invariant value state → Gives (step value) state fun result next =>
      match result with
      | none => post value next
      | some other => invariant other next)
    (count : Nat) {value : α} {state : ParseState} (holds : invariant value state) :
    Gives (repeatStep step count value) state post := by
  induction count generalizing value state with
  | zero => exact .failure
  | succ count ih =>
    refine (keeps value state holds).bind fun result next kept => ?_
    cases result with
    | none => exact .pure kept
    | some other => exact ih kept

theorem Gives.extendTo {step : α → Parser (Option α)} (invariant post : α → ParseState → Prop)
    {value : α} (holds : invariant value state)
    (keeps : ∀ value state, invariant value state → Gives (step value) state fun result next =>
      match result with
      | none => post value next
      | some other => invariant other next) :
    Gives (extend value step) state post := by
  have began : Gives MonadState.get state fun found next => found = state ∧ next = state :=
    Gives.get ⟨rfl, rfl⟩
  refine began.bind fun found next same => ?_
  obtain ⟨rfl, rfl⟩ := same
  exact .repeatStep keeps _ holds

theorem Gives.extend {step : α → Parser (Option α)} (invariant : α → ParseState → Prop)
    {value : α} (holds : invariant value state)
    (keeps : ∀ value state, invariant value state → Gives (step value) state
      fun result next => invariant (result.getD value) next) :
    Gives (extend value step) state invariant := by
  refine .extendTo invariant invariant holds fun value state before => ?_
  refine (keeps value state before).mono fun result next after => ?_
  cases result <;> exact after

end Combinators

section Tokens

variable {source : Text} {state : ParseState}

theorem peek_gives (valid : state.Valid source) (expect : Expect) :
    Gives (peek expect) state fun lexed next => Stays source state next ∧
      next.ahead = some lexed ∧ ∀ found, state.ahead = some found → lexed = found := by
  intro lexed next ran
  cases ahead : state.ahead with
  | some found =>
    have same : peek expect state = some (found, state) := by
      show (peek expect).run state = _
      simp [peek, ahead]
    rw [same] at ran
    cases ran
    exact ⟨⟨valid, rfl, fun _ is => is⟩, ahead, fun other is => Option.some.inj is⟩
  | none =>
    have same : peek expect state = some (state.reader.read expect,
        { state with ahead := some (state.reader.read expect) }) := by
      show (peek expect).run state = _
      simp [peek, ahead]
    rw [same] at ran
    cases ran
    refine ⟨⟨⟨valid.within, ?_⟩, rfl, ?_⟩, rfl, ?_⟩
    · rintro lexed ⟨⟩
      exact state.reader.read_from expect valid.within
    · intro _ is
      cases ahead.symm.trans is
    · intro _ is
      cases is

theorem peekLexeme_gives (valid : state.Valid source) (expect : Expect) :
    Gives (peekLexeme expect) state fun lexeme next => Stays source state next ∧
      next.Sees lexeme ∧ ∀ seen, state.Sees seen → lexeme = seen := by
  refine (peek_gives valid expect).bind fun lexed next seen => .pure ?_
  obtain ⟨stays, ahead, same⟩ := seen
  refine ⟨stays, ⟨lexed, ahead, rfl⟩, ?_⟩
  rintro lexeme ⟨found, cached, rfl⟩
  rw [same found cached]

theorem atSign_gives (valid : state.Valid source) (expect : Expect) (text : String) :
    Gives (atSign expect text) state fun answer next =>
      Stays source state next ∧ (answer = true → next.Sees (.sign text) ∧
        ∀ other, state.Sees (.sign other) → other = text) := by
  refine (peekLexeme_gives valid expect).bind fun lexeme next seen => ?_
  split
  · refine .pure ⟨seen.1, fun is => ?_⟩
    rw [← eq_of_beq is]
    refine ⟨seen.2.1, fun other before => ?_⟩
    exact (Lexeme.sign.inj (seen.2.2 _ before)).symm
  · exact .pure ⟨seen.1, nofun⟩

theorem atWord_gives (valid : state.Valid source) (expect : Expect) (text : String) :
    Gives (atWord expect text) state fun answer next =>
      Stays source state next ∧ (answer = true → next.Sees (.word text)) := by
  refine (peekLexeme_gives valid expect).bind fun lexeme next seen => ?_
  split
  · refine .pure ⟨seen.1, fun is => ?_⟩
    rw [← eq_of_beq is]
    exact seen.2.1
  · exact .pure ⟨seen.1, nofun⟩

/-- Consuming the next token leaves the parser after it. -/
theorem next_gives {lexeme : Lexeme} (valid : state.Valid source) (sees : state.Sees lexeme) :
    Gives next state fun lexed after => after = ⟨lexed.after, none⟩ ∧ lexed.lexeme = lexeme ∧
      lexed.From source state.reader.cursor := by
  obtain ⟨found, ahead, kind⟩ := sees
  refine (peek_gives valid { }).bind fun lexed middle seen => ?_
  obtain ⟨stays, cached, same⟩ := seen
  have from_here := stays.valid.ahead lexed cached
  rw [stays.reader] at from_here
  have moved : Gives (MonadStateOf.set (ParseState.mk lexed.after none)) middle
      fun _ after => after = ⟨lexed.after, none⟩ := Gives.set rfl
  refine moved.bind fun _ after is => ?_
  exact .pure ⟨is, by rw [same found ahead, kind], from_here⟩

/-- The parser after a token is in the source. -/
theorem valid_after {lexed : Lexed} {cursor : Cursor} (given : lexed.From source cursor) :
    (ParseState.mk lexed.after none).Valid source := by
  obtain ⟨text, reads, -⟩ := given.text
  exact ⟨reads.within given.within, nofun⟩

theorem extras_laid {lexed : Lexed} {cursor : Cursor} (given : lexed.From source cursor) :
    ∃ middle, Laid source cursor.byte (extrasOf lexed) middle ∧
      Blank source middle lexed.start.byte ∧
      (lexed.lexeme.isLayout = true → middle = lexed.start.byte) ∧
      Grade.header.Fits source (extrasOf lexed).trees := by
  obtain ⟨middle, lies, gap, layout⟩ := given.reached
  refine ⟨middle, .of_lies lies fun tree mem _ => (given.extra tree mem).2, gap, layout, ?_⟩
  rw [extrasOf, Pieces.trees_map]
  exact Grade.fits_extras lies.sits fun tree mem => (given.extra tree mem).1

/-- Consuming the next token as a leaf. -/
theorem leaf_reads {lexeme : Lexeme} (kind : String) (named : Bool) (valid : state.Valid source)
    (sees : state.Sees lexeme) :
    Gives (leaf kind named) state fun pieces after => ∃ lexed : Lexed,
      after = ⟨lexed.after, none⟩ ∧ lexed.lexeme = lexeme ∧
        lexed.From source state.reader.cursor ∧
        pieces = extrasOf lexed ++ [.tree (Tree.leaf kind named lexed.span)] :=
  (next_gives valid sees).bind fun lexed _ ran => .pure ⟨lexed, ran.1, ran.2.1, ran.2.2, rfl⟩

/-- A leaf that fits its text is a single tree in the place of its token. -/
theorem leaf_gives {lexeme : Lexeme} {kind : String} {named : Bool} (valid : state.Valid source)
    (sees : state.Sees lexeme) (has : lexeme.hasText = true)
    (fits : ∀ span text after, lexeme.Covers text →
      LeafFits { kind := kind, named := named, span := span } text after)
    (solid : kind ≠ "comment" ∧ kind ≠ "line_continuation") :
    Gives (leaf kind named) state fun pieces next => ∃ span text,
      One source .loose state.offset pieces (Tree.leaf kind named span) next ∧
        lexeme.Covers text ∧ (Tree.leaf kind named span).text source = text := by
  refine (leaf_reads kind named valid sees).mono fun pieces after read => ?_
  obtain ⟨lexed, rfl, is, given, rfl⟩ := read
  obtain ⟨text, reads, covers⟩ := given.text
  rw [is] at covers
  obtain ⟨middle, extras, gap, -, -⟩ := extras_laid given
  obtain ⟨before, whole, place⟩ := reads.place given.within
  have sits : Sits source (Tree.leaf kind named lexed.span) :=
    .leaf rfl whole place (fits _ _ _ covers) fun _ => rfl
  have kept : (Tree.leaf kind named lexed.span).isExtra = false := by
    simp [Tree.leaf, isExtra, isComment, Tree.kind, Tree.label, solid.1, solid.2]
  have width : lexed.start.byte < lexed.after.cursor.byte := by
    have positive := Text.byteLength_pos (covers.filled has)
    rw [reads.byte]
    omega
  have heard := @isHeard_of_closed (Tree.leaf kind named lexed.span) rfl kept width
  refine ⟨lexed.span, text, ⟨⟨valid_after given, ?_, trivial, trivial⟩, kept, heard, lexed.extras,
    rfl, fun tree mem => (given.extra tree mem).1⟩, covers, text_of_leaf whole place⟩
  exact extras.append (.tree gap sits (by rw [kept]; exact Bool.noConfusion) .nil)

/-- A line end, or the start or end of a block, takes no place. -/
theorem mark_gives {lexeme : Lexeme} (valid : state.Valid source) (sees : state.Sees lexeme)
    (layout : lexeme.isLayout = true) :
    Gives mark state fun pieces next =>
      Reach source .repaired state.offset pieces next ∧ pieces.isSolid = true := by
  refine (next_gives valid sees).bind fun lexed after ran => ?_
  obtain ⟨rfl, is, given⟩ := ran
  obtain ⟨text, reads, covers⟩ := given.text
  obtain ⟨middle, extras, gap, here, fits⟩ := extras_laid given
  have empty : text = [] := by
    rw [is] at covers
    cases lexeme <;> first | exact covers | cases layout
  have same : lexed.after.cursor.byte = lexed.start.byte := by rw [reads.byte, empty]; rfl
  have start := here (by rw [is]; exact layout)
  refine .pure ⟨⟨valid_after given, extras.append ?_, ?_, trivial⟩, ?_⟩
  · rw [start]
    refine .mark ⟨_, _, given.within, reads.within given.within, reads.ordered, rfl⟩ rfl same ?_
    have ends : (ParseState.mk lexed.after none).offset = lexed.start.byte := same
    rw [ends]
    exact .nil
  · simpa using Grade.fits_of_header fits
  · simp [Pieces.isSolid, Piece.isExtra]

/-- A sign or word of the grammar, as it was read. -/
def Reads (source : Text) (grade : Grade) (text : String) (offset : Nat) (pieces : Pieces)
    (next : ParseState) : Prop :=
  ∃ tree, One source grade offset pieces tree next ∧ IsSign text tree

/-- A part that the grammar names, as it was read. -/
def Single (source : Text) (grade : Grade) (offset : Nat) (pieces : Pieces) (next : ParseState) :
    Prop :=
  ∃ tree, One source grade offset pieces tree next ∧ IsPart tree

/-- A part of the given kind. -/
def OfKind (source : Text) (grade : Grade) (kind : String) (offset : Nat) (pieces : Pieces)
    (next : ParseState) : Prop :=
  ∃ tree, One source grade offset pieces tree next ∧ IsPart tree ∧ tree.kind = kind

theorem OfKind.single {grade : Grade} {kind : String} {offset : Nat} {pieces : Pieces}
    {next : ParseState} (read : OfKind source grade kind offset pieces next) :
    Single source grade offset pieces next := by
  obtain ⟨tree, one, part, -⟩ := read
  exact ⟨tree, one, part⟩

private theorem signs_simple : ∀ sign ∈ signs, (constructs ++ atoms).contains sign = false ∧
    sign.toList.head? ≠ some '\n' := by
  decide

theorem sign_fits {text : String} (listed : text ∈ signs) (span : Span) (after : Text) :
    LeafFits { kind := text, named := false, span := span } text.toList after := by
  obtain ⟨free, fresh⟩ := signs_simple text listed
  have free : text ∉ constructs ∧ text ∉ atoms := by simpa [not_or] using free
  have kinds : text ≠ "identifier" ∧ text ≠ "comment" ∧ text ≠ "line_continuation" := by
    refine ⟨?_, ?_, ?_⟩ <;> rintro rfl <;> exact free.2 (by decide)
  exact
    { simple := fun known => absurd (List.contains_iff_mem.mp known) free.1
      sign := fun _ _ => rfl
      plain := nofun
      fresh := fresh
      identifier := fun is => absurd is kinds.1
      extra := fun is => (is.elim kinds.2.1 kinds.2.2).elim
      comment := fun is => absurd is kinds.2.1
      continuation := fun is => absurd is kinds.2.2 }

/-- The words of the grammar. Only the word of a lambda is also the name of a construct. -/
def isWord (text : String) : Bool :=
  !atoms.contains text && (!constructs.contains text || text == "lambda")

private theorem word_fits {text : String} {content : Text} (word : isWord text = true)
    (covers : (Lexeme.word text).Covers content) (span : Span) (after : Text) :
    LeafFits { kind := text, named := false, span := span } content after := by
  have facts : text ∉ atoms ∧ (text ∈ constructs → text = "lambda") := by
    simpa [isWord, Decidable.imp_iff_not_or] using word
  have kinds : text ≠ "identifier" ∧ text ≠ "comment" ∧ text ≠ "line_continuation" := by
    refine ⟨?_, ?_, ?_⟩ <;> rintro rfl <;> exact facts.1 (by decide)
  exact
    { simple := fun known => ⟨facts.2 (List.contains_iff_mem.mp known), rfl⟩
      sign := fun _ _ => covers.1
      plain := nofun
      fresh := fresh_of_word covers
      identifier := fun is => absurd is kinds.1
      extra := fun is => (is.elim kinds.2.1 kinds.2.2).elim
      comment := fun is => absurd is kinds.2.1
      continuation := fun is => absurd is kinds.2.2 }

theorem leaf_sign_gives {text : String} (valid : state.Valid source)
    (sees : state.Sees (.sign text)) :
    Gives (leaf text false) state (Reads source .loose text state.offset) := by
  obtain ⟨lexed, ahead, is⟩ := sees
  have listed : text ∈ signs := by
    obtain ⟨content, -, covers⟩ := (valid.ahead lexed ahead).text
    rw [is] at covers
    exact covers.2
  have kinds : text ≠ "comment" ∧ text ≠ "line_continuation" := by
    refine ⟨?_, ?_⟩ <;> rintro rfl <;> exact absurd listed (by decide)
  refine (leaf_gives valid ⟨lexed, ahead, is⟩ rfl (fun span content after covers => ?_) kinds).mono
    fun pieces next read => ?_
  · rw [covers.1]
    exact sign_fits listed span after
  · obtain ⟨span, content, one, -, -⟩ := read
    exact ⟨_, one, rfl, rfl, rfl, rfl, rfl⟩

theorem leaf_word_gives {text : String} (valid : state.Valid source)
    (sees : state.Sees (.word text)) (word : isWord text = true) :
    Gives (leaf text false) state (Reads source .loose text state.offset) := by
  have kinds : text ≠ "comment" ∧ text ≠ "line_continuation" := by
    refine ⟨?_, ?_⟩ <;> rintro rfl <;> exact absurd word (by decide)
  refine (leaf_gives valid sees rfl
    (fun span content after covers => word_fits word covers span after) kinds).mono fun pieces next read => ?_
  obtain ⟨span, content, one, -, -⟩ := read
  exact ⟨_, one, rfl, rfl, rfl, rfl, rfl⟩

theorem sign_gives (valid : state.Valid source) (text : String) :
    Gives (sign text) state (Reads source .loose text state.offset) := by
  refine (atSign_gives valid { } text).bind fun answer next seen => ?_
  split
  · next is =>
    rw [← seen.1.offset]
    exact leaf_sign_gives seen.1.valid (seen.2 is).1
  · exact .failure

theorem keyword_gives (valid : state.Valid source) {text : String} (word : isWord text = true) :
    Gives (keyword text) state (Reads source .loose text state.offset) := by
  refine (atWord_gives valid { } text).bind fun answer next seen => ?_
  split
  · next is =>
    rw [← seen.1.offset]
    exact leaf_word_gives seen.1.valid (seen.2 is) word
  · exact .failure

/-- A word or sign that bears on no nesting. -/
def isInert (text : String) : Bool := !nestingTexts.contains text.toList

theorem Reads.stays {grade : Grade} {text : String} {offset : Nat} {pieces : Pieces}
    {next last : ParseState} (read : Reads source grade text offset pieces next)
    (stays : Stays source next last) : Reads source grade text offset pieces last := by
  obtain ⟨tree, one, sign⟩ := read
  exact ⟨tree, one.stays stays, sign⟩

theorem Reads.inert {grade : Grade} {text : String} {offset : Nat} {pieces : Pieces}
    {next : ParseState} (read : Reads source grade text offset pieces next)
    (inert : isInert text = true) : Reads source .header text offset pieces next := by
  obtain ⟨tree, one, sign⟩ := read
  have other : tree.text source ∉ nestingTexts := by
    rw [sign.text one.sits]
    simpa [isInert] using inert
  exact ⟨tree, one.regrade sign.closed (Inert.fits (.of_text other) sign.closed), sign⟩

/-- A colon leaves brackets matched. -/
theorem Reads.colon {grade : Grade} {offset : Nat} {pieces : Pieces} {next : ParseState}
    (read : Reads source grade ":" offset pieces next) :
    Reads source .matched ":" offset pieces next := by
  obtain ⟨tree, one, sign⟩ := read
  refine ⟨tree, one.regrade sign.closed ?_, sign⟩
  rw [Grade.Fits, tokensOf_cons, tokensOf_nil, List.append_nil,
    (sign.tokens one.sits (by decide) (by decide)).1]
  have kind : (tree.token source).kind = .colon := by
    rw [sign.token_kind one.sits]
    rfl
  exact .plain (Region.plain_of_colon kind) .nil

theorem inert_sign_gives (valid : state.Valid source) {text : String} (inert : isInert text = true) :
    Gives (sign text) state (Reads source .header text state.offset) :=
  (sign_gives valid text).mono fun _ _ read => read.inert inert

theorem inert_keyword_gives (valid : state.Valid source) {text : String}
    (word : isWord text = true) (inert : isInert text = true) :
    Gives (keyword text) state (Reads source .header text state.offset) :=
  (keyword_gives valid word).mono fun _ _ read => read.inert inert

theorem noComma_gives (valid : state.Valid source) :
    Gives noComma state fun _ next => Stays source state next := by
  refine (atSign_gives valid { } ",").bind fun answer next seen => ?_
  split
  · exact .failure
  · exact .pure seen.1

theorem anySign_gives (valid : state.Valid source) (expect : Expect) {texts : List String}
    (inert : texts.all isInert = true) :
    Gives (anySign? expect texts) state fun result next =>
      match result with
      | none => Stays source state next
      | some pieces => ∃ text, Reads source .header text state.offset pieces next := by
  refine (peekLexeme_gives valid expect).bind fun lexeme next seen => ?_
  split
  · next found =>
    split
    · next among =>
      refine (leaf_sign_gives seen.1.valid seen.2.1).bind fun pieces last read => .pure ⟨found, ?_⟩
      rw [← seen.1.offset]
      exact read.inert (List.all_eq_true.mp inert found (List.contains_iff_mem.mp among))
    · exact .pure seen.1
  · exact .pure seen.1

/-- A leaf that the grammar names and that is no name. -/
theorem named_leaf_gives {lexeme : Lexeme} {kind : String} (valid : state.Valid source)
    (sees : state.Sees lexeme) (has : lexeme.hasText = true)
    (free : (constructs ++ atoms).contains kind = false)
    (inert : ∀ text, lexeme.Covers text → Inert kind text ∧ text.head? ≠ some '\n') :
    Gives (leaf kind true) state (Single source .header state.offset) := by
  obtain ⟨simple, built⟩ : constructs.contains kind = false ∧ atoms.contains kind = false := by
    simpa [not_or] using free
  have kinds : kind ≠ "comment" ∧ kind ≠ "line_continuation" := by
    refine ⟨?_, ?_⟩ <;> rintro rfl <;> exact absurd built (by decide)
  refine (leaf_gives valid sees has (fun span text after covers => ?_) kinds).mono
    fun pieces next read => ?_
  · obtain ⟨quiet, fresh⟩ := inert text covers
    exact .of_built built simple rfl ⟨quiet.opens, quiet.closes⟩ fresh
  · obtain ⟨span, text, one, covers, is⟩ := read
    refine ⟨_, one.regrade rfl (Inert.fits ?_ rfl), rfl, one.solid, one.heard⟩
    rw [is]
    exact (inert text covers).1

/-- A word in the place of a name. -/
theorem name_leaf_gives {word : String} (valid : state.Valid source)
    (sees : state.Sees (.word word)) (other : word ≠ "lambda") :
    Gives (leaf "identifier" true) state
      (OfKind source .header "identifier" state.offset) := by
  refine (leaf_gives valid sees rfl (fun span text after covers => ?_)
    ⟨by decide, by decide⟩).mono fun pieces next read => ?_
  · have quiet : Inert "identifier" text := .of_word covers other
    have fresh := fresh_of_word covers
    obtain ⟨-, c, rest, first, -⟩ := covers
    exact
      { simple := fun listed => absurd listed (by decide : ¬ constructs.contains "identifier" = true)
        sign := nofun
        plain := fun _ => ⟨quiet.opens, quiet.closes⟩
        fresh := fresh
        identifier := fun _ => by rw [first]; nofun
        extra := fun is => absurd is (by decide :
          ¬ ("identifier" = "comment" ∨ "identifier" = "line_continuation"))
        comment := fun is => absurd is (by decide : "identifier" ≠ "comment")
        continuation := fun is => absurd is (by decide : "identifier" ≠ "line_continuation") }
  · obtain ⟨span, text, one, covers, is⟩ := read
    refine ⟨_, one.regrade rfl (Inert.fits ?_ rfl), ⟨rfl, one.solid, one.heard⟩, rfl⟩
    rw [is]
    exact .of_word covers other

theorem name_not_lambda {word : String} (name : isNameWord word = true) :
    word ≠ "lambda" := by
  rintro rfl
  exact absurd name (by decide)

theorem identifier_gives (valid : state.Valid source) :
    Gives identifier state (OfKind source .header "identifier" state.offset) := by
  refine (peekLexeme_gives valid { }).bind fun lexeme next seen => ?_
  split
  · next word =>
    split
    · next name =>
      rw [← seen.1.offset]
      exact name_leaf_gives seen.1.valid seen.2.1 (name_not_lambda (by rw [isNameWord, name]; rfl))
    · exact .failure
  · exact .failure

end Tokens

end Parser

end LambdaLayout.Python
