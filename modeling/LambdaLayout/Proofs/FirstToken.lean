import LambdaLayout.Proofs.ParseGrammatical

/-!
The first token of a source. It says where the first statement begins, and some tokens begin none:
words that only go on with a statement or an expression that was begun before them. Where such a
word comes first, every rule by which a statement could start fails on it, so the source has errors.
-/

namespace LambdaLayout.Python

open LambdaLayout.Python.Parser
open LambdaLayout.Text (isIdentifierStart isIdentifierContinue isIndent)

/-- Words that only go on with what was begun before them: the clauses of compound statements, and
operators. -/
def innerWords : List String :=
  ["else", "elif", "except", "finally", "in", "is", "and", "or", "as"]

namespace Parser

/-- The parser fails where the word is next. -/
def Refuses {α : Type} (word : String) (parser : Parser α) : Prop :=
  ∀ state : ParseState, state.Sees (.word word) → parser state = none

section Refuses

variable {α β : Type} {word : String} {state : ParseState} {lexeme : Lexeme}

/-- A token that was asked for before is the one that is seen. -/
theorem peekLexeme_seen (expect : Expect) (sees : state.Sees lexeme) :
    peekLexeme expect state = some (lexeme, state) := by
  obtain ⟨reader, ahead⟩ := state
  obtain ⟨lexed, rfl, rfl⟩ := sees
  rfl

theorem Refuses.bind {parser : Parser α} {rest : α → Parser β} (refuses : Refuses word parser) :
    Refuses word (parser >>= rest) := by
  intro state sees
  simp only [Bind.bind, StateT.bind, refuses state sees, Option.bind_none]

/-- A step that only looks at the word. -/
theorem Refuses.look {parser : Parser α} {rest : α → Parser β} {value : α}
    (looks : ∀ state : ParseState, state.Sees (.word word) → parser state = some (value, state))
    (refuses : Refuses word (rest value)) : Refuses word (parser >>= rest) := by
  intro state sees
  simp only [Bind.bind, StateT.bind, looks state sees, Option.bind_some]
  exact refuses state sees

theorem Refuses.peek {expect : Expect} {rest : Lexeme → Parser α}
    (refuses : Refuses word (rest (.word word))) : Refuses word (peekLexeme expect >>= rest) :=
  .look (fun _ sees => peekLexeme_seen expect sees) refuses

theorem Refuses.atSign {expect : Expect} {text : String} {rest : Bool → Parser α}
    (refuses : Refuses word (rest false)) : Refuses word (atSign expect text >>= rest) := by
  refine .look (fun state sees => ?_) refuses
  simp only [Parser.atSign, Bind.bind, StateT.bind, peekLexeme_seen expect sees, Option.bind_some]
  rfl

theorem Refuses.atWord {expect : Expect} {text : String} {rest : Bool → Parser α}
    (other : word ≠ text) (refuses : Refuses word (rest false)) :
    Refuses word (atWord expect text >>= rest) := by
  refine .look (fun state sees => ?_) refuses
  simp only [Parser.atWord, Bind.bind, StateT.bind, peekLexeme_seen expect sees, Option.bind_some,
    beq_eq_false_iff_ne.mpr other]
  rfl

theorem Refuses.anySign {expect : Expect} {texts : List String}
    {rest : Option Pieces → Parser α} (refuses : Refuses word (rest none)) :
    Refuses word (anySign? expect texts >>= rest) := by
  refine .look (fun state sees => ?_) refuses
  simp only [anySign?, Bind.bind, StateT.bind, peekLexeme_seen expect sees, Option.bind_some]
  rfl

theorem refuses_failure : Refuses word (failure : Parser α) := fun _ _ => rfl

end Refuses

end Parser

section Grammar

variable {word : String} {grammar : Grammar}

/-- No operand starts with the word. -/
theorem atom_refuses (inner : word ∈ innerWords) (after : After) :
    Refuses word (atom grammar after) := by
  refine .peek ?_
  simp only [innerWords, List.mem_cons, List.not_mem_nil, or_false] at inner
  rcases inner with rfl | rfl | rfl | rfl | rfl | rfl | rfl | rfl | rfl
  all_goals exact refuses_failure

theorem operand_refuses (inner : word ∈ innerWords) (after : After) :
    Refuses word (operand grammar after) :=
  .atSign (.bind (atom_refuses inner after))

theorem arithmetic_refuses (inner : word ∈ innerWords) (level : Nat) (after : After) :
    Refuses word (arithmetic grammar level after) := by
  have other : word ≠ "await" := ne_of_mem_of_not_mem inner (by decide)
  exact .anySign (.atWord other (.bind (operand_refuses inner after)))

theorem comparison_refuses (after : After)
    (refuses : ∀ level after, Refuses word (grammar (.arithmetic level after))) :
    Refuses word (comparison grammar after) := .bind (refuses 14 after)

theorem term_refuses (inner : word ∈ innerWords) (after : After) (lambdaBody : Rule)
    (refuses : ∀ level after, Refuses word (grammar (.arithmetic level after))) :
    Refuses word (term grammar after lambdaBody) := by
  refine .peek ?_
  split
  · next negation =>
    cases negation
    exact absurd inner (by decide)
  · next lambda =>
    cases lambda
    exact absurd inner (by decide)
  · exact .bind (comparison_refuses after refuses)

end Grammar

variable {word : String}

/-- No expression starts with the word, however deep the rules are nested. -/
theorem grammar_refuses (inner : word ∈ innerWords) (depth : Nat) :
    (∀ level after, Refuses word (grammar depth (.arithmetic level after))) ∧
      ∀ level after, Refuses word (grammar depth (.expression level after)) := by
  induction depth with
  | zero => exact ⟨fun _ _ => refuses_failure, fun _ _ => refuses_failure⟩
  | succ depth ih =>
    refine ⟨fun level after => arithmetic_refuses inner level after, fun level after => ?_⟩
    exact .bind (term_refuses inner after _ ih.1)

/-- No statement starts with the word. -/
theorem statement_refuses (inner : word ∈ innerWords) (depth : Nat) (inBlock : Bool) :
    Refuses word (statement (grammar depth) inBlock) := by
  have sequence : Refuses word (expressionSequence (grammar depth) lineEnd) :=
    .bind ((grammar_refuses inner depth).2 1 lineEnd)
  have other : word ≠ "yield" := ne_of_mem_of_not_mem inner (by decide)
  have expression : Refuses word (expressionStatement (grammar depth)) :=
    .atWord other (.bind sequence)
  have simple : Refuses word (simpleStatement (grammar depth)) := by
    refine .peek ?_
    simp only [innerWords, List.mem_cons, List.not_mem_nil, or_false] at inner
    rcases inner with rfl | rfl | rfl | rfl | rfl | rfl | rfl | rfl | rfl
    all_goals exact expression
  have line : Refuses word (statementLine (grammar depth)) := .bind simple
  refine .peek ?_
  simp only [innerWords, List.mem_cons, List.not_mem_nil, or_false] at inner
  rcases inner with rfl | rfl | rfl | rfl | rfl | rfl | rfl | rfl | rfl
  all_goals exact line

/-- A source that starts with the word does not follow the grammar. -/
theorem read_refuses {source : Text} (inner : word ∈ innerWords)
    (starts : firstLexeme source = .word word) : read? source = none := by
  let state : ParseState := ⟨Reader.start source, none⟩
  have valid : state.Valid source := ⟨Cursor.within_start source, nofun⟩
  let begun := fun (read : Pieces × Bool) now => read = ([], false) ∧ now = state
  have fails : Gives (statements (grammar (depthOf source))) state fun _ _ => False := by
    refine (Gives.extendTo begun (fun _ _ => False) ⟨rfl, rfl⟩ ?_).bind fun _ _ none => none.elim
    rintro _ _ ⟨rfl, rfl⟩
    refine (peekLexeme_start valid).bind fun lexeme next seen => ?_
    obtain ⟨-, sees, first⟩ := seen
    obtain rfl : lexeme = .word word := (first rfl).trans starts
    have refused : Gives (grammar (depthOf source) (.statement false)) next fun _ _ => False := by
      have none : grammar (depthOf source) (.statement false) next = none :=
        statement_refuses inner _ false next sees
      intro pieces last ran
      rw [none] at ran
      cases ran
    exact refused.bind fun _ _ none => none.elim
  rw [read?]
  cases ran : (statements (grammar (depthOf source))).run state with
  | none => rfl
  | some read => exact (fails read.1 read.2 ran).elim

/-- The cursor past a known text. -/
theorem rest_of_skip {cursor : Cursor} {text after : Text} (ahead : cursor.rest = text ++ after) :
    (cursor.skip text.length).rest = after := by
  have reads := (Cursor.Reads.skip text.length cursor).rest
  rw [ahead, List.take_left] at reads
  exact (List.append_cancel_left reads).symm

/-- Says that a character starts a token: it is no blank and starts neither a line continuation nor
a comment. -/
def startsToken (c : Char) : Bool := !isGap c && !Text.isBlank c && c != '\\' && c != '#'

theorem solid_of_starts {c : Char} (starts : startsToken c = true) : Text.isBlank c = false := by
  simp only [startsToken, Bool.and_eq_true, Bool.not_eq_true'] at starts
  exact starts.1.1.2

/-- Spaces and tabs before a token make up a margin. -/
theorem scan_indent {front after : Text} {c : Char} (indent : ∀ c ∈ front, isIndent c = true)
    (starts : startsToken c = true) (margin : Margin) :
    ∃ found, Margin.scan false false margin (front ++ c :: after) = some found ∧
      found.width = margin.width + front.length ∧ found.broken = margin.broken ∧
      found.comment = margin.comment := by
  induction front generalizing margin with
  | nil =>
    have plain : c ≠ '\\' ∧ c ≠ '\n' ∧ c ≠ ' ' ∧ c ≠ '\r' ∧ c ≠ '\x0c' ∧ c ≠ '\t' := by
      refine ⟨?_, ?_, ?_, ?_, ?_, ?_⟩ <;> rintro rfl <;> cases starts
    obtain ⟨slash, feed, space, back, form, tab⟩ := plain
    refine ⟨margin, ?_, rfl, rfl, rfl⟩
    rw [List.nil_append, Margin.scan.eq_def]
    simp [slash, feed, space, back, form, tab]
  | cons space front ih =>
    obtain ⟨own, others⟩ := List.forall_mem_cons.mp indent
    rw [Text.isIndent, Bool.or_eq_true, beq_iff_eq, beq_iff_eq] at own
    have goes : ∃ wide, Margin.scan false false margin (space :: (front ++ c :: after)) =
        Margin.scan false false (margin.step wide) (front ++ c :: after) := by
      rcases own with rfl | rfl
      · exact ⟨margin.indent + 1, by rw [Margin.scan.eq_def]; simp⟩
      · exact ⟨margin.indent + 8, by rw [Margin.scan.eq_def]; simp⟩
    obtain ⟨wide, goes⟩ := goes
    obtain ⟨found, scanned, width, broken, comment⟩ := ih others (margin.step wide)
    have longer : (margin.step wide).width = margin.width + 1 := rfl
    refine ⟨found, goes.trans scanned, ?_, broken, comment⟩
    rw [width, longer, List.length_cons]
    omega

/-- A string, or else a word, numeral or sign, is read where the margin stands for no token and
neither a comment nor a line continuation follows it. -/
theorem readToken_inline {expect : Expect} {reader : Reader} {found : Margin} (count : Nat)
    (scanned : Margin.scan (expect.indent || expect.dedent || expect.newline) false {}
      reader.cursor.rest = some found)
    (level : layoutToken? expect reader found = none)
    (strings : (expect.string && found.comment.isNone) = true)
    (uncommented : (reader.cursor.skipWhile isGap).head? ≠ some '#')
    (continued : continuationWidth (reader.cursor.skipWhile isGap).rest = 0) :
    (readToken expect (count + 1) [] reader).lexeme =
      ((opening? (reader.cursor.skip found.width)).map fun opened =>
        Lexeme.opening opened.1).getD (plainToken (reader.cursor.skipWhile isGap)).1 := by
  rw [readToken]
  simp only [scanned, Option.bind_some, level, Option.map_none, strings, ↓reduceIte]
  cases opening? (reader.cursor.skip found.width) with
  | some opened => rfl
  | none => simp only [Option.map_none, continued, beq_iff_eq, uncommented, Nat.lt_irrefl,
      ↓reduceIte, Option.getD_none]

/-- The first token of a source that starts with one, up to spaces and tabs. -/
theorem firstLexeme_eq {front after : Text} {c : Char} (indent : ∀ c ∈ front, isIndent c = true)
    (starts : startsToken c = true) :
    let cursor := (Cursor.start (front ++ c :: after)).skip front.length
    firstLexeme (front ++ c :: after) = ((opening? cursor).map fun opened =>
      Lexeme.opening opened.1).getD (plainToken cursor).1 := by
  intro cursor
  have ahead : cursor.rest = c :: after := rest_of_skip rfl
  obtain ⟨⟨⟨gap, -⟩, slash⟩, comment⟩ :
      ((isGap c = false ∧ Text.isBlank c = false) ∧ c ≠ '\\') ∧ c ≠ '#' := by
    simpa [startsToken] using starts
  have gaps : ∀ c ∈ front, isGap c = true := by
    intro c mem
    have own := indent c mem
    rw [isIndent, Bool.or_eq_true, beq_iff_eq, beq_iff_eq] at own
    rcases own with rfl | rfl <;> rfl
  have skipped : (Cursor.start (front ++ c :: after)).skipWhile isGap = cursor := by
    rw [Cursor.skipWhile, Cursor.start, List.takeWhile_append_of_pos gaps,
      List.takeWhile_cons_of_neg (by simp [gap]), List.append_nil]
    rfl
  obtain ⟨found, scanned, width, unbroken, bare⟩ := @scan_indent front after c indent starts {}
  have wide : (Cursor.start (front ++ c :: after)).skip found.width = cursor := by
    rw [width, Nat.zero_add]
  have level : layoutToken? (statementStart false) (Reader.start (front ++ c :: after)) found =
      none := by
    rw [layoutToken?, unbroken]
    rfl
  have uncommented : cursor.head? ≠ some '#' := by
    rw [Cursor.head?, ahead]
    simpa using comment
  have continued : continuationWidth cursor.rest = 0 := by
    rw [ahead, continuationWidth.eq_def]
    split <;> simp_all
  have read := @readToken_inline (statementStart false) (Reader.start (front ++ c :: after)) found
    (front ++ c :: after).length scanned level (by rw [bare]; rfl)
  rw [Reader.start, skipped, wide] at read
  exact read uncommented continued

/-- A source with a character that starts a token has a first token. -/
theorem firstLexeme_filled {front after : Text} {c : Char}
    (indent : ∀ c ∈ front, isIndent c = true) (starts : startsToken c = true) :
    firstLexeme (front ++ c :: after) ≠ .finish := by
  have ahead : ((Cursor.start (front ++ c :: after)).skip front.length).rest = c :: after :=
    rest_of_skip rfl
  rw [firstLexeme_eq indent starts]
  generalize (Cursor.start (front ++ c :: after)).skip front.length = cursor at ahead
  have plain : (plainToken cursor).1 ≠ .finish := by
    simp only [plainToken, ahead]
    repeat' split
    all_goals nofun
  cases opening? cursor with
  | none => exact plain
  | some opened => nofun

/-- Blanks and continued lines at the start of a source end before its first token. -/
theorem spacing_ends {front after text : Text} {c : Char} (starts : startsToken c = true)
    (spacing : Spacing text) (upto : text <+: front ++ c :: after)
    (indent : ∀ c ∈ front, isIndent c = true) : text <+: front := by
  induction spacing generalizing front with
  | nil => exact List.nil_prefix
  | @blank space rest gap _ ih =>
    cases front with
    | nil =>
      obtain ⟨rfl, -⟩ := List.cons_prefix_cons.mp upto
      simp [startsToken, gap] at starts
    | cons d front =>
      rw [List.cons_append] at upto
      obtain ⟨rfl, later⟩ := List.cons_prefix_cons.mp upto
      exact List.cons_prefix_cons.mpr ⟨rfl, ih later (List.forall_mem_cons.mp indent).2⟩
  | continued | continuedReturn =>
    cases front with
    | nil =>
      obtain ⟨rfl, -⟩ := List.cons_prefix_cons.mp upto
      cases starts
    | cons d front =>
      obtain ⟨rfl, -⟩ := List.cons_prefix_cons.mp upto
      cases (List.forall_mem_cons.mp indent).1

/-- A comment starts with a hash, and a line continuation with a backslash. -/
theorem Tree.Sits.extra_head {source : Text} {tree : Tree} (sits : Sits source tree)
    (extra : tree.isExtra = true) :
    ∃ before content after, source = before ++ content ++ after ∧
      tree.span.startByte = Text.byteLength before ∧
      ∃ c ∈ content.head?, c = '#' ∨ c = '\\' := by
  have leaf := (sits.extra extra).1
  cases sits with
  | leaf closed whole place fits =>
    refine ⟨_, _, _, whole, congrArg Span.startByte place, ?_⟩
    rcases extra_kind extra with comment | continuation
    · exact ⟨_, (fits.comment comment).1, .inl rfl⟩
    · rcases fits.continuation continuation with rfl | rfl | rfl | ⟨rfl, -⟩
      all_goals exact ⟨_, rfl, .inr rfl⟩
  | node split =>
    rw [leaf] at split
    cases split

/-- In a source without errors a named node begins with the first token at the latest. -/
theorem front_starts {front after : Text} {c : Char} (indent : ∀ c ∈ front, isIndent c = true)
    (starts : startsToken c = true) (sound : (parse (front ++ c :: after)).hasErrors = false) :
    ∃ tree, (parse (front ++ c :: after)).tree.children.find? (fun tree => !tree.isExtra) =
        some tree ∧
      tree.label.named = true ∧ tree.span.startByte ≤ Text.byteLength front := by
  obtain ⟨tree, found, named⟩ := parse_front sound (firstLexeme_filled indent starts)
  refine ⟨tree, found, named, ?_⟩
  obtain ⟨label, children, stop, made, -, -, lies⟩ := parse_grammatical sound
  rw [made] at found
  cases lies with
  | nil => cases found
  | @cons _ _ first others gap sits lies =>
    obtain ⟨text, ⟨before, rest, whole, zero, size⟩, spacing⟩ := gap
    obtain rfl : before = [] := Text.byteLength_eq_zero.mp zero
    rw [List.nil_append] at whole size
    obtain ⟨more, rfl⟩ := spacing_ends starts spacing ⟨rest, whole.symm⟩ indent
    cases extra : first.isExtra with
    | false =>
      rw [Tree.children, List.find?_cons_of_pos (by rw [extra]; rfl)] at found
      cases found
      rw [Text.byteLength_append]
      omega
    | true =>
      -- What follows the blanks is not the start of a comment or of a line continuation.
      obtain ⟨front, content, behind, again, place, d, head, is⟩ := sits.extra_head extra
      obtain ⟨own, rfl⟩ : ∃ own, content = d :: own := by
        cases content <;> cases head
        exact ⟨_, rfl⟩
      have parts : text ++ (more ++ c :: after) = front ++ (d :: own ++ behind) := by
        rw [← List.append_assoc, ← List.append_assoc]
        exact again
      obtain ⟨-, same⟩ := Text.split_unique parts (size.trans place)
      cases more with
      | nil =>
        cases same
        rcases is with rfl | rfl <;> cases starts
      | cons e more =>
        obtain ⟨rfl, -⟩ := List.cons.inj same
        have space := indent e (by simp)
        rcases is with rfl | rfl <;> cases space

/-- What a reader goes by to read a text as a word: the text starts a token that is no comment and
no string, and no character of it ends the word. -/
structure IsPlainWord (word : Text) : Prop where
  starts : (word.head?.any fun c => startsToken c && isIdentifierStart c) = true
  unquoted : ((word.dropWhile isStringFlag).head?.any fun c => !isQuote c) = true
  goesOn : word.all isIdentifierContinue = true

theorem plain_of_inner {word : String} (inner : word ∈ innerWords) : IsPlainWord word.toList := by
  simp only [innerWords, List.mem_cons, List.not_mem_nil, or_false] at inner
  rcases inner with rfl | rfl | rfl | rfl | rfl | rfl | rfl | rfl | rfl
  all_goals constructor <;> decide +kernel

theorem IsPlainWord.first {word : Text} (plain : IsPlainWord word) :
    ∃ c rest, word = c :: rest ∧ startsToken c = true ∧ isIdentifierStart c = true := by
  have starts := plain.starts
  cases word with
  | nil => cases starts
  | cons c rest => exact ⟨c, rest, rfl, Bool.and_eq_true_iff.mp starts⟩

/-- No string opens where the text starts. -/
theorem IsPlainWord.opening {word after : Text} {cursor : Cursor} (plain : IsPlainWord word)
    (ahead : cursor.rest = word ++ after) : opening? cursor = none := by
  have split := List.takeWhile_append_dropWhile (p := isStringFlag) (l := word)
  have flagged : ∀ flag ∈ word.takeWhile isStringFlag, isStringFlag flag = true :=
    List.all_eq_true.mp List.all_takeWhile
  have stops := List.head?_dropWhile_not isStringFlag word
  have unquoted := plain.unquoted
  generalize word.takeWhile isStringFlag = flags at split flagged
  generalize word.dropWhile isStringFlag = tail at split stops unquoted
  cases tail with
  | nil => cases unquoted
  | cons c rest =>
    have quote : isQuote c = false := by simpa using unquoted
    have whole : cursor.rest = flags ++ c :: (rest ++ after) := by rw [ahead, ← split]; simp
    have taken : cursor.rest.takeWhile isStringFlag = flags := by
      rw [whole, List.takeWhile_append_of_pos flagged,
        List.takeWhile_cons_of_neg (by simpa using stops), List.append_nil]
    have next : (cursor.skip flags.length).head? = some c := by
      rw [Cursor.head?, rest_of_skip whole]
      rfl
    simp only [opening?, taken, next, quote, Bool.false_eq_true, ↓reduceIte]

/-- The text is read as a word, if none of what follows goes on with it. -/
theorem IsPlainWord.token {word after : Text} {cursor : Cursor} (plain : IsPlainWord word)
    (ahead : cursor.rest = word ++ after)
    (ends : ∀ c ∈ after.head?, isIdentifierContinue c = false) :
    (plainToken cursor).1 = .word (String.ofList word) := by
  have taken : cursor.rest.takeWhile isIdentifierContinue = word := by
    rw [ahead, List.takeWhile_append_of_pos (List.all_eq_true.mp plain.goesOn)]
    cases after with
    | nil => exact List.append_nil word
    | cons c after => rw [List.takeWhile_cons_of_neg (by simp [ends c rfl]), List.append_nil]
  obtain ⟨c, rest, split, -, start⟩ := plain.first
  have first : cursor.rest = c :: (rest ++ after) := by rw [ahead, split]; rfl
  rw [plainToken]
  simp only [first, start, ↓reduceIte]
  rw [← first, taken]

/-- A word is read where a source starts with it, up to spaces and tabs. -/
theorem read_word {word : String} {front after : Text} (inner : word ∈ innerWords)
    (indent : ∀ c ∈ front, isIndent c = true)
    (ends : ∀ c ∈ after.head?, isIdentifierContinue c = false) :
    firstLexeme (front ++ (word.toList ++ after)) = .word word := by
  have plain := plain_of_inner inner
  obtain ⟨c, rest, split, starts, -⟩ := plain.first
  have ahead : ((Cursor.start (front ++ (word.toList ++ after))).skip front.length).rest =
      word.toList ++ after := rest_of_skip rfl
  have token := plain.token ahead ends
  have unopened := plain.opening ahead
  rw [split, List.cons_append] at token unopened ⊢
  rw [firstLexeme_eq indent starts, unopened, Option.map_none, Option.getD_none, token, ← split,
    String.ofList_toList]

end LambdaLayout.Python
