import LambdaLayout.Proofs.TokenStream

/-!
What the reader of tokens hands out. A cursor stands in the source when the text before it and the
text that it still has ahead make up the source, and moving it forward reads off a text. A token
comes with the comments and line continuations before it, which lie one after the other from the
place where reading began, and its own text is what its kind says.
-/

namespace LambdaLayout.Python

open LambdaLayout.Text (Boundary Holds byteLength isIdentifierStart isIdentifierContinue)
open LambdaLayout.Python.Tree (LeafFits Lies Sits)

/-- The texts that bear on how tokens are nested. -/
def nestingTexts : List Text :=
  ["(", ")", "[", "]", "\x7b", "\x7d", ":", "lambda"].map String.toList

/-- A leaf is a bracket or a colon only by its text. -/
theorem ofLeaf_plain (kind : String) {text : Text} (other : text ∉ nestingTexts) :
    (TokenKind.ofLeaf kind text).opens = false ∧ (TokenKind.ofLeaf kind text).closes = false ∧
      TokenKind.ofLeaf kind text ≠ .colon := by
  rw [TokenKind.ofLeaf]
  split
  · exact ⟨rfl, rfl, TokenKind.noConfusion⟩
  split
  · exact ⟨rfl, rfl, TokenKind.noConfusion⟩
  split
  · exact ⟨rfl, rfl, TokenKind.noConfusion⟩
  split
  · next found =>
    rw [TokenKind.ofPunctuation?.eq_def] at found
    split at found <;> cases found <;>
      first
        | exact absurd (by decide) other
        | exact ⟨rfl, rfl, TokenKind.noConfusion⟩
  · split <;> exact ⟨rfl, rfl, TokenKind.noConfusion⟩

namespace Cursor

/-- The cursor stands in the source. -/
def Within (source : Text) (cursor : Cursor) : Prop :=
  ∃ before, source = before ++ cursor.rest ∧ cursor.byte = byteLength before ∧
    cursor.position = placeAfter before

/-- One cursor is ahead of the other by a text. -/
structure Reads (first : Cursor) (text : Text) (last : Cursor) : Prop where
  rest : first.rest = text ++ last.rest
  byte : last.byte = first.byte + byteLength text
  position : last.position = text.foldl Position.after first.position

section

variable {source text left right : Text} {cursor first middle last : Cursor}

theorem within_start (source : Text) : (start source).Within source := ⟨[], rfl, rfl, rfl⟩

theorem Reads.here (cursor : Cursor) : cursor.Reads [] cursor := ⟨rfl, rfl, rfl⟩

theorem Reads.trans (front : first.Reads left middle) (back : middle.Reads right last) :
    first.Reads (left ++ right) last where
  rest := by rw [front.rest, back.rest, List.append_assoc]
  byte := by rw [back.byte, front.byte, Text.byteLength_append, Nat.add_assoc]
  position := by rw [back.position, front.position, List.foldl_append]

theorem Reads.next {c : Char} {rest : Text} (ahead : cursor.rest = c :: rest) :
    cursor.Reads [c] cursor.next := by
  rw [Cursor.next, ahead]
  exact ⟨ahead, rfl, rfl⟩

theorem Reads.skip (count : Nat) (cursor : Cursor) :
    cursor.Reads (cursor.rest.take count) (cursor.skip count) := by
  induction count generalizing cursor with
  | zero => exact .here cursor
  | succ count ih =>
    rw [Cursor.skip]
    cases ahead : cursor.rest with
    | nil =>
      have stays : cursor.next = cursor := by rw [Cursor.next, ahead]
      have again := ih cursor
      rw [ahead, List.take_nil] at again
      rw [stays]
      exact again
    | cons c rest =>
      have one := Reads.next ahead
      have later := ih cursor.next
      have same : cursor.next.rest = rest := by rw [Cursor.next, ahead]
      rw [same] at later
      exact one.trans later

theorem Reads.skipWhile (p : Char → Bool) (cursor : Cursor) :
    cursor.Reads (cursor.rest.takeWhile p) (cursor.skipWhile p) := by
  have along := Reads.skip (cursor.rest.takeWhile p).length cursor
  have front : cursor.rest.take (cursor.rest.takeWhile p).length = cursor.rest.takeWhile p :=
    (List.prefix_iff_eq_take.mp (List.takeWhile_prefix p)).symm
  rw [front] at along
  exact along

/-- What is ahead after a class of characters does not start with one of them. -/
theorem head_after (p : Char → Bool) (cursor : Cursor) {c : Char} {rest : Text}
    (ahead : (cursor.skipWhile p).rest = c :: rest) : p c = false := by
  have split := (Reads.skipWhile p cursor).rest
  have parts : cursor.rest.takeWhile p ++ cursor.rest.dropWhile p = cursor.rest :=
    List.takeWhile_append_dropWhile
  have same : (cursor.skipWhile p).rest = cursor.rest.dropWhile p :=
    List.append_cancel_left (split.symm.trans parts.symm)
  rw [ahead] at same
  have found := List.head?_dropWhile_not p cursor.rest
  rw [← same] at found
  simpa using found

theorem ahead_of_head {c : Char} (head : cursor.head? = some c) :
    ∃ rest, cursor.rest = c :: rest := by
  rw [head?] at head
  cases ahead : cursor.rest with
  | nil => rw [ahead] at head; cases head
  | cons other rest => rw [ahead] at head; cases head; exact ⟨rest, rfl⟩

theorem Reads.within (reads : first.Reads text last) (within : first.Within source) :
    last.Within source := by
  obtain ⟨before, whole, size, place⟩ := within
  refine ⟨before ++ text, ?_, ?_, ?_⟩
  · rw [whole, reads.rest, List.append_assoc]
  · rw [reads.byte, size, Text.byteLength_append]
  · rw [reads.position, place, placeAfter, placeAfter, List.foldl_append]

theorem Reads.ordered (reads : first.Reads text last) : first.byte ≤ last.byte := by
  rw [reads.byte]
  exact Nat.le_add_right _ _

/-- The text that is read stands in the source, and the span between the cursors is its place. -/
theorem Reads.place (reads : first.Reads text last) (within : first.Within source) :
    ∃ before, source = before ++ text ++ last.rest ∧ first.spanTo last = spanOver before text := by
  obtain ⟨before, whole, size, place⟩ := within
  refine ⟨before, by rw [whole, reads.rest, List.append_assoc], ?_⟩
  rw [spanTo, spanOver, reads.byte, reads.position, size, place, Text.byteLength_append, placeAfter,
    placeAfter, List.foldl_append]

theorem Reads.holds (reads : first.Reads text last) (within : first.Within source) :
    Holds source first.byte text last.byte := by
  obtain ⟨before, whole, place⟩ := reads.place within
  exact ⟨before, last.rest, whole, (congrArg Span.startByte place).symm,
    (congrArg Span.endByte place).symm⟩

theorem Within.boundary (within : cursor.Within source) : Boundary source cursor.byte := by
  obtain ⟨before, whole, size, -⟩ := within
  exact ⟨before, cursor.rest, whole, size.symm⟩

/-- Between two cursors in the source a text is read. -/
theorem Within.reads (within : first.Within source) (other : last.Within source)
    (ordered : first.byte ≤ last.byte) : ∃ text, first.Reads text last := by
  obtain ⟨text, held⟩ := Text.holds_between within.boundary other.boundary ordered
  obtain ⟨before, after, split, left, right⟩ := held
  obtain ⟨front, whole, size, place⟩ := within
  obtain ⟨all, again, width, spot⟩ := other
  have first_parts := Text.split_unique
    (whole.symm.trans (split.trans (List.append_assoc ..))) (by omega)
  have last_parts := Text.split_unique (again.symm.trans split) (by omega)
  refine ⟨text, ?_, ?_, ?_⟩
  · rw [first_parts.2, last_parts.2]
  · rw [width, last_parts.1, size, first_parts.1, Text.byteLength_append]
  · rw [spot, last_parts.1, place, first_parts.1, placeAfter, placeAfter, List.foldl_append]

end

end Cursor

/-- Blanks alone are spacing. -/
theorem Spacing.of_gaps {text : Text} (gaps : ∀ c ∈ text, isGap c = true) : Spacing text := by
  induction text with
  | nil => exact .nil
  | cons c rest ih =>
    exact .blank (gaps c List.mem_cons_self)
      (ih fun other mem => gaps other (List.mem_cons_of_mem _ mem))

theorem Blank.of_reads {source text : Text} {first last : Cursor} (within : first.Within source)
    (reads : first.Reads text last) (spacing : Spacing text) : Blank source first.byte last.byte :=
  ⟨text, reads.holds within, spacing⟩

/-- The cursor past the blanks has passed nothing else. -/
theorem Blank.past_gaps {source : Text} {cursor : Cursor} (within : cursor.Within source) :
    Blank source cursor.byte (cursor.skipWhile isGap).byte :=
  .of_reads within (.skipWhile isGap cursor) (.of_gaps fun _ mem =>
    List.all_eq_true.mp List.all_takeWhile _ mem)

namespace Margin

/-- A stretch of a text that is spacing, unless it reaches the end. -/
def Spans (width : Nat) (text : Text) : Prop :=
  ∃ used rest, text = used ++ rest ∧ width = used.length ∧ (Spacing used ∨ rest = [])

private theorem Spans.front {front text : Text} {width : Nat}
    (grow : ∀ {used}, Spacing used → Spacing (front ++ used)) (spans : Spans width text) :
    Spans (front.length + width) (front ++ text) := by
  obtain ⟨used, rest, whole, size, spacing | ended⟩ := spans
  · exact ⟨front ++ used, rest, by rw [whole, List.append_assoc], by simp [size],
      .inl (grow spacing)⟩
  · exact ⟨front ++ used, rest, by rw [whole, List.append_assoc], by simp [size], .inr ended⟩

/-- A margin without a comment line is spacing, unless it reaches the end of the source. -/
theorem scan_spacing {comments inside : Bool} {margin found : Margin} {text : Text}
    (scanned : scan comments inside margin text = some found) (clear : found.comment = none) :
    margin.comment = none ∧
      (inside = false → ∃ width, found.width = margin.width + width ∧ Spans width text) := by
  have blank : ∀ {c : Char} {rest : Text} {width start : Nat}, isGap c = true →
      (∃ more, width = start + 1 + more ∧ Spans more rest) →
      ∃ more, width = start + more ∧ Spans more (c :: rest) := by
    rintro c rest width start gap ⟨more, size, spans⟩
    have longer : Spans ([c].length + more) ([c] ++ rest) :=
      Spans.front (fun spacing => .blank gap spacing) spans
    exact ⟨_, by simp only [List.length_singleton]; omega, longer⟩
  fun_induction scan comments inside margin text with
  | case1 inside margin =>
    cases scanned
    exact ⟨clear, fun _ => ⟨0, rfl, [], [], rfl, rfl, .inl .nil⟩⟩
  | case2 margin c rest ih => exact ⟨(ih scanned).1, nofun⟩
  | case3 margin rest ih =>
    obtain ⟨own, later⟩ := ih scanned
    obtain ⟨more, size, spans⟩ := later rfl
    have longer : Spans (['\\', '\n'].length + more) (['\\', '\n'] ++ rest) :=
      Spans.front (fun spacing => .continued spacing) spans
    exact ⟨own, fun _ => ⟨_, by rw [size, Nat.add_assoc]; rfl, longer⟩⟩
  | case4 margin rest ih =>
    obtain ⟨own, later⟩ := ih scanned
    obtain ⟨more, size, spans⟩ := later rfl
    have longer : Spans (['\\', '\r', '\n'].length + more) (['\\', '\r', '\n'] ++ rest) :=
      Spans.front (fun spacing => .continuedReturn spacing) spans
    exact ⟨own, fun _ => ⟨_, by rw [size, Nat.add_assoc]; rfl, longer⟩⟩
  | case5 margin =>
    cases scanned
    exact ⟨clear, fun _ => ⟨1, rfl, ['\\'], [], rfl, rfl, .inr rfl⟩⟩
  | case6 margin =>
    cases scanned
    exact ⟨clear, fun _ => ⟨2, rfl, ['\\', '\r'], [], rfl, rfl, .inr rfl⟩⟩
  | case7 | case13 => cases scanned
  | case8 margin c rest _ _ _ _ _ break_ ih =>
    obtain ⟨own, later⟩ := ih scanned
    exact ⟨own, fun _ => blank (by rw [eq_of_beq break_]; rfl) (later rfl)⟩
  | case9 margin c rest _ _ _ _ _ _ space ih =>
    obtain ⟨own, later⟩ := ih scanned
    exact ⟨own, fun _ => blank (by rw [eq_of_beq space]; rfl) (later rfl)⟩
  | case10 margin c rest _ _ _ _ _ _ _ feed ih =>
    obtain ⟨own, later⟩ := ih scanned
    have gap : isGap c = true := by
      rcases Bool.or_eq_true_iff.mp feed with is | is <;> rw [eq_of_beq is] <;> rfl
    exact ⟨own, fun _ => blank gap (later rfl)⟩
  | case11 margin c rest _ _ _ _ _ _ _ _ tab ih =>
    obtain ⟨own, later⟩ := ih scanned
    exact ⟨own, fun _ => blank (by rw [eq_of_beq tab]; rfl) (later rfl)⟩
  | case12 margin c rest _ _ _ _ _ _ _ _ _ _ _ noted ih =>
    have none := (ih scanned).1
    simp only [noted] at none
    cases own : margin.comment <;> simp [own] at none
  | case14 margin c rest =>
    cases scanned
    exact ⟨clear, fun _ => ⟨0, rfl, [], c :: rest, rfl, rfl, .inl .nil⟩⟩

end Margin

/-- What the text of a token is, by its kind. Line ends and the starts and ends of blocks have
none. -/
def Lexeme.Covers (lexeme : Lexeme) (text : Text) : Prop :=
  match lexeme with
  | .word name => text = name.toList ∧ ∃ c rest, text = c :: rest ∧ isIdentifierStart c = true
  | .sign found => text = found.toList ∧ found ∈ signs
  | .integer | .float | .opening _ => text ≠ [] ∧ text.head? ≠ some '\n'
  | .newline | .indent | .dedent => text = []
  | .finish | .stray => True

/-- Says that the token has a text. -/
def Lexeme.hasText : Lexeme → Bool
  | .word _ | .sign _ | .integer | .float | .opening _ => true
  | _ => false

theorem Lexeme.Covers.filled {lexeme : Lexeme} {text : Text} (covers : lexeme.Covers text)
    (has : lexeme.hasText = true) : text ≠ [] := by
  have some : ∀ sign ∈ signs, sign.toList ≠ [] := by decide
  cases lexeme with
  | word name =>
    obtain ⟨-, c, rest, first, -⟩ := covers
    rw [first]
    nofun
  | sign found =>
    rw [covers.1]
    exact some found covers.2
  | integer | float | opening => exact covers.1
  | newline | indent | dedent | finish | stray => cases has

/-- Says that the token has no text. -/
def Lexeme.isLayout : Lexeme → Bool
  | .newline | .indent | .dedent => true
  | _ => false

/-- The token is what comes next in the source after the cursor. -/
structure Lexed.From (source : Text) (cursor : Cursor) (lexed : Lexed) : Prop where
  extra : ∀ tree ∈ lexed.extras, tree.isExtra = true ∧ tree.hasError = false
  reached : ∃ middle, Lies source cursor.byte lexed.extras middle ∧
    Blank source middle lexed.start.byte ∧
    (lexed.lexeme.isLayout = true → middle = lexed.start.byte)
  within : lexed.start.Within source
  text : ∃ text, lexed.start.Reads text lexed.after.cursor ∧ lexed.lexeme.Covers text

theorem Tree.Lies.append {source : Text} {start middle stop : Nat} {left right : List Tree}
    (first : Lies source start left middle) (second : Lies source middle right stop) :
    Lies source start (left ++ right) stop := by
  induction left generalizing start with
  | nil => cases first; exact second
  | cons tree rest ih =>
    cases first with
    | cons gap sits later => exact .cons gap sits (ih later)

section

variable {source : Text} {cursor : Cursor}

/-- A comment reaches to the end of its line. -/
theorem comment_sits (within : cursor.Within source) {rest : Text} (hash : cursor.rest = '#' :: rest) :
    Sits source (commentTree cursor) := by
  have reads := Cursor.Reads.skipWhile (fun c => c != '\n') cursor
  obtain ⟨before, whole, place⟩ := reads.place within
  refine .leaf rfl whole place
    { simple := fun listed => absurd listed (by decide : ¬ Tree.constructs.contains "comment" = true)
      sign := nofun
      plain := fun _ => ⟨rfl, rfl⟩
      fresh := by rw [hash]; simp
      identifier := fun is => absurd is (by decide : "comment" ≠ "identifier")
      extra := fun _ => ⟨rfl, rfl⟩
      comment := fun _ => ⟨by simp [hash], List.all_takeWhile, ?_⟩
      continuation := fun is => absurd is (by decide : "comment" ≠ "line_continuation") }
    fun _ => rfl
  cases ahead : (cursor.skipWhile fun c => c != '\n').rest with
  | nil => exact .inl rfl
  | cons c rest =>
    have stop := Cursor.head_after (fun c => c != '\n') cursor ahead
    exact .inr (by simpa using stop)

/-- The text of a line continuation. -/
private theorem continuation_text {text : Text} (wide : 0 < continuationWidth text) :
    Tree.IsContinuation (text.take (continuationWidth text)) (text.drop (continuationWidth text)) := by
  rw [continuationWidth.eq_def] at wide ⊢
  split
  · exact .inr (.inr (.inr ⟨rfl, rfl⟩))
  · exact .inl rfl
  · exact .inr (.inl rfl)
  · next c _ _ _ =>
    split
    · next zero =>
      have null : c = Char.ofNat 0 := by
        rw [← eq_of_beq zero, Char.ofNat_toNat]
      exact .inr (.inr (.inl (by rw [null]; rfl)))
    · next other => simp [other] at wide
  · simp at wide

theorem continuation_sits (within : cursor.Within source) (wide : 0 < continuationWidth cursor.rest) :
    Sits source (Tree.leaf "line_continuation" true
      (cursor.spanTo (cursor.skip (continuationWidth cursor.rest)))) := by
  have reads := Cursor.Reads.skip (continuationWidth cursor.rest) cursor
  obtain ⟨before, whole, place⟩ := reads.place within
  have ahead : (cursor.skip (continuationWidth cursor.rest)).rest =
      cursor.rest.drop (continuationWidth cursor.rest) :=
    List.append_cancel_left (reads.rest.symm.trans (List.take_append_drop _ _).symm)
  have text := continuation_text wide
  rw [← ahead] at text
  generalize cursor.rest.take (continuationWidth cursor.rest) = taken at *
  refine .leaf rfl whole place
    { simple := fun listed =>
        absurd listed (by decide : ¬ Tree.constructs.contains "line_continuation" = true)
      sign := nofun
      plain := fun _ => ?_
      fresh := ?_
      identifier := fun is => absurd is (by decide : "line_continuation" ≠ "identifier")
      extra := fun _ => ⟨rfl, rfl⟩
      comment := fun is => absurd is (by decide : "line_continuation" ≠ "comment")
      continuation := fun _ => text }
    fun _ => rfl
  · rcases text with rfl | rfl | rfl | ⟨rfl, -⟩ <;> exact ⟨(ofLeaf_plain _ (by decide)).1, (ofLeaf_plain _ (by decide)).2.1⟩
  · rcases text with rfl | rfl | rfl | ⟨rfl, -⟩ <;> decide

/-- The cursor past a text that is ahead. -/
private theorem skip_text {text : Text} (ahead : text <+: cursor.rest) :
    cursor.Reads text (cursor.skip text.length) := by
  have reads := Cursor.Reads.skip text.length cursor
  rw [← List.prefix_iff_eq_take.mp ahead] at reads
  exact reads

private theorem continues_of_starts {c : Char} (starts : isIdentifierStart c = true) :
    isIdentifierContinue c = true := by
  rw [isIdentifierStart] at starts
  rw [isIdentifierContinue]
  split at starts
  · next ascii =>
    rw [if_pos ascii, Char.isAlphanum]
    simp only [Bool.or_eq_true] at starts ⊢
    exact starts.imp_left .inl
  · next other => rw [if_neg other, starts, Bool.true_or]

/-- A word, a numeral or a sign covers its text, if no blank is ahead. -/
theorem plainToken_reads (fresh : ∀ c rest, cursor.rest = c :: rest → isGap c = false) :
    (plainToken cursor).1.isLayout = false ∧
      ∃ text, cursor.Reads text (plainToken cursor).2 ∧ (plainToken cursor).1.Covers text := by
  rw [plainToken.eq_def]
  split
  · exact ⟨rfl, [], .here cursor, trivial⟩
  · next c rest ahead =>
    have numeral : ∀ {width : Nat}, 0 < width → cursor.rest.take width ≠ [] ∧
        (cursor.rest.take width).head? ≠ some '\n' := by
      intro width wide
      obtain ⟨more, rfl⟩ : ∃ more, width = more + 1 := ⟨width - 1, by omega⟩
      rw [ahead, List.take_succ_cons]
      refine ⟨nofun, fun same => ?_⟩
      have gap := fresh c rest ahead
      cases same
      exact absurd gap (by decide)
    split
    · next start =>
      refine ⟨rfl, _, skip_text (List.takeWhile_prefix _), (String.toList_ofList).symm, c,
        rest.takeWhile isIdentifierContinue, ?_, start⟩
      rw [ahead, List.takeWhile_cons, if_pos (continues_of_starts start)]
    · dsimp only
      split
      · next wide => exact ⟨rfl, _, .skip _ cursor, numeral (by omega)⟩
      · split
        · next wide => exact ⟨rfl, _, .skip _ cursor, numeral wide⟩
        · split
          · next sign found =>
            have fits := List.find?_some found
            have starts : sign.toList <+: cursor.rest := List.isPrefixOf_iff_prefix.mp fits
            refine ⟨rfl, sign.toList, ?_, rfl, List.mem_of_find?_eq_some found⟩
            have reads := skip_text starts
            rw [String.length_toList] at reads
            exact reads
          · exact ⟨rfl, [c], .next ahead, trivial⟩

/-- The opening of a string covers its text. -/
private theorem opening_reads {delimiter : Delimiter} {stop : Cursor}
    (found : opening? cursor = some (delimiter, stop)) :
    ∃ text, cursor.Reads text stop ∧ (Lexeme.opening delimiter).Covers text := by
  rw [opening?] at found
  have flags := Cursor.Reads.skipWhile isStringFlag cursor
  rw [Cursor.skipWhile] at flags
  generalize cursor.skip (cursor.rest.takeWhile isStringFlag).length = atQuote at found flags
  dsimp only at found
  split at found
  · cases found
  · next quote head =>
    split at found
    · next opens =>
      simp only [Option.some.injEq, Prod.mk.injEq] at found
      obtain ⟨-, rfl⟩ := found
      obtain ⟨rest, ahead⟩ := Cursor.ahead_of_head head
      refine ⟨_, flags.trans (.skip _ atQuote), ?_, ?_⟩
      · rw [ahead]
        split <;> simp
      · cases taken : cursor.rest.takeWhile isStringFlag with
        | nil =>
          have first : quote ≠ '\n' := fun same => absurd opens (by rw [same]; decide)
          rw [ahead]
          split <;> simpa using first
        | cons flag flags =>
          have is_flag : isStringFlag flag = true :=
            List.all_eq_true.mp List.all_takeWhile flag (by rw [taken]; exact List.mem_cons_self)
          have first : flag ≠ '\n' := fun same => absurd is_flag (by rw [same]; decide)
          simpa using first
    · cases found

/-- A string that opens behind blanks. -/
private theorem opening_past_margin {margin : Margin} {comments : Bool} {delimiter : Delimiter}
    {stop : Cursor} (within : cursor.Within source)
    (scanned : Margin.scan comments false { } cursor.rest = some margin)
    (clear : margin.comment = none)
    (opens : opening? (cursor.skip margin.width) = some (delimiter, stop)) :
    Blank source cursor.byte (cursor.skip margin.width).byte ∧
      ∃ text, (cursor.skip margin.width).Reads text stop ∧
        (Lexeme.opening delimiter).Covers text := by
  obtain ⟨width, size, used, after, whole, length, spans⟩ :=
    (Margin.scan_spacing scanned clear).2 rfl
  have reads := Cursor.Reads.skip margin.width cursor
  have taken : cursor.rest.take margin.width = used := by
    rw [whole, size, length]
    simp
  rw [taken] at reads
  have ahead : (cursor.skip margin.width).rest = after :=
    List.append_cancel_left (reads.rest.symm.trans whole)
  obtain ⟨text, own, covers⟩ := opening_reads opens
  have spacing : Spacing used := by
    rcases spans with spacing | ended
    · exact spacing
    · -- At the end of the source no string opens.
      have none := own.rest
      rw [ahead, ended] at none
      exact absurd (List.append_eq_nil_iff.mp none.symm).1 covers.1
  exact ⟨.of_reads within reads spacing, text, own, covers⟩

private theorem layout_of_margin {expect : Expect} {reader : Reader} {margin : Margin}
    {lexeme : Lexeme} (found : layoutToken? expect reader margin = some lexeme) :
    lexeme.Covers [] ∧ (reader.afterLayout margin lexeme).cursor = reader.cursor := by
  rw [layoutToken?] at found
  split at found
  · cases found
  split at found
  · cases found; exact ⟨rfl, rfl⟩
  split at found
  · cases found; exact ⟨rfl, rfl⟩
  split at found
  · cases found; exact ⟨rfl, rfl⟩
  · cases found

/-- The next token is what comes after the extras read before it. -/
theorem readToken_from {start : Cursor} (expect : Expect) (count : Nat) (extras : List Tree)
    (reader : Reader) (extra : ∀ tree ∈ extras, tree.isExtra = true ∧ tree.hasError = false)
    (lies : Lies source start.byte extras reader.cursor.byte)
    (within : reader.cursor.Within source) :
    (readToken expect count extras reader).From source start := by
  induction count generalizing extras reader with
  | zero =>
    exact ⟨extra, ⟨_, lies, .here within.boundary, fun _ => rfl⟩, within, [], .here _, trivial⟩
  | succ count ih =>
    have past : Blank source reader.cursor.byte (reader.cursor.skipWhile isGap).byte :=
      .past_gaps within
    have next := (Cursor.Reads.skipWhile isGap reader.cursor).within within
    -- One more comment or line continuation that ends where reading goes on.
    have further : ∀ (tree : Tree) (stop : Cursor), tree.isExtra = true ∧ tree.hasError = false →
        Sits source tree → tree.span.startByte = (reader.cursor.skipWhile isGap).byte →
        tree.span.endByte = stop.byte → stop.Within source →
        (readToken expect count (extras ++ [tree]) { reader with cursor := stop }).From
          source start := by
      intro tree stop skipped sits starts ends stop_within
      refine ih _ _ ?_ (lies.append (.cons (by rw [starts]; exact past) sits ?_)) stop_within
      · intro other mem
        rcases List.mem_append.mp mem with before | last
        · exact extra other before
        · rw [List.mem_singleton.mp last]
          exact skipped
      · rw [ends]
        exact .nil
    rw [readToken]
    dsimp only
    split
    · next margin lexeme found =>
      obtain ⟨m, scanned, mapped⟩ := Option.bind_eq_some_iff.mp found
      obtain ⟨token, is, same⟩ := Option.map_eq_some_iff.mp mapped
      cases same
      obtain ⟨covers, stays⟩ := layout_of_margin is
      refine ⟨extra, ⟨_, lies, .here within.boundary, fun _ => rfl⟩, within, [], ?_, covers⟩
      rw [stays]
      exact .here _
    · split
      · next begin delimiter stop found =>
        obtain ⟨margin, scanned, rest⟩ := Option.bind_eq_some_iff.mp found
        split at rest
        · next asked =>
          obtain ⟨pair, opens, same⟩ := Option.map_eq_some_iff.mp rest
          cases same
          have clear : margin.comment = none := by
            simpa using (Bool.and_eq_true_iff.mp asked).2
          obtain ⟨blank, text, own, covers⟩ := opening_past_margin within scanned clear opens
          exact ⟨extra, ⟨_, lies, blank, nofun⟩, (Cursor.Reads.skip _ _).within within, text, own,
            covers⟩
        · cases rest
      · split
        · next hash =>
          obtain ⟨rest, ahead⟩ := Cursor.ahead_of_head (eq_of_beq hash)
          exact further _ _ ⟨rfl, rfl⟩ (comment_sits next ahead) rfl rfl
            ((Cursor.Reads.skipWhile _ _).within next)
        · split
          · next wide =>
            exact further _ _ ⟨rfl, rfl⟩ (continuation_sits next wide) rfl rfl
              ((Cursor.Reads.skip _ _).within next)
          · obtain ⟨plain, text, own, covers⟩ := plainToken_reads fun c rest ahead =>
              Cursor.head_after isGap reader.cursor ahead
            exact ⟨extra, ⟨_, lies, past, fun layout => absurd layout (by simp [plain])⟩, next, text,
              own, covers⟩

/-- Every token that is read comes next in the source. -/
theorem Reader.read_from (reader : Reader) (expect : Expect) (within : reader.cursor.Within source) :
    (reader.read expect).From source reader.cursor :=
  readToken_from expect _ [] reader nofun .nil within

end

end LambdaLayout.Python
