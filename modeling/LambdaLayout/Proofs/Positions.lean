import LambdaLayout.Proofs.Rows
import Mathlib.Data.List.DropRight

/-!
The positions of the tokens. The position of an offset is the number of line feeds before it and the
number of bytes since the last of them. The tree of a source gives the positions at which its leaves
end, and the blanks between leaves are counted along, with a rule of their own for carriage returns.
Where every carriage return stands before a line feed, and no leaf starts between the two, the two
ways of counting agree at the ends of all tokens.
-/

namespace LambdaLayout

open LambdaLayout.Python (Parsed Tree placeAfter)
open LambdaLayout.Text (Boundary Holds byteLength)

/-- The part of a text before a byte offset. A character that the offset cuts is left out. -/
def Text.upTo : Text → Nat → Text
  | [], _ => []
  | c :: rest, offset =>
    if c.utf8Size ≤ offset then c :: upTo rest (offset - c.utf8Size) else []

/-- The position of a byte offset: the number of line feeds before it, and the number of bytes since
the last of these line feeds. -/
def positionOf (source : Text) (offset : Nat) : Position :=
  let before := Text.upTo source offset
  ⟨before.count '\n', offset - byteLength (before.rdropWhile (· != '\n'))⟩

/-- Every carriage return of the text has a line feed right after it. -/
def ReturnsPaired (text : Text) : Prop :=
  ∀ before after, text = before ++ '\r' :: after → after.head? = some '\n'

/-- The offset lies between a carriage return and the line feed right after it. -/
def SplitsPair (source : Text) (offset : Nat) : Prop :=
  Text.slice? source (offset - 1) (offset + 1) = some ['\r', '\n']

instance (source : Text) (offset : Nat) : Decidable (SplitsPair source offset) :=
  inferInstanceAs (Decidable (Text.slice? source (offset - 1) (offset + 1) = some ['\r', '\n']))

section Counting

variable {source text before after : Text} {start stop : Nat}

theorem Text.upTo_append (before after : Text) :
    Text.upTo (before ++ after) (byteLength before) = before := by
  induction before with
  | nil =>
    cases after with
    | nil => rfl
    | cons c after =>
      have positive := c.utf8Size_pos
      rw [List.nil_append, Text.upTo, Text.byteLength_nil, if_neg (by omega)]
  | cons c before ih =>
    rw [List.cons_append, Text.upTo, Text.byteLength_cons, if_pos (Nat.le_add_right _ _),
      Nat.add_sub_cancel_left, ih]

/-- The position reached after a text has the bytes behind its last line feed as the column. -/
theorem placeAfter_column (text : Text) :
    (placeAfter text).column = byteLength text - byteLength (text.rdropWhile (· != '\n')) := by
  induction text using List.reverseRecOn with
  | nil => rfl
  | append_singleton text c ih =>
    rw [placeAfter, List.foldl_append, ← placeAfter, List.foldl_cons, List.foldl_nil,
      Position.after, List.rdropWhile_concat, Text.byteLength_append]
    by_cases feed : c = '\n'
    · simp [feed]
    · have shorter : byteLength (text.rdropWhile (· != '\n')) ≤ byteLength text := by
        obtain ⟨line, split⟩ := List.rdropWhile_prefix (· != '\n') text
        have sum := congrArg byteLength split
        rw [Text.byteLength_append] at sum
        omega
      simp [feed, ih]
      omega

/-- The position of an offset between two characters is the one reached after the text before it. -/
theorem positionOf_eq (before after : Text) :
    positionOf (before ++ after) (byteLength before) = placeAfter before := by
  rw [positionOf, Text.upTo_append, ← placeAfter_row, ← placeAfter_column]

theorem Text.Holds.positionOf (held : Holds source start text stop) :
    positionOf source stop = text.foldl Position.after (positionOf source start) := by
  obtain ⟨before, after, rfl, rfl, rfl⟩ := held
  rw [positionOf_eq (before ++ text) after, List.append_assoc, positionOf_eq, placeAfter,
    List.foldl_append, placeAfter]

theorem positionOf_zero (source : Text) : positionOf source 0 = Position.origin :=
  positionOf_eq [] source

/-- The position does not go back along a text. -/
theorem Position.le_after (position : Position) (text : Text) :
    position.row < (text.foldl Position.after position).row ∨
      position.row = (text.foldl Position.after position).row ∧
        position.column ≤ (text.foldl Position.after position).column := by
  induction text generalizing position with
  | nil => exact .inr ⟨rfl, Nat.le_refl _⟩
  | cons c text ih =>
    have next : position.row < (position.after c).row ∨
        position.row = (position.after c).row ∧ position.column ≤ (position.after c).column := by
      rw [Position.after]
      split
      · exact .inl (Nat.lt_succ_self _)
      · exact .inr ⟨rfl, Nat.le_add_right _ _⟩
    have later := ih (position.after c)
    rw [List.foldl_cons]
    omega

theorem Position.compare_isLE {left right : Position} : (left.compare right).isLE = true ↔
    left.row < right.row ∨ left.row = right.row ∧ left.column ≤ right.column := by
  rw [Position.compare, Ordering.isLE_then_iff_and]
  simp only [Nat.isLE_compare, Nat.compare_eq_lt]
  omega

end Counting

section Returns

variable {source text front rest : Text} {start stop : Nat} {c : Char}

theorem loneReturns_cons (other : c ≠ '\r') (rest : Text) :
    loneReturns (c :: rest) = loneReturns rest := by
  rw [loneReturns]
  · simp [other]
  · rintro rest' rfl
    exact absurd rfl other

/-- All carriage returns are paired exactly if none is alone. -/
theorem returnsPaired_iff : ReturnsPaired text ↔ loneReturns text = 0 := by
  constructor
  · intro paired
    fun_induction loneReturns text with
    | case1 => rfl
    | case2 rest ih =>
      exact ih fun before after whole => paired ('\r' :: '\n' :: before) after (by rw [whole]; rfl)
    | case3 c rest alone ih =>
      have later := ih fun before after whole => paired (c :: before) after (by rw [whole]; rfl)
      have other : c ≠ '\r' := by
        rintro rfl
        obtain ⟨rest', same⟩ := List.head?_eq_some_iff.mp (paired [] rest rfl)
        exact alone rest' rfl same
      simp [other, later]
  · intro none
    fun_induction loneReturns text with
    | case1 =>
      intro before after whole
      simp at whole
    | case2 rest ih =>
      intro before after whole
      match before, whole with
      | [], whole => rw [← (List.cons.inj whole).2]; rfl
      | [_], whole => exact absurd (List.cons.inj (List.cons.inj whole).2).1 (by decide)
      | _ :: _ :: before, whole =>
        exact ih none before after (List.cons.inj (List.cons.inj whole).2).2
    | case3 c rest alone ih =>
      obtain ⟨own, later⟩ := Nat.add_eq_zero_iff.mp none
      intro before after whole
      match before, whole with
      | [], whole =>
        obtain ⟨rfl, -⟩ := List.cons.inj whole
        exact absurd own (by decide)
      | _ :: before, whole => exact ih later before after (List.cons.inj whole).2

/-- A stretch of the source that does not end inside a pair has all its carriage returns paired. -/
theorem ReturnsPaired.stretch (paired : ReturnsPaired source) (held : Holds source start text stop)
    (whole : ¬ SplitsPair source stop) : ReturnsPaired text := by
  obtain ⟨front, back, rfl, -, rfl⟩ := held
  rintro before after rfl
  have next := paired (front ++ before) (after ++ back) (by simp)
  cases after with
  | cons c after => exact next
  | nil =>
    obtain ⟨back', rfl⟩ := List.head?_eq_some_iff.mp next
    have size : byteLength (front ++ (before ++ ['\r'])) = byteLength (front ++ before) + 1 := by
      rw [← List.append_assoc, Text.byteLength_append]
      rfl
    refine absurd (Text.slice?_iff.mpr ⟨front ++ before, back', by simp, ?_, ?_⟩) whole
    · rw [size, Nat.add_sub_cancel]
    · rw [size, Text.byteLength_append]
      rfl

/-- Where all carriage returns are paired, only line feeds start rows. -/
theorem Token.advance_eq (position : Position) (paired : loneReturns text = 0) :
    advance position text = text.foldl Position.after position := by
  fun_induction advance position text with
  | case1 => rfl
  | case2 position rest ih =>
    rw [ih paired]
    rfl
  | case3 position c rest alone breaks ih =>
    rw [loneReturns] at paired
    · obtain ⟨own, later⟩ := Nat.add_eq_zero_iff.mp paired
      have feed : c = '\n' := by
        by_contra other
        simp [other] at breaks
        simp [breaks] at own
      rw [ih later, List.foldl_cons, Position.after, if_pos (by simp [feed])]
    · exact alone
  | case4 position c rest alone other ih =>
    have kept : c ≠ '\n' ∧ c ≠ '\r' := by simpa using other
    rw [ih (loneReturns_cons kept.2 rest ▸ paired), List.foldl_cons, Position.after,
      if_neg (by simp [kept.1])]

end Returns

namespace Token

variable {source gap text : Text} {byte stop : Nat} {position : Position}
  {pieces : List (TokenKind × Text)} {leaves : List Tree}

/-- The token starts and ends at the positions of its offsets. -/
def IsPositioned (source : Text) (token : Token) : Prop :=
  token.span.start = positionOf source token.span.startByte ∧
    token.span.stop = positionOf source token.span.endByte

private theorem joinBlanks_paired {front : Text}
    (adds : ∀ text, loneReturns (front ++ text) = loneReturns text)
    (paired : ∀ piece ∈ pieces, loneReturns piece.2 = 0) :
    ∀ piece ∈ joinBlanks front pieces, loneReturns piece.2 = 0 := by
  intro piece mem
  rw [joinBlanks.eq_def] at mem
  split at mem
  · rcases List.mem_cons.mp mem with rfl | later
    · rw [adds]
      exact paired _ List.mem_cons_self
    · exact paired piece (List.mem_cons_of_mem _ later)
  · rcases List.mem_cons.mp mem with rfl | later
    · simpa [loneReturns] using adds []
    · exact paired piece later

/-- No piece of a gap takes a carriage return away from its line feed. -/
theorem splitGap_paired (paired : loneReturns gap = 0) :
    ∀ piece ∈ splitGap gap, loneReturns piece.2 = 0 := by
  -- A carriage return without a line feed after it is no part of such a gap.
  have lone {rest : Text} (other : ∀ rest', rest = '\n' :: rest' → False) :
      loneReturns ('\r' :: rest) ≠ 0 := by
    rw [loneReturns]
    · simp
    · exact fun rest' _ => other rest'
  fun_induction splitGap gap with
  | case1 => simp
  | case2 rest ih =>
    exact List.forall_mem_cons.mpr ⟨rfl, ih paired⟩
  | case3 rest ih =>
    rw [loneReturns_cons (by decide)] at paired
    exact List.forall_mem_cons.mpr ⟨rfl, ih paired⟩
  | case4 rest other ih => exact absurd paired (lone other)
  | case5 rest ih =>
    rw [loneReturns_cons (by decide)] at paired
    exact joinBlanks_paired (fun text => loneReturns_cons (c := '\\') (by decide) _) (ih paired)
  | case6 rest ih =>
    rw [loneReturns_cons (by decide), loneReturns_cons (by decide)] at paired
    refine joinBlanks_paired (fun text => ?_) (ih paired)
    rw [List.cons_append, loneReturns_cons (by decide)]
    exact loneReturns_cons (by decide) _
  | case7 rest other ih =>
    rw [loneReturns_cons (by decide)] at paired
    exact absurd paired (lone other)
  | case8 c rest _ _ back _ _ _ ih =>
    rw [loneReturns_cons back] at paired
    exact joinBlanks_paired (fun text => loneReturns_cons back _) (ih paired)

private theorem ofPieces_positioned (paired : ∀ piece ∈ pieces, loneReturns piece.2 = 0)
    (held : Holds source byte (pieces.flatMap Prod.snd) stop)
    (here : position = positionOf source byte) :
    (∀ token ∈ ofPieces byte position pieces, IsPositioned source token) ∧
      endPosition position (ofPieces byte position pieces) = positionOf source stop := by
  induction pieces generalizing byte position with
  | nil =>
    have same : byte = stop := held.empty
    exact ⟨nofun, same ▸ here⟩
  | cons piece rest ih =>
    obtain ⟨kind, text⟩ := piece
    obtain ⟨own, others⟩ := List.forall_mem_cons.mp paired
    rw [List.flatMap_cons] at held
    obtain ⟨first, later⟩ := held.of_append
    have after : advance position text = positionOf source (byte + byteLength text) := by
      rw [advance_eq position own, here, first.positionOf]
    obtain ⟨placed, last⟩ := ih others later after
    rw [ofPieces, endPosition_cons]
    exact ⟨List.forall_mem_cons.mpr ⟨⟨here, after⟩, placed⟩, last⟩

/-- The tokens of a gap start and end at the positions of their offsets. -/
private theorem ofGap_positioned (paired : ReturnsPaired source)
    (held : Holds source byte gap stop) (whole : ¬ SplitsPair source stop)
    (here : position = positionOf source byte) :
    (∀ token ∈ ofGap byte position gap, IsPositioned source token) ∧
      endPosition position (ofGap byte position gap) = positionOf source stop := by
  have alone : loneReturns gap = 0 := returnsPaired_iff.mp (paired.stretch held whole)
  rw [← splitGap_text gap] at held
  exact ofPieces_positioned (splitGap_paired alone) held here

/-- From a place with its position on, all tokens start and end at the positions of their offsets,
if the leaves still to come end at theirs. -/
private theorem ofLeaves_positioned (paired : ReturnsPaired source)
    (ends : ∀ leaf ∈ leaves, leaf.span.stop = positionOf source leaf.span.endByte)
    (apart : ∀ leaf ∈ leaves, ¬ SplitsPair source leaf.span.startByte)
    (here : position = positionOf source byte) :
    ∀ token ∈ ofLeaves source byte position leaves, IsPositioned source token := by
  induction leaves generalizing byte position with
  | nil =>
    rw [ofLeaves]
    split
    · next gap found =>
      have held := Text.slice?_iff.mp found
      have end_whole : ¬ SplitsPair source (byteLength source) := fun split =>
        absurd (Text.slice?_iff.mp split).bounded (Nat.not_succ_le_self _)
      exact (ofGap_positioned paired held end_whole here).1
    · exact List.forall_mem_nil _
  | cons leaf rest ih =>
    obtain ⟨own_end, ends⟩ := List.forall_mem_cons.mp ends
    obtain ⟨own_start, apart⟩ := List.forall_mem_cons.mp apart
    rw [ofLeaves]
    split
    · exact ih ends apart here
    cases before : Text.slice? source byte leaf.span.startByte with
    | none => exact ih ends apart here
    | some gap =>
      obtain ⟨blanks, start⟩ :=
        ofGap_positioned paired (Text.slice?_iff.mp before) own_start here
      dsimp only
      cases Text.slice? source leaf.span.startByte leaf.span.endByte with
      | none => exact List.forall_mem_append.mpr ⟨blanks, ih ends apart start⟩
      | some text =>
        exact List.forall_mem_append.mpr
          ⟨blanks, List.forall_mem_cons.mpr ⟨⟨start, own_end⟩, ih ends apart own_end⟩⟩

/-- If every carriage return of a source stands before a line feed, and the leaves of its tree end
at the positions of their offsets and do not start inside such a pair, then every token starts and
ends at the positions of its offsets, the end not before the start. -/
theorem tokenize_positions {parsed : Parsed} (paired : ReturnsPaired parsed.source)
    (ends : ∀ leaf ∈ parsed.tree.leaves,
      leaf.span.stop = positionOf parsed.source leaf.span.endByte)
    (apart : ∀ leaf ∈ parsed.tree.leaves, ¬ SplitsPair parsed.source leaf.span.startByte) :
    ∀ token ∈ tokenize parsed,
      token.span.start = positionOf parsed.source token.span.startByte ∧
        token.span.stop = positionOf parsed.source token.span.endByte ∧
        (token.span.start.compare token.span.stop).isLE = true := by
  intro token mem
  obtain ⟨start, stop⟩ :=
    ofLeaves_positioned paired ends apart (positionOf_zero parsed.source).symm token mem
  refine ⟨start, stop, Position.compare_isLE.mpr ?_⟩
  have held := Text.slice?_iff.mp ((tokenize_partitions parsed).slices token mem)
  rw [stop, held.positionOf, ← start]
  exact Position.le_after token.span.start token.text

/-- The comment ends between a carriage return and its line feed, and the gap after the sign holds a
continuation. -/
theorem tokenize_positions_continued :
    let parsed := Python.parse "x = \\\r\n\t(é,  # c\r\n 1)\r\n".toList
    ReturnsPaired parsed.source ∧ parsed.source.count '\r' = 3 ∧
      ∀ token ∈ tokenize parsed,
        token.span.start = positionOf parsed.source token.span.startByte ∧
          token.span.stop = positionOf parsed.source token.span.endByte ∧
          (token.span.start.compare token.span.stop).isLE = true := by
  intro parsed
  have paired : ReturnsPaired parsed.source := returnsPaired_iff.mpr (by decide)
  exact ⟨paired, by decide, tokenize_positions paired (by decide +kernel) (by decide +kernel)⟩

end Token

end LambdaLayout
