import LambdaLayout.Proofs.TokenPartition

/-!
Two ways to count rows. The trees of a source count the line feeds before a place. The tokens take
over the row in which a leaf ends, and in the blanks that follow they also count a carriage return
that has no line feed after it. So a token is in the row of its line, and further by the number of
such carriage returns among the blanks right before it.
-/

namespace LambdaLayout

open LambdaLayout.Python (Parsed Tree placeAfter)
open LambdaLayout.Python.Tree (Sits Spread)
open LambdaLayout.Text (Boundary Holds byteLength)

/-- The number of line feeds between two offsets. -/
def lineBreaks (source : Text) (start stop : Nat) : Nat :=
  ((Text.slice? source start stop).getD []).count '\n'

/-- The number of carriage returns without a line feed after them. -/
def loneReturns : Text → Nat
  | [] => 0
  | '\r' :: '\n' :: rest => loneReturns rest
  | c :: rest => (if c == '\r' then 1 else 0) + loneReturns rest

/-- The rows that a text adds to a token: its line feeds, and its lone carriage returns. -/
def rowsOf (text : Text) : Nat := text.count '\n' + loneReturns text

/-- The text of the blanks right before a token. -/
def GapBefore (tokens : List Token) (token : Token) (gap : Text) : Prop :=
  ∃ front blanks back, tokens = front ++ (blanks ++ token :: back) ∧
    (∀ blank ∈ blanks, blank.isBlank = true) ∧ (∀ last ∈ front.getLast?, last.isBlank = false) ∧
    gap = blanks.flatMap Token.text

section Lines

variable {source text : Text} {start middle stop : Nat}

theorem lineBreaks_eq (held : Holds source start text stop) :
    lineBreaks source start stop = text.count '\n' := by
  rw [lineBreaks, Text.slice?_iff.mpr held, Option.getD_some]

/-- The line feeds before a place are those before an earlier place, and those in between. -/
theorem lineBreaks_add (first : Boundary source start) (second : Boundary source stop)
    (ordered : start ≤ stop) :
    lineBreaks source 0 stop = lineBreaks source 0 start + lineBreaks source start stop := by
  obtain ⟨text, held⟩ := Text.holds_between first second ordered
  obtain ⟨before, after, whole, rfl, rfl⟩ := held
  have front : Holds source 0 before (byteLength before) :=
    ⟨[], text ++ after, by rw [whole]; simp, rfl, by simp⟩
  have upto : Holds source 0 (before ++ text) (byteLength (before ++ text)) :=
    ⟨[], after, by rw [whole]; simp, rfl, by simp⟩
  have inner : Holds source (byteLength before) text (byteLength (before ++ text)) :=
    ⟨before, after, whole, rfl, rfl⟩
  rw [lineBreaks_eq front, lineBreaks_eq upto, lineBreaks_eq inner, List.count_append]

private theorem foldl_row (text : Text) (position : Position) :
    (text.foldl Position.after position).row = position.row + text.count '\n' := by
  induction text generalizing position with
  | nil => rfl
  | cons c text ih =>
    rw [List.foldl_cons, ih, Position.after, List.count_cons]
    cases c == '\n' <;> simp
    omega

theorem placeAfter_row (text : Text) : (placeAfter text).row = text.count '\n' := by
  rw [placeAfter, foldl_row]
  exact Nat.zero_add _

/-- A tree starts and ends in the rows of its lines. -/
theorem Python.Tree.Sits.rows {tree : Tree} (sits : Sits source tree) :
    tree.span.start.row = lineBreaks source 0 tree.span.startByte ∧
      tree.span.stop.row = lineBreaks source 0 tree.span.endByte := by
  have place : ∃ before content after, source = before ++ content ++ after ∧
      tree.span = Python.spanOver before content := by
    cases sits with
    | leaf _ whole place | node _ whole place => exact ⟨_, _, _, whole, place⟩
  obtain ⟨before, content, after, whole, place⟩ := place
  have front : Holds source 0 before (byteLength before) :=
    ⟨[], content ++ after, by rw [whole]; simp, rfl, by simp⟩
  have upto : Holds source 0 (before ++ content) (byteLength (before ++ content)) :=
    ⟨[], after, by rw [whole]; simp, rfl, by simp⟩
  rw [place]
  exact ⟨(placeAfter_row before).trans (lineBreaks_eq front).symm,
    (placeAfter_row _).trans (lineBreaks_eq upto).symm⟩

end Lines

namespace Token

section Gaps

variable {front text rest : Text} {c : Char} {pieces : List (TokenKind × Text)}

theorem rowsOf_pair (rest : Text) : rowsOf ('\r' :: '\n' :: rest) = 1 + rowsOf rest := by
  rw [rowsOf, rowsOf, loneReturns]
  simp
  omega

/-- Each line feed adds a row, and each carriage return that no line feed follows. -/
theorem rowsOf_cons (alone : ∀ rest', c = '\r' → rest = '\n' :: rest' → False) :
    rowsOf (c :: rest) = (if c == '\n' || c == '\r' then 1 else 0) + rowsOf rest := by
  rw [rowsOf, rowsOf, loneReturns, List.count_cons]
  · by_cases feed : c = '\n'
    · subst feed
      simp
      omega
    · by_cases back : c = '\r'
      · subst back
        simp
        omega
      · simp [feed, back]
  · exact alone

/-- The row of a token goes on by the rows of its text. -/
theorem advance_row (position : Position) (text : Text) :
    (advance position text).row = position.row + rowsOf text := by
  fun_induction advance position text with
  | case1 => rfl
  | case2 position rest ih =>
    rw [ih, rowsOf_pair]
    dsimp only
    omega
  | case3 position c rest alone breaks ih =>
    rw [ih, rowsOf_cons alone, if_pos breaks]
    dsimp only
    omega
  | case4 position c rest alone other ih => rw [ih, rowsOf_cons alone, if_neg other, Nat.zero_add]

/-- The rows of two texts add up, unless a carriage return and a line feed come together. -/
theorem rowsOf_append (apart : front.getLast? = some '\r' → text.head? ≠ some '\n') :
    rowsOf (front ++ text) = rowsOf front + rowsOf text := by
  induction front using loneReturns.induct with
  | case1 => simp [rowsOf, loneReturns]
  | case2 rest ih =>
    rw [List.cons_append, List.cons_append, rowsOf_pair, rowsOf_pair, ih, Nat.add_assoc]
    intro last
    cases rest with
    | nil => cases last
    | cons d rest => exact apart (by rw [← last, List.getLast?_cons_cons, List.getLast?_cons_cons])
  | case3 c rest alone ih =>
    have later : rest.getLast? = some '\r' → text.head? ≠ some '\n' := by
      intro last
      cases rest with
      | nil => cases last
      | cons d rest => exact apart (by rw [← last, List.getLast?_cons_cons])
    rw [List.cons_append, rowsOf_cons, rowsOf_cons alone, ih later, Nat.add_assoc]
    intro rest' back feed
    cases rest with
    | nil => exact apart (by rw [back]; rfl) (by rw [show text = _ from feed]; rfl)
    | cons d rest =>
      obtain ⟨rfl, -⟩ := List.cons.inj feed
      exact alone rest back rfl

/-- The rows that the pieces of a gap add. -/
private def rowsIn : List (TokenKind × Text) → Nat
  | [] => 0
  | (_, text) :: rest => rowsOf text + rowsIn rest

/-- Pieces that count the rows of a gap: their own rows are those of the gap, and no blanks start
with a line feed, which could complete a pair. -/
private structure Counts (pieces : List (TokenKind × Text)) (gap : Text) : Prop where
  rows : rowsIn pieces = rowsOf gap
  apart : ∀ blanks, (TokenKind.whitespace, blanks) ∈ pieces → blanks.head? ≠ some '\n'

private theorem Counts.line_break (counts : Counts pieces rest)
    (fits : rowsOf text + rowsOf rest = rowsOf (text ++ rest)) :
    Counts ((.newline, text) :: pieces) (text ++ rest) := by
  refine ⟨by rw [rowsIn, counts.rows, fits], fun blanks mem => ?_⟩
  rcases List.mem_cons.mp mem with same | later
  · cases same
  · exact counts.apart blanks later

private theorem Counts.joined (counts : Counts pieces rest) (first : c ≠ '\n')
    (apart : (c :: front).getLast? = some '\r' → rest.head? ≠ some '\n') :
    Counts (joinBlanks (c :: front) pieces) (c :: front ++ rest) := by
  rw [joinBlanks.eq_def]
  split
  · next text others =>
    refine ⟨?_, fun blanks mem => ?_⟩
    · rw [rowsOf_append apart, ← counts.rows, rowsIn, rowsIn,
        rowsOf_append fun _ => counts.apart text List.mem_cons_self, Nat.add_assoc]
    · rcases List.mem_cons.mp mem with same | later
      · cases same
        simpa using first
      · exact counts.apart blanks (List.mem_cons_of_mem _ later)
  · refine ⟨?_, fun blanks mem => ?_⟩
    · rw [rowsOf_append apart, ← counts.rows, rowsIn]
    · rcases List.mem_cons.mp mem with same | later
      · cases same
        simpa using first
      · exact counts.apart blanks later

/-- Cut into pieces, a gap has the same rows. -/
private theorem splitGap_counts (gap : Text) : Counts (splitGap gap) gap := by
  have alone {rest : Text} (other : ∀ rest', rest = '\n' :: rest' → False) :
      rest.head? ≠ some '\n' := by
    intro feed
    obtain ⟨rest', same⟩ := List.head?_eq_some_iff.mp feed
    exact other rest' same
  fun_induction splitGap gap with
  | case1 => exact ⟨rfl, by simp⟩
  | case2 rest ih | case3 rest ih =>
    exact ih.line_break (rowsOf_append fun last => absurd last (by decide)).symm
  | case4 rest other ih => exact ih.line_break (rowsOf_append fun _ => alone other).symm
  | case5 rest ih | case6 rest ih =>
    exact ih.joined (by decide) fun last => absurd last (by decide)
  | case7 rest other ih => exact ih.joined (by decide) fun _ => alone other
  | case8 c rest _ feed back _ _ _ ih =>
    exact ih.joined feed fun last => absurd (Option.some.inj last) back

private theorem ofPieces_row (byte : Nat) (position : Position) :
    (endPosition position (ofPieces byte position pieces)).row =
      position.row + rowsIn pieces := by
  induction pieces generalizing byte position with
  | nil => rfl
  | cons piece rest ih =>
    rw [ofPieces, endPosition_cons, ih, advance_row, rowsIn, Nat.add_assoc]

/-- Behind the tokens of a gap the row has gone on by the rows of the gap. -/
theorem ofGap_row (byte : Nat) (position : Position) (gap : Text) :
    (endPosition position (ofGap byte position gap)).row = position.row + rowsOf gap := by
  rw [ofGap, ofPieces_row, (splitGap_counts gap).rows]

end Gaps

end Token

section Placed

variable {source gap : Text} {start stop byte : Nat} {leaves : List Tree} {token : Token}
  {front tokens : List Token}

/-- What comes before a token that is not blank does not matter to the blanks behind it. -/
theorem GapBefore.after (found : GapBefore tokens token gap)
    (solid : ∀ last ∈ front.getLast?, last.isBlank = false) :
    GapBefore (front ++ tokens) token gap := by
  obtain ⟨inner, blanks, back, rfl, blank, ends, text⟩ := found
  refine ⟨front ++ inner, blanks, back, by rw [List.append_assoc], blank, fun last mem => ?_, text⟩
  rw [List.getLast?_append] at mem
  cases known : inner.getLast? with
  | some other =>
    rw [known] at mem
    exact ends last (by rw [known]; exact mem)
  | none =>
    rw [known] at mem
    exact solid last mem

namespace Token

/-- The tokens that leaves spread over the source make stand in the rows of their lines, moved on by
the lone carriage returns before them. The last token before them, if any, is that of a leaf. -/
private theorem ofLeaves_row (spread : Tree.Spread source start leaves stop) {position : Position}
    (boundary : Boundary source byte) (reached : byte ≤ start)
    (row : position.row = lineBreaks source 0 byte)
    (mem : token ∈ ofLeaves source byte position leaves) (solid : token.isBlank = false) :
    ∃ gap, GapBefore (ofLeaves source byte position leaves) token gap ∧
      token.span.start.row = lineBreaks source 0 token.span.startByte + loneReturns gap := by
  have blank (byte : Nat) (position : Position) (gap : Text) :
      ∀ token ∈ ofGap byte position gap, token.isBlank = true := by
    intro token mem
    simpa using List.filter_eq_nil_iff.mp (ofGap_blank byte position gap) token mem
  induction spread generalizing byte position with
  | nil =>
    rw [ofLeaves] at mem
    split at mem
    · rw [blank _ _ _ token mem] at solid
      cases solid
    · cases mem
  | @cons start stop leaf leaves gap sits closed _ ih =>
    have held := sits.holds
    have upto := Nat.le_trans reached gap.ordered
    rcases ofLeaves_leaf sits boundary upto position leaves with
      ⟨-, same⟩ | ⟨-, between, found, same⟩
    · rw [same] at mem ⊢
      exact ih boundary (Nat.le_trans upto held.ordered) row mem
    · rw [same] at mem ⊢
      rcases List.mem_append.mp mem with inside | behind
      · rw [blank _ _ _ token inside] at solid
        cases solid
      rcases List.mem_cons.mp behind with rfl | later
      · refine ⟨between, ⟨[], _, _, rfl, blank _ _ _, by simp, ?_⟩, ?_⟩
        · exact (((ofGap_runs found position).holds boundary).unique found).symm
        · rw [lineBreaks_add boundary held.boundaries.1 upto, lineBreaks_eq found, Nat.add_assoc,
            ← row]
          exact ofGap_row byte position between
      · obtain ⟨gap, before, moved⟩ :=
          ih held.boundaries.2 (Nat.le_refl _) sits.rows.2 later
        refine ⟨gap, ?_, moved⟩
        rw [List.append_cons]
        refine before.after fun last mem => ?_
        rw [List.getLast?_append] at mem
        cases mem
        have other := ofLeaf_is_solid leaf.kind (leaf.text source)
        simp [isBlank, other.1, other.2]

/-- A token of a grammatical source is in the row of its line, moved on by the lone carriage returns
among the blanks before it. -/
theorem tokenize_row {parsed : Parsed} (grammatical : parsed.Grammatical)
    (mem : token ∈ tokenize parsed) (solid : token.isBlank = false) :
    ∃ gap, GapBefore (tokenize parsed) token gap ∧
      token.span.start.row =
        lineBreaks parsed.source 0 token.span.startByte + loneReturns gap := by
  obtain ⟨start, stop, leaves, spread, tokens, -⟩ := tokenize_spread grammatical
  have origin : Boundary parsed.source 0 := ⟨[], parsed.source, rfl, rfl⟩
  have none : Holds parsed.source 0 [] 0 := ⟨[], parsed.source, rfl, rfl, rfl⟩
  have first : Position.origin.row = lineBreaks parsed.source 0 0 := (lineBreaks_eq none).symm
  rw [tokens] at mem ⊢
  exact ofLeaves_row spread origin (Nat.zero_le _) first mem solid

end Token

end Placed

end LambdaLayout
