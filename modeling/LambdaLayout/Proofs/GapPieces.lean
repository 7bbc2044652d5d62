import LambdaLayout.Proofs.TokenPartition

/-!
The text between two leaves is cut up from its front. A scan over the characters finds how many
bytes the first token takes, that token is cut off, and what is left is cut up in the same way, until
nothing is left. A cut never falls inside a character and always takes something away, so that the
cutting comes to an end, and the tokens cut off are those of the gap. What one cut takes off, and
what the rest can start with after it, is said once (`Leads`); the rules for the whole list follow.
-/

namespace LambdaLayout

namespace Token

open LambdaLayout.Text (byteLength splitAtByte byteLength_append byteLength_nil)

/-- Scans a run of blanks: the text starts at an index counted from the start of the run, and the size
is that of the run as far as it is known. A line break after a backslash belongs to the run, any
other one ends it. -/
def scanBlanks (index size : Nat) : Text → Nat
  | [] => size
  | '\\' :: '\r' :: '\n' :: rest => scanBlanks (index + 3) (index + 1 + 1 + 1) rest
  | '\\' :: '\r' :: rest => scanBlanks (index + 2) (index + 1 + 1) rest
  | '\\' :: '\n' :: rest => scanBlanks (index + 2) (index + 1 + 1) rest
  | c :: rest =>
    if c == '\r' || c == '\n' then size
    else scanBlanks (index + c.utf8Size) (index + c.utf8Size) rest

/-- The category of the first token of a gap and the number of its bytes. -/
def firstPiece : Text → TokenKind × Nat
  | '\r' :: '\n' :: _ => (.newline, 2)
  | '\n' :: _ => (.newline, 1)
  | '\r' :: _ => (.newline, 1)
  | gap => (.whitespace, max (scanBlanks 0 0 gap) 1)

theorem firstPiece_pos (gap : Text) : 0 < (firstPiece gap).2 := by
  rw [firstPiece.eq_def]
  split <;> omega

/-- What is left after some bytes were cut off is shorter. -/
theorem length_of_cut {gap text later : Text} {size : Nat} (positive : 0 < size)
    (cut : splitAtByte gap size = some (text, later)) : later.length < gap.length := by
  obtain ⟨whole, width⟩ := Text.splitAtByte_some cut
  have filled : text ≠ [] := by
    rintro rfl
    rw [byteLength_nil] at width
    omega
  have long := List.length_pos_iff.mpr filled
  rw [whole, List.length_append]
  omega

/-- The tokens cut off the front of a gap, one after the other, from a place on. The cutting stops
when nothing is left, or when a cut would fall inside a character. -/
def cutOff (byte : Nat) (position : Position) (gap : Text) : List Token :=
  if gap.isEmpty then []
  else
    let size := (firstPiece gap).2
    match _ : splitAtByte gap size with
    | none => []
    | some (text, later) =>
      let after := advance position text
      ⟨(firstPiece gap).1, text, ⟨byte, byte + size, position, after⟩⟩ ::
        cutOff (byte + size) after later
termination_by gap.length
decreasing_by exact length_of_cut (firstPiece_pos _) ‹_›

/-- The category and the text of a token. -/
def piece (token : Token) : TokenKind × Text := (token.kind, token.text)

/-- Each line break of the text is a line feed or a carriage return directly after a backslash, or
the line feed of a pair that stands directly after one. -/
def Continued (text : Text) : Prop :=
  ∀ before c after, text = before ++ c :: after → c = '\r' ∨ c = '\n' →
    ['\\'] <:+ before ∨ (c = '\n' ∧ ['\\', '\r'] <:+ before)

/-- A piece that can stand before the rest of a gap. -/
inductive Leads : TokenKind × Text → Text → Prop where
  | pair {later : Text} : Leads (.newline, ['\r', '\n']) later
  | feed {later : Text} : Leads (.newline, ['\n']) later
  | carriage {later : Text} (alone : later.head? ≠ some '\n') : Leads (.newline, ['\r']) later
  | blanks {text later : Text} (filled : text ≠ []) (continued : Continued text)
      (ends : ∀ c ∈ later.head?, c = '\r' ∨ c = '\n') : Leads (.whitespace, text) later

/-- Pieces that are cut off a gap one after the other. -/
inductive CutUp : Text → List (TokenKind × Text) → Prop where
  | done : CutUp [] []
  | cut {piece : TokenKind × Text} {later : Text} {pieces : List (TokenKind × Text)}
      (lead : Leads piece later) (rest : CutUp later pieces) :
      CutUp (piece.2 ++ later) (piece :: pieces)

/-- How a gap has to be cut up: the pieces make it up and none is empty; a line break is a line feed,
a carriage return or both, and no return is parted from its feed; blanks hold line breaks only after
a backslash, and no blanks stand next to others. -/
structure IsCut (gap : Text) (pieces : List (TokenKind × Text)) : Prop where
  whole : pieces.flatMap Prod.snd = gap
  filled : ∀ piece ∈ pieces, piece.2 ≠ []
  kinds : ∀ piece ∈ pieces, piece.1 = .newline ∨ piece.1 = .whitespace
  breaks : ∀ piece ∈ pieces, piece.1 = .newline →
    piece.2 = ['\n'] ∨ piece.2 = ['\r'] ∨ piece.2 = ['\r', '\n']
  alone : pieces.IsChain fun left right =>
    left = (.newline, ['\r']) → right.2.head? ≠ some '\n'
  continued : ∀ piece ∈ pieces, piece.1 = .whitespace → Continued piece.2
  apart : pieces.IsChain fun left right => left.1 = .whitespace → right.1 ≠ .whitespace

section Continued

variable {front text : Text} {c : Char} {rest : Text}

theorem Continued.nil : Continued [] := by
  intro before c after whole
  simp at whole

/-- A text that goes on in this way does not start with a line break. -/
theorem Continued.starts (continued : Continued (c :: rest)) : c ≠ '\r' ∧ c ≠ '\n' := by
  rw [← not_or]
  intro isBreak
  rcases continued [] c rest rfl isBreak with none | ⟨-, none⟩ <;> simp at none

theorem Continued.append (first : Continued front) (second : Continued text) :
    Continued (front ++ text) := by
  intro before c after whole isBreak
  rcases List.append_eq_append_iff.mp whole with ⟨middle, rfl, rest⟩ | ⟨middle, split, rest⟩
  · refine (second middle c after rest isBreak).imp ?_ (And.imp_right ?_) <;>
      exact fun ends => ends.trans (List.suffix_append _ _)
  · cases middle with
    | nil =>
      rw [List.nil_append] at rest
      subst rest
      exact absurd isBreak (not_or.mpr second.starts)
    | cons d middle =>
      obtain ⟨rfl, -⟩ := List.cons.inj rest
      exact first before c middle split isBreak

/-- A character that is no line break goes on. -/
theorem Continued.single (none : c ≠ '\r' ∧ c ≠ '\n') : Continued [c] := by
  intro before d after whole isBreak
  cases before with
  | nil =>
    obtain ⟨rfl, -⟩ := List.cons.inj whole
    exact absurd isBreak (not_or.mpr none)
  | cons d before => simp at whole

/-- A backslash takes the line break after it. -/
theorem Continued.escape (c : Char) : Continued ['\\', c] := by
  intro before d after whole isBreak
  match before with
  | [] =>
    obtain ⟨rfl, -⟩ := List.cons.inj whole
    exact absurd isBreak (by decide)
  | [e] =>
    obtain ⟨rfl, -⟩ := List.cons.inj whole
    exact .inl List.suffix_rfl
  | _ :: _ :: _ => simp at whole

/-- A backslash takes both halves of a pair. -/
theorem Continued.escape_pair : Continued ['\\', '\r', '\n'] := by
  intro before c after whole isBreak
  match before with
  | [] =>
    obtain ⟨rfl, -⟩ := List.cons.inj whole
    exact absurd isBreak (by decide)
  | [d] =>
    obtain ⟨rfl, -⟩ := List.cons.inj whole
    exact .inl List.suffix_rfl
  | [d, e] =>
    obtain ⟨rfl, rfl, rfl, -⟩ : '\\' = d ∧ '\r' = e ∧ '\n' = c ∧ [] = after := by
      simpa using whole
    exact .inr ⟨rfl, List.suffix_rfl⟩
  | _ :: _ :: _ :: _ => simp at whole

end Continued

/-- The run of blanks that a gap starts with, and what comes after it. Blanks that are put in front of
the gap join the run. -/
structure Run (gap text later : Text) : Prop where
  whole : gap = text ++ later
  continued : Continued text
  ends : ∀ c ∈ later.head?, c = '\r' ∨ c = '\n'
  joins : ∀ front, joinBlanks front (splitGap gap) = (.whitespace, front ++ text) :: splitGap later

section Run

variable {gap front text later : Text}

/-- Before a line break, and at the end of a gap, blanks are not joined to others. -/
theorem joinBlanks_stop (ends : ∀ c ∈ later.head?, c = '\r' ∨ c = '\n') (front : Text) :
    joinBlanks front (splitGap later) = (.whitespace, front) :: splitGap later := by
  match later with
  | [] => rfl
  | c :: rest =>
    rcases ends c rfl with rfl | rfl
    · cases rest with
      | nil => rfl
      | cons d rest =>
        by_cases feed : d = '\n'
        · subst feed
          rfl
        · rw [splitGap]
          · rfl
          · simpa using feed
    · rfl

theorem Run.stop (ends : ∀ c ∈ gap.head?, c = '\r' ∨ c = '\n') : Run gap [] gap where
  whole := rfl
  continued := .nil
  ends := ends
  joins front := by rw [List.append_nil, joinBlanks_stop ends]

theorem Run.cons (run : Run gap text later) (continued : Continued front)
    (joined : splitGap (front ++ gap) = joinBlanks front (splitGap gap)) :
    Run (front ++ gap) (front ++ text) later where
  whole := by rw [run.whole, List.append_assoc]
  continued := continued.append run.continued
  ends := run.ends
  joins before := by
    rw [joined, run.joins, joinBlanks]

/-- A scan of which all the bytes so far belong to the run counts the bytes of the run. -/
theorem scanBlanks_run {index size : Nat} (level : size = index) (gap : Text) :
    ∃ text later, Run gap text later ∧ scanBlanks index size gap = index + byteLength text := by
  fun_induction scanBlanks index size gap with
  | case1 index size => exact ⟨[], [], .stop nofun, level⟩
  | case2 index size rest ih =>
    obtain ⟨text, later, run, count⟩ := ih rfl
    refine ⟨_, later, run.cons .escape_pair rfl, ?_⟩
    rw [count, byteLength_append]
    exact Nat.add_assoc index 3 _
  | case3 index size rest lone ih =>
    obtain ⟨text, later, run, count⟩ := ih rfl
    refine ⟨_, later, run.cons (.escape '\r') (splitGap.eq_7 rest lone), ?_⟩
    rw [count, byteLength_append]
    exact Nat.add_assoc index 2 _
  | case4 index size rest ih =>
    obtain ⟨text, later, run, count⟩ := ih rfl
    refine ⟨_, later, run.cons (.escape '\n') rfl, ?_⟩
    rw [count, byteLength_append]
    exact Nat.add_assoc index 2 _
  | case5 index size c rest _ _ _ isBreak =>
    refine ⟨[], _, .stop ?_, level⟩
    rintro _ ⟨⟩
    simpa using isBreak
  | case6 index size c rest noPair noReturn noFeed plain ih =>
    obtain ⟨text, later, run, count⟩ := ih rfl
    simp only [Bool.or_eq_true, beq_iff_eq, not_or] at plain
    refine ⟨[c] ++ text, later, run.cons (.single plain) ?_, ?_⟩
    · rw [List.singleton_append, splitGap] <;> simp_all
    · rw [count, byteLength_append]
      exact Nat.add_assoc index c.utf8Size _

end Run

section Step

/-- A run that is joined with nothing and is not empty was there before. -/
theorem of_joinBlanks_nil {pieces others : List (TokenKind × Text)} {text : Text}
    (joined : joinBlanks [] pieces = (.whitespace, text) :: others) (filled : text ≠ []) :
    pieces = (.whitespace, text) :: others := by
  rw [joinBlanks.eq_def] at joined
  split at joined
  · exact joined
  · cases joined
    exact absurd rfl filled

/-- A gap that starts with no line break starts with a run of blanks. -/
theorem firstPiece_blanks {c : Char} (plain : c ≠ '\r' ∧ c ≠ '\n') (rest : Text) : ∃ text later,
    c :: rest = text ++ later ∧ firstPiece (c :: rest) = (.whitespace, byteLength text) ∧
      Leads (.whitespace, text) later ∧
      splitGap (c :: rest) = (.whitespace, text) :: splitGap later := by
  obtain ⟨text, later, run, count⟩ := scanBlanks_run rfl (c :: rest)
  have filled : text ≠ [] := by
    rintro rfl
    refine absurd (run.ends c ?_) (not_or.mpr plain)
    rw [← List.nil_append later, ← run.whole]
    rfl
  have size : max (scanBlanks 0 0 (c :: rest)) 1 = byteLength text := by
    have := Text.byteLength_pos filled
    rw [count]
    omega
  refine ⟨text, later, run.whole, ?_, .blanks filled run.continued run.ends,
    of_joinBlanks_nil (run.joins []) filled⟩
  rw [← size, firstPiece] <;> simp [plain]

/-- What one cut does: it falls between two characters, what is cut off is the first piece of the gap
and can stand before what is left. -/
theorem firstPiece_leads (c : Char) (rest : Text) : ∃ piece later,
    c :: rest = piece.2 ++ later ∧ firstPiece (c :: rest) = (piece.1, byteLength piece.2) ∧
      Leads piece later ∧ splitGap (c :: rest) = piece :: splitGap later := by
  by_cases feed : c = '\n'
  · subst feed
    exact ⟨_, rest, rfl, rfl, .feed, rfl⟩
  by_cases back : c = '\r'
  · subst back
    by_cases paired : rest.head? = some '\n'
    · obtain ⟨later, rfl⟩ := List.head?_eq_some_iff.mp paired
      exact ⟨_, later, rfl, rfl, .pair, rfl⟩
    · have lone : ∀ later, rest = '\n' :: later → False := by
        rintro later rfl
        exact paired rfl
      exact ⟨_, rest, rfl, firstPiece.eq_3 rest lone, .carriage paired, splitGap.eq_4 rest lone⟩
  · obtain ⟨text, later, step⟩ := firstPiece_blanks ⟨back, feed⟩ rest
    exact ⟨(.whitespace, text), later, step⟩

/-- The cut takes the first piece off, and what is left is shorter. -/
theorem firstPiece_cut (c : Char) (rest : Text) : ∃ text later,
    splitAtByte (c :: rest) (firstPiece (c :: rest)).2 = some (text, later) ∧
      later.length < (c :: rest).length ∧
      splitGap (c :: rest) = ((firstPiece (c :: rest)).1, text) :: splitGap later := by
  obtain ⟨⟨kind, text⟩, later, whole, first, -, split⟩ := firstPiece_leads c rest
  have cut : splitAtByte (c :: rest) (firstPiece (c :: rest)).2 = some (text, later) := by
    rw [first, whole]
    exact Text.splitAtByte_append text later
  refine ⟨text, later, cut, length_of_cut (firstPiece_pos _) cut, ?_⟩
  rw [split, first]

/-- The tokens cut off one after the other are those of the gap. -/
theorem cutOff_eq (byte : Nat) (position : Position) (gap : Text) :
    cutOff byte position gap = ofGap byte position gap := by
  rw [ofGap]
  fun_induction cutOff byte position gap with
  | case1 byte position gap empty =>
    rw [List.isEmpty_iff.mp empty]
    rfl
  | case2 byte position gap filled size cut =>
    obtain ⟨c, rest, rfl⟩ := List.exists_cons_of_ne_nil (mt List.isEmpty_iff.mpr filled)
    obtain ⟨text, later, found, -⟩ := firstPiece_cut c rest
    rw [cut] at found
    cases found
  | case3 byte position gap filled size text later cut after ih =>
    obtain ⟨c, rest, rfl⟩ := List.exists_cons_of_ne_nil (mt List.isEmpty_iff.mpr filled)
    obtain ⟨_, _, found, -, split⟩ := firstPiece_cut c rest
    obtain ⟨rfl, rfl⟩ : text = _ ∧ later = _ := by simpa using cut.symm.trans found
    have width : byteLength text = size := (Text.splitAtByte_some cut).2
    rw [split, ofPieces, ih, width]

end Step

section CutUp

variable {gap later : Text} {piece : TokenKind × Text} {pieces : List (TokenKind × Text)}

theorem Leads.filled (leads : Leads piece later) : piece.2 ≠ [] := by
  cases leads with
  | blanks filled => exact filled
  | _ => exact List.cons_ne_nil _ _

/-- The pieces of a gap are cut off it one after the other. -/
theorem splitGap_cutUp : ∀ gap : Text, CutUp gap (splitGap gap)
  | [] => .done
  | c :: rest => by
    obtain ⟨piece, later, whole, first, leads, split⟩ := firstPiece_leads c rest
    have shorter : later.length < (c :: rest).length := by
      have long := List.length_pos_iff.mpr leads.filled
      rw [whole, List.length_append]
      omega
    rw [split, whole]
    exact .cut leads (splitGap_cutUp later)
termination_by gap => gap.length
decreasing_by exact shorter

/-- The first of the pieces starts as the gap does. -/
theorem CutUp.starts (cut : CutUp gap pieces) : ∀ piece ∈ pieces.head?,
    gap.head? = piece.2.head? ∧ ∃ later, Leads piece later := by
  cases cut with
  | done => nofun
  | cut lead rest =>
    rintro _ ⟨⟩
    exact ⟨List.head?_append_of_ne_nil _ lead.filled, _, lead⟩

/-- What the first of two neighbours leaves does not let the second go on with it. -/
theorem Leads.apart {next : TokenKind × Text} {after : Text} (leads : Leads piece later)
    (follows : Leads next after) (starts : later.head? = next.2.head?) :
    (piece = (.newline, ['\r']) → next.2.head? ≠ some '\n') ∧
      (piece.1 = .whitespace → next.1 ≠ .whitespace) := by
  cases leads with
  | pair | feed => simp
  | carriage alone => exact ⟨fun _ => starts ▸ alone, nofun⟩
  | blanks filled continued ends =>
    refine ⟨nofun, fun _ same => ?_⟩
    cases follows with
    | pair | feed | carriage => cases same
    | @blanks text _ filled continued _ =>
      obtain ⟨c, rest, rfl⟩ := List.exists_cons_of_ne_nil filled
      exact absurd (ends c starts) (not_or.mpr continued.starts)

/-- Pieces that are cut off a gap one after the other cut it up by the rules. -/
theorem CutUp.isCut (cut : CutUp gap pieces) : IsCut gap pieces := by
  induction cut with
  | done => exact ⟨rfl, nofun, nofun, nofun, .nil, nofun, .nil⟩
  | @cut piece later pieces lead rest ih =>
    have next : ∀ second ∈ pieces.head?, _ := fun second mem =>
      have ⟨starts, _, follows⟩ := rest.starts second mem
      lead.apart follows starts
    exact {
      whole := by rw [List.flatMap_cons, ih.whole]
      filled := List.forall_mem_cons.mpr ⟨lead.filled, ih.filled⟩
      kinds := List.forall_mem_cons.mpr ⟨by cases lead <;> simp, ih.kinds⟩
      breaks := List.forall_mem_cons.mpr ⟨by cases lead <;> simp, ih.breaks⟩
      alone := ih.alone.cons fun second mem => (next second mem).1
      continued := List.forall_mem_cons.mpr ⟨by cases lead <;> simp [*], ih.continued⟩
      apart := ih.apart.cons fun second mem => (next second mem).2 }

end CutUp

theorem ofPieces_pieces (byte : Nat) (position : Position) (pieces : List (TokenKind × Text)) :
    (ofPieces byte position pieces).map piece = pieces := by
  induction pieces generalizing byte position with
  | nil => rfl
  | cons first rest ih => rw [ofPieces, List.map_cons, ih, piece]

/-- Cutting tokens off the front of a gap until nothing is left always takes something away, never
falls inside a character, gives the tokens of the gap and cuts it up by the rules. -/
theorem cutOff_isCut (byte : Nat) (position : Position) (gap : Text) :
    (∀ c rest, ∃ text later,
      splitAtByte (c :: rest) (firstPiece (c :: rest)).2 = some (text, later) ∧
        later.length < (c :: rest).length) ∧
      cutOff byte position gap = ofGap byte position gap ∧
      IsCut gap ((cutOff byte position gap).map piece) := by
  refine ⟨fun c rest => ?_, cutOff_eq byte position gap, ?_⟩
  · obtain ⟨text, later, cut, shorter, -⟩ := firstPiece_cut c rest
    exact ⟨text, later, cut, shorter⟩
  · rw [cutOff_eq, ofGap, ofPieces_pieces]
    exact (splitGap_cutUp gap).isCut

/-- A pair after a backslash goes with the blanks before it, a lone return is a piece of its own, and
a backslash at the very end is blank. -/
example : splitGap " \\\r\n\r\\".toList =
    [(.whitespace, " \\\r\n".toList), (.newline, ['\r']), (.whitespace, ['\\'])] := by
  decide

end Token

end LambdaLayout
