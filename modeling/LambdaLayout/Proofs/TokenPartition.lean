import LambdaLayout.Proofs.TokenStream
import Mathlib.Data.List.Chain

/-!
The tokens of a source cut it up without a rest, whatever tree it is given. The tree may have leaves
that overlap, stand out of order, are empty, leave the source or fall inside a character: each of
them is passed over, and the text it would have covered becomes part of a gap or of the next leaf.
What carries this over the leaves is that the next token always starts between two characters, where
the one before it ended.
-/

namespace LambdaLayout

open LambdaLayout.Python (Parsed Tree)
open LambdaLayout.Text (Boundary Holds byteLength)

namespace Token

/-- The tokens follow each other from one place of the source to another. Each has a text, which is
the one that stands in its place. -/
inductive Runs (source : Text) : Nat → Position → List Token → Nat → Position → Prop where
  | nil {byte : Nat} {position : Position} : Runs source byte position [] byte position
  | cons {byte stop : Nat} {position finish : Position} {token : Token} {tokens : List Token}
      (filled : token.text ≠ []) (start : token.span.start = position)
      (held : Holds source byte token.text token.span.endByte) (first : token.span.startByte = byte)
      (rest : Runs source token.span.endByte token.span.stop tokens stop finish) :
      Runs source byte position (token :: tokens) stop finish

/-- How the tokens of a source have to cut it up: each has a text, which is the slice of its range;
the first starts where the source starts, each of the others where the one before it ends, and the
last ends where the source ends. -/
structure Partitions (source : Text) (tokens : List Token) : Prop where
  filled : ∀ token ∈ tokens, token.text ≠ [] ∧ token.span.startByte < token.span.endByte
  slices : ∀ token ∈ tokens,
    Text.slice? source token.span.startByte token.span.endByte = some token.text
  starts : ∀ token ∈ tokens.head?,
    token.span.startByte = 0 ∧ token.span.start = Position.origin
  adjacent : tokens.IsChain fun left right =>
    right.span.startByte = left.span.endByte ∧ right.span.start = left.span.stop
  ends : ∀ token ∈ tokens.getLast?, token.span.endByte = byteLength source
  covers : tokens.flatMap Token.text = source

/-- The tokens behind the first one start where it ends. -/
theorem endPosition_cons (position : Position) (token : Token) (tokens : List Token) :
    endPosition position (token :: tokens) = endPosition token.span.stop tokens := by
  cases tokens with
  | nil => rfl
  | cons next tokens =>
    rw [endPosition, endPosition, List.getLast?_cons_cons,
      List.getLast?_eq_some_getLast (List.cons_ne_nil next tokens)]
    rfl

section Runs

variable {source : Text} {byte middle stop : Nat} {position between finish : Position}
  {token : Token} {tokens left right : List Token}

theorem Runs.append (first : Runs source byte position left middle between)
    (second : Runs source middle between right stop finish) :
    Runs source byte position (left ++ right) stop finish := by
  induction first with
  | nil => exact second
  | cons filled start held first _ ih => exact .cons filled start held first (ih second)

theorem Runs.holds (runs : Runs source byte position tokens stop finish)
    (boundary : Boundary source byte) : Holds source byte (tokens.flatMap Token.text) stop := by
  induction runs with
  | nil =>
    obtain ⟨before, after, whole, size⟩ := boundary
    exact ⟨before, after, by simpa using whole, size, by simpa using size⟩
  | cons filled start held first _ ih =>
    rw [List.flatMap_cons]
    exact held.append (ih held.boundaries.2)

/-- A run ends where its last token ends. -/
theorem Runs.finish_eq (runs : Runs source byte position tokens stop finish) :
    finish = endPosition position tokens := by
  induction runs with
  | nil => rfl
  | cons _ _ _ _ _ ih => rw [ih, endPosition_cons]

theorem Runs.mem (runs : Runs source byte position tokens stop finish) (mem : token ∈ tokens) :
    token.text ≠ [] ∧ Holds source token.span.startByte token.text token.span.endByte := by
  induction runs with
  | nil => cases mem
  | cons filled start held first _ ih =>
    rcases List.mem_cons.mp mem with rfl | later
    · exact ⟨filled, by rw [first]; exact held⟩
    · exact ih later

theorem Runs.starts (runs : Runs source byte position tokens stop finish) :
    ∀ token ∈ tokens.head?, token.span.startByte = byte ∧ token.span.start = position := by
  cases runs with
  | nil => simp
  | cons filled start held first rest =>
    rintro token ⟨⟩
    exact ⟨first, start⟩

theorem Runs.adjacent (runs : Runs source byte position tokens stop finish) :
    tokens.IsChain fun left right =>
      right.span.startByte = left.span.endByte ∧ right.span.start = left.span.stop := by
  induction runs with
  | nil => exact .nil
  | cons filled start held first rest ih => exact ih.cons rest.starts

theorem Runs.ends (runs : Runs source byte position tokens stop finish) :
    ∀ token ∈ tokens.getLast?, token.span.endByte = stop := by
  induction runs with
  | nil => simp
  | @cons _ _ _ _ token tokens _ _ _ _ rest ih =>
    cases tokens with
    | nil =>
      rintro other ⟨⟩
      cases rest
      rfl
    | cons next tokens =>
      rw [List.getLast?_cons_cons]
      exact ih

/-- The tokens of a run come in order. -/
theorem Runs.sorted (runs : Runs source byte position tokens stop finish) :
    (∀ token ∈ tokens, byte ≤ token.span.startByte) ∧
      tokens.Pairwise fun left right => left.span.startByte ≤ right.span.startByte := by
  induction runs with
  | nil => exact ⟨nofun, .nil⟩
  | cons filled start held first _ ih =>
    have upto := held.ordered
    refine ⟨?_, List.pairwise_cons.mpr ⟨fun token mem => ?_, ih.2⟩⟩
    · intro token mem
      rcases List.mem_cons.mp mem with rfl | later
      · exact Nat.le_of_eq first.symm
      · exact Nat.le_trans upto (ih.1 token later)
    · rw [first]
      exact Nat.le_trans upto (ih.1 token mem)

/-- Tokens that run from the start of a source to its end cut it up. -/
theorem Runs.partitions
    (runs : Runs source 0 Position.origin tokens (byteLength source) finish) :
    Partitions source tokens := by
  have origin : Boundary source 0 := ⟨[], source, rfl, rfl⟩
  have whole : Holds source 0 source (byteLength source) := ⟨[], [], by simp, rfl, rfl⟩
  refine ⟨fun token mem => ?_, fun token mem => Text.slice?_iff.mpr (runs.mem mem).2,
    runs.starts, runs.adjacent, runs.ends, (runs.holds origin).unique whole⟩
  obtain ⟨filled, held⟩ := runs.mem mem
  have width := held.length
  have positive := Text.byteLength_pos filled
  exact ⟨filled, by omega⟩

end Runs

/-- Putting characters in front of the pieces of a gap adds just these characters. -/
private theorem joinBlanks_text (front : Text) (pieces : List (TokenKind × Text)) :
    (joinBlanks front pieces).flatMap Prod.snd = front ++ pieces.flatMap Prod.snd := by
  rw [joinBlanks.eq_def]
  split <;> simp

private theorem joinBlanks_filled {front : Text} {pieces : List (TokenKind × Text)}
    (some : front ≠ []) (filled : ∀ piece ∈ pieces, piece.2 ≠ []) :
    ∀ piece ∈ joinBlanks front pieces, piece.2 ≠ [] := by
  intro piece mem
  rw [joinBlanks.eq_def] at mem
  split at mem
  · rcases List.mem_cons.mp mem with rfl | later
    · exact List.append_ne_nil_of_left_ne_nil some _
    · exact filled piece (List.mem_cons_of_mem _ later)
  · rcases List.mem_cons.mp mem with rfl | later
    · exact some
    · exact filled piece later

/-- The pieces of a gap make it up. -/
theorem splitGap_text (gap : Text) : (splitGap gap).flatMap Prod.snd = gap := by
  fun_induction splitGap gap with
  | case1 => rfl
  | case2 _ ih | case3 _ ih | case4 _ _ ih => rw [List.flatMap_cons, ih]; rfl
  | case5 _ ih | case6 _ ih | case7 _ _ ih | case8 _ _ _ _ _ _ _ _ ih =>
    rw [joinBlanks_text, ih]
    rfl

theorem splitGap_filled (gap : Text) : ∀ piece ∈ splitGap gap, piece.2 ≠ [] := by
  fun_induction splitGap gap with
  | case1 => simp
  | case2 _ ih | case3 _ ih | case4 _ _ ih =>
    intro piece mem
    rcases List.mem_cons.mp mem with rfl | later
    · exact List.cons_ne_nil _ _
    · exact ih piece later
  | case5 _ ih | case6 _ ih | case7 _ _ ih | case8 _ _ _ _ _ _ _ _ ih =>
    exact joinBlanks_filled (List.cons_ne_nil _ _) ih

private theorem ofPieces_runs {source : Text} {byte stop : Nat} {pieces : List (TokenKind × Text)}
    (filled : ∀ piece ∈ pieces, piece.2 ≠ [])
    (held : Holds source byte (pieces.flatMap Prod.snd) stop) (position : Position) :
    ∃ finish, Runs source byte position (ofPieces byte position pieces) stop finish := by
  induction pieces generalizing byte position with
  | nil =>
    have same : byte = stop := held.empty
    exact ⟨position, same ▸ .nil⟩
  | cons piece rest ih =>
    obtain ⟨kind, text⟩ := piece
    rw [List.flatMap_cons] at held
    obtain ⟨here, later⟩ := held.of_append
    obtain ⟨finish, runs⟩ := ih (fun piece mem => filled piece (List.mem_cons_of_mem _ mem)) later
      (advance position text)
    refine ⟨finish, ?_⟩
    rw [ofPieces]
    exact .cons (filled _ List.mem_cons_self) rfl here rfl runs

/-- The tokens of a gap run over it. -/
theorem ofGap_runs {source gap : Text} {byte stop : Nat} (held : Holds source byte gap stop)
    (position : Position) :
    Runs source byte position (ofGap byte position gap) stop
      (endPosition position (ofGap byte position gap)) := by
  rw [← splitGap_text gap] at held
  obtain ⟨finish, runs⟩ := ofPieces_runs (splitGap_filled gap) held position
  have last := runs.finish_eq
  subst last
  exact runs

/-- From any place between two characters the tokens run to the end of the source, whatever leaves
are still to come. -/
theorem ofLeaves_runs {source : Text} {byte : Nat} (position : Position) (leaves : List Tree)
    (boundary : Boundary source byte) (inside : byte ≤ byteLength source) :
    ∃ finish,
      Runs source byte position (ofLeaves source byte position leaves) (byteLength source)
        finish := by
  induction leaves generalizing byte position with
  | nil =>
    have last : Boundary source (byteLength source) := ⟨source, [], by simp, rfl⟩
    obtain ⟨gap, held⟩ := Text.holds_between boundary last inside
    rw [ofLeaves, Text.slice?_iff.mpr held]
    exact ⟨_, ofGap_runs held position⟩
  | cons leaf rest ih =>
    rw [ofLeaves]
    split
    · exact ih position boundary inside
    · next heard =>
      cases before : Text.slice? source byte leaf.span.startByte with
      | none => exact ih position boundary inside
      | some gap =>
        have gap_held := Text.slice?_iff.mp before
        have blanks := ofGap_runs gap_held position
        dsimp only
        cases own : Text.slice? source leaf.span.startByte leaf.span.endByte with
        | none =>
          obtain ⟨finish, later⟩ := ih (endPosition position (ofGap byte position gap))
            gap_held.boundaries.2 gap_held.bounded
          exact ⟨finish, blanks.append later⟩
        | some text =>
          have held := Text.slice?_iff.mp own
          have width := held.length
          have filled : text ≠ [] := by
            rintro rfl
            simp only [isSkipped, Bool.or_eq_true, decide_eq_true_eq, not_or] at heard
            rw [Text.byteLength_nil] at width
            omega
          obtain ⟨finish, later⟩ := ih leaf.span.stop held.boundaries.2 held.bounded
          exact ⟨finish, blanks.append (.cons filled rfl held rfl later)⟩

/-- The tokens of a source cut it up, whatever its tree. -/
theorem tokenize_partitions (parsed : Parsed) : Partitions parsed.source (tokenize parsed) := by
  have origin : Boundary parsed.source 0 := ⟨[], parsed.source, rfl, rfl⟩
  obtain ⟨finish, runs⟩ :=
    ofLeaves_runs Position.origin parsed.tree.leaves origin (Nat.zero_le _)
  exact runs.partitions

end Token

end LambdaLayout
