import LambdaLayout.Reformat
import LambdaLayout.Proofs.Grammatical

/-!
Texts made of tokens. A text is written from tokens if they follow one another in it with nothing
but blanks and line continuations between them, and a line break ends each comment before the next
token. Tokens are rearranged if they stay in order, except that a comma may be missing before a
bracket that closes, and that a comma between two elements may stand before the comments that came
before it.
-/

namespace LambdaLayout

open LambdaLayout.Reformat (Mark)

/-- A token as it is written: a comment has no blanks at its end. -/
def Token.mark (token : Token) : Mark :=
  (token.kind, if token.kind = .comment then Text.trimEnd token.text else token.text)

/-- The blanks between tokens, and those that may stand at the end of a comment. -/
def isSpace (c : Char) : Bool := Python.isGap c || Text.isBlank c

/-- A backslash that hides the end of its line. -/
def IsHidden (text : Text) : Prop :=
  text = ['\\', '\n'] ∨ text = ['\\', '\r', '\n'] ∨ text = ['\\', Char.ofNat 0]

/-- The text is written from the tokens. The flags say whether a comment without a line break after
it stands last, before the text and at its end. -/
inductive Written : Bool → List Mark → Text → Bool → Prop where
  | nil {commented : Bool} : Written commented [] [] commented
  | blank {commented last : Bool} {c : Char} {marks : List Mark} {text : Text}
      (space : isSpace c = true) (rest : Written (commented && c != '\n') marks text last) :
      Written commented marks (c :: text) last
  | continued {last : Bool} {hidden : Text} {marks : List Mark} {text : Text}
      (hides : IsHidden hidden) (rest : Written false marks text last) :
      Written false marks (hidden ++ text) last
  | token {last : Bool} {kind : TokenKind} {shown : Text} {marks : List Mark} {text : Text}
      (solid : kind ≠ .comment) (rest : Written false marks text last) :
      Written false ((kind, shown) :: marks) (shown ++ text) last
  | comment {last : Bool} {shown : Text} {marks : List Mark} {text : Text}
      (rest : Written true marks text last) :
      Written false ((.comment, shown) :: marks) (shown ++ text) last

namespace Written

variable {commented between last : Bool} {marks left right : List Mark} {text first second : Text}

theorem append (before : Written commented left first between)
    (after : Written between right second last) :
    Written commented (left ++ right) (first ++ second) last := by
  induction before with
  | nil => exact after
  | blank space _ ih => exact .blank space (ih after)
  | continued hides _ ih =>
    rw [List.append_assoc]
    exact .continued hides (ih after)
  | token solid _ ih =>
    rw [List.append_assoc]
    exact .token solid (ih after)
  | comment _ ih =>
    rw [List.append_assoc]
    exact .comment (ih after)

/-- Blanks are written from no tokens. -/
theorem of_spaces (spaces : ∀ c ∈ text, isSpace c = true) :
    ∃ last, Written commented [] text last ∧ (last = true → commented = true) := by
  induction text generalizing commented with
  | nil => exact ⟨commented, .nil, id⟩
  | cons c rest ih =>
    obtain ⟨last, written, same⟩ :=
      @ih (commented && c != '\n') fun other mem => spaces other (List.mem_cons_of_mem _ mem)
    refine ⟨last, .blank (spaces c List.mem_cons_self) written, fun is => ?_⟩
    exact (Bool.and_eq_true_iff.mp (same is)).1

theorem spaces (blank : ∀ c ∈ text, isSpace c = true) : Written false [] text false := by
  obtain ⟨last, written, same⟩ := @of_spaces false text blank
  cases last with
  | false => exact written
  | true => cases same rfl

/-- A line break ends a comment. -/
theorem newline {indent : Text} (blank : ∀ c ∈ indent, isSpace c = true) :
    Written commented [] ('\n' :: indent) false := by
  refine .blank (by decide) ?_
  rw [(by decide : ('\n' != '\n') = false), Bool.and_false]
  exact spaces blank

theorem single {kind : TokenKind} (solid : kind ≠ .comment) (shown : Text) :
    Written false [(kind, shown)] shown false := by
  have written := @Written.token false kind shown [] [] solid .nil
  rwa [List.append_nil] at written

/-- Text that is not commented at its end goes on. -/
theorem then_token {kind : TokenKind} {shown : Text}
    (before : Written commented left first false) (solid : kind ≠ .comment) :
    Written commented (left ++ [(kind, shown)]) (first ++ shown) false :=
  before.append (single solid shown)

end Written

/-- A comma. -/
def Mark.comma : Mark := (.comma, [','])

/-- The first token that is no comment. -/
def nextSolid (marks : List Mark) : Option Mark := marks.find? fun mark => mark.1 != .comment

/-- Says that the first token that is no comment closes brackets. -/
def closesNext (marks : List Mark) : Bool := (nextSolid marks).any fun mark => mark.1.closes

/-- Says that a token follows that is no comment and closes no brackets. -/
def goesOn (marks : List Mark) : Bool := (nextSolid marks).any fun mark => !mark.1.closes

/-- The tokens of a layout, out of those of the source. -/
inductive Rearranged : List Mark → List Mark → Prop where
  | nil : Rearranged [] []
  | keep {mark : Mark} {before after : List Mark} (rest : Rearranged before after) :
      Rearranged (mark :: before) (mark :: after)
  /-- A comma before a bracket that closes may be missing. -/
  | drop {before after : List Mark} (closes : closesNext before = true)
      (rest : Rearranged before after) : Rearranged (Mark.comma :: before) after
  /-- A comma after which something comes may stand before the comments in front of it. -/
  | hoist {comments before after : List Mark} (skipped : ∀ mark ∈ comments, mark.1 = .comment)
      (separates : goesOn before = true) (rest : Rearranged before after) :
      Rearranged (comments ++ Mark.comma :: before) (Mark.comma :: (comments ++ after))

namespace Rearranged

variable {before after left right : List Mark}

theorem refl : ∀ marks : List Mark, Rearranged marks marks
  | [] => .nil
  | _ :: rest => .keep (refl rest)

private theorem next_append {marks : List Mark} {p : Mark → Bool} (rest : List Mark)
    (found : (nextSolid marks).any p = true) : (nextSolid (marks ++ rest)).any p = true := by
  rw [nextSolid] at found ⊢
  rw [List.find?_append]
  cases here : marks.find? fun mark => mark.1 != .comment with
  | none => rw [here] at found; cases found
  | some mark => rw [here] at found; exact found

theorem append (first : Rearranged before after) (second : Rearranged left right) :
    Rearranged (before ++ left) (after ++ right) := by
  induction first with
  | nil => exact second
  | keep _ ih => exact .keep ih
  | drop closes _ ih => exact .drop (next_append left closes) ih
  | hoist skipped separates _ ih =>
    rw [List.append_assoc, List.cons_append, List.cons_append, List.append_assoc]
    exact .hoist skipped (next_append left separates) ih

theorem keep_all (marks : List Mark) (rest : Rearranged before after) :
    Rearranged (marks ++ before) (marks ++ after) := (refl marks).append rest

end Rearranged

end LambdaLayout
