import LambdaLayout.Proofs.Splicing
import LambdaLayout.Proofs.TreeTokens
import LambdaLayout.Proofs.Written
import Mathlib.Data.List.TakeWhile

/-!
The tokens between two offsets of a source. Offsets that divide the tokens have only blanks and line
continuations between themselves and the tokens on either side. The source between two such offsets
is written from the tokens between them, and where a tree has its place these are the tokens of the
tree. A backslash that ends the source is no line continuation, so the end of the source divides the
tokens only if it follows another token.
-/

namespace LambdaLayout

open LambdaLayout.Python (Parsed Tree Spacing Blank isGap)
open LambdaLayout.Python.Tree (Spread Cut Placed)
open LambdaLayout.Text (Boundary Holds byteLength)

/-- What may stand between two tokens. -/
inductive Filler : Text → Prop where
  | nil : Filler []
  | blank {c : Char} {rest : Text} (gap : isGap c = true) (filler : Filler rest) :
      Filler (c :: rest)
  | hidden {hidden rest : Text} (hides : IsHidden hidden) (filler : Filler rest) :
      Filler (hidden ++ rest)

namespace Filler

variable {text left right : Text}

theorem append (first : Filler left) (second : Filler right) : Filler (left ++ right) := by
  induction first with
  | nil => exact second
  | blank gap _ ih => exact .blank gap ih
  | hidden hides _ ih =>
    rw [List.append_assoc]
    exact .hidden hides ih

theorem of_spacing (spacing : Spacing text) : Filler text := by
  induction spacing with
  | nil => exact .nil
  | blank gap _ ih => exact .blank gap ih
  | continued _ ih => exact .hidden (.inl rfl) ih
  | continuedReturn _ ih => exact .hidden (.inr (.inl rfl)) ih

private theorem hidden_cancel {first second : Text} (one : IsHidden first) (two : IsHidden second)
    (same : first ++ left = second ++ right) : left = right := by
  rcases one with rfl | rfl | rfl <;> rcases two with rfl | rfl | rfl <;> simp_all

private theorem hidden_head {first : Text} (hides : IsHidden first) :
    (first ++ left).head? = some '\\' := by
  rcases hides with rfl | rfl | rfl <;> rfl

/-- No filler starts another one in two ways, so what is left of a filler is a filler. -/
theorem cancel (first : Filler left) (whole : Filler (left ++ right)) : Filler right := by
  induction first with
  | nil => exact whole
  | @blank c rest gap _ ih =>
    generalize same : c :: rest ++ right = text at whole
    cases whole with
    | nil => cases same
    | blank _ filler =>
      cases same
      exact ih filler
    | @hidden first rest hides filler =>
      have head := @hidden_head rest first hides
      rw [← same] at head
      obtain rfl : c = '\\' := Option.some.inj head
      exact absurd gap (by decide)
  | @hidden before rest hides _ ih =>
    generalize same : before ++ rest ++ right = text at whole
    rw [List.append_assoc] at same
    have head := @hidden_head (rest ++ right) before hides
    cases whole with
    | nil =>
      rw [same] at head
      cases head
    | @blank c _ gap filler =>
      rw [same] at head
      obtain rfl : c = '\\' := Option.some.inj head
      exact absurd gap (by decide)
    | hidden also filler =>
      rw [← hidden_cancel hides also same] at filler
      exact ih filler

theorem written (filler : Filler text) : Written false [] text false := by
  induction filler with
  | nil => exact .nil
  | blank gap _ ih => exact .blank (by rw [isSpace, gap]; rfl) ih
  | hidden hides _ ih => exact .continued hides ih

/-- A filler that starts with a line break ends a comment before it. -/
theorem written_after {commented : Bool} (filler : Filler text) (head : text.head? = some '\n') :
    Written commented [] text false := by
  cases filler with
  | nil => cases head
  | blank gap filler =>
    obtain rfl := Option.some.inj head
    refine .blank (by decide) ?_
    rw [(by decide : ('\n' != '\n') = false), Bool.and_false]
    exact filler.written
  | hidden hides _ =>
    rw [hidden_head hides] at head
    exact absurd head (by decide)

end Filler

/-- The token stands in the source. What follows a comment is a line break or the end. -/
structure Token.Fits (source : Text) (token : Token) : Prop where
  held : Holds source token.span.startByte token.text token.span.endByte
  filled : token.text ≠ []
  fresh : token.text.head? ≠ some '\n'
  comment : token.kind = .comment → ∀ text stop, Holds source token.span.endByte text stop →
    text = [] ∨ text.head? = some '\n'

theorem Token.Fits.ordered {source : Text} {token : Token} (fits : token.Fits source) :
    token.span.startByte < token.span.endByte := by
  have width := fits.held.length
  have positive := Text.byteLength_pos fits.filled
  omega

/-- The tokens stand in a stretch of the source with nothing but fillers around them. -/
inductive Strewn (source : Text) : Nat → List Token → Nat → Prop where
  | nil {start stop : Nat} {gap : Text} (held : Holds source start gap stop)
      (filler : Filler gap) : Strewn source start [] stop
  | cons {start stop : Nat} {gap : Text} {token : Token} {tokens : List Token}
      (held : Holds source start gap token.span.startByte) (filler : Filler gap)
      (fits : token.Fits source) (rest : Strewn source token.span.endByte tokens stop) :
      Strewn source start (token :: tokens) stop

namespace Strewn

variable {source text : Text} {start middle stop : Nat} {tokens left right : List Token}

theorem ordered (strewn : Strewn source start tokens stop) : start ≤ stop := by
  induction strewn with
  | nil held => exact held.ordered
  | cons held _ fits _ ih =>
    exact Nat.le_trans held.ordered (Nat.le_trans (Nat.le_of_lt fits.ordered) ih)

theorem bounds (strewn : Strewn source start tokens stop) : ∀ token ∈ tokens,
    token.Fits source ∧ start ≤ token.span.startByte ∧ token.span.endByte ≤ stop := by
  induction strewn with
  | nil => simp
  | cons held _ fits rest ih =>
    intro token mem
    rcases List.mem_cons.mp mem with rfl | later
    · exact ⟨fits, held.ordered, rest.ordered⟩
    · obtain ⟨own, first, last⟩ := ih token later
      have before := held.ordered
      have filled := fits.ordered
      exact ⟨own, by omega, last⟩

/-- What comes after the first tokens of a stretch is a stretch. -/
theorem cut (whole : Strewn source start (left ++ right) stop)
    (first : Strewn source start left middle) (inside : middle ≤ stop)
    (after : ∀ token ∈ right, middle ≤ token.span.startByte) :
    Strewn source middle right stop := by
  induction first with
  | nil held filler =>
    cases whole with
    | nil long whole =>
      obtain ⟨front, back, split, one, two⟩ := long.cut held.boundaries.2 held.ordered inside
      rw [split, one.unique held] at whole
      exact .nil two (filler.cancel whole)
    | cons long whole fits rest =>
      obtain ⟨front, back, split, one, two⟩ :=
        long.cut held.boundaries.2 held.ordered (after _ List.mem_cons_self)
      rw [split, one.unique held] at whole
      exact .cons two (filler.cancel whole) fits rest
  | cons _ _ _ _ ih =>
    cases whole with
    | cons _ _ _ rest => exact ih rest inside after

/-- A comment is written without the blanks at its end. -/
private theorem trimEnd_split (text : Text) :
    ∃ blanks, text = Text.trimEnd text ++ blanks ∧ ∀ c ∈ blanks, isSpace c = true := by
  refine ⟨(text.reverse.takeWhile Text.isBlank).reverse, ?_, ?_⟩
  · have split := @List.takeWhile_append_dropWhile _ Text.isBlank text.reverse
    rw [Text.trimEnd, ← List.reverse_append, split, List.reverse_reverse]
  · intro c mem
    have blank := List.mem_takeWhile_imp (List.mem_reverse.mp mem)
    rw [isSpace, blank, Bool.or_true]

private theorem getLast_cons_of_mem {token other : Token} (mem : other ∈ tokens.getLast?) :
    other ∈ (token :: tokens).getLast? := by
  cases tokens with
  | nil => cases mem
  | cons next tokens => rw [List.getLast?_cons_cons]; exact mem

/-- The source between two offsets is written from the tokens there, also after a comment. If there
is no line break after the last comment, nothing follows it. -/
private theorem written_from {commented : Bool} (strewn : Strewn source start tokens stop)
    (held : Holds source start text stop)
    (line : commented = true → text = [] ∨ text.head? = some '\n') :
    ∃ last, Written commented (tokens.map Token.mark) text last ∧
      (last = true → (tokens = [] ∧ text = [] ∧ commented = true) ∨
        ∃ token ∈ tokens.getLast?, token.kind = .comment ∧ token.span.endByte = stop) := by
  induction strewn generalizing text commented with
  | nil gap_held filler =>
    rw [held.unique gap_held] at line ⊢
    cases commented with
    | false => exact ⟨false, filler.written, nofun⟩
    | true =>
      rcases line rfl with none | head
      · subst none
        exact ⟨true, .nil, fun _ => .inl ⟨rfl, rfl, rfl⟩⟩
      · exact ⟨false, filler.written_after head, nofun⟩
  | @cons start stop gap token tokens gap_held filler fits rest ih =>
    obtain ⟨front, back, split, first, from_token⟩ := held.cut fits.held.boundaries.1
      gap_held.ordered (Nat.le_trans (Nat.le_of_lt fits.ordered) rest.ordered)
    obtain ⟨own, after, parts, second, after_held⟩ := from_token.cut fits.held.boundaries.2
      (Nat.le_of_lt fits.ordered) rest.ordered
    rw [first.unique gap_held] at split
    rw [second.unique fits.held] at parts
    subst split parts
    have before : Written commented [] gap false := by
      cases commented with
      | false => exact filler.written
      | true =>
        refine filler.written_after ?_
        cases gap with
        | cons c gap => simpa using line rfl
        | nil => simpa [fits.filled, fits.fresh, List.head?_append] using line rfl
    by_cases comment : token.kind = .comment
    · obtain ⟨blanks, trimmed, spaces⟩ := trimEnd_split token.text
      obtain ⟨open_, blank_written, -⟩ := @Written.of_spaces true blanks spaces
      obtain ⟨last, later, ends⟩ :=
        @ih after open_ after_held fun _ => fits.comment comment after stop after_held
      refine ⟨last, ?_, fun is => .inr ?_⟩
      · rw [List.map_cons, Token.mark, if_pos comment, comment]
        refine before.append ?_
        have same : token.text ++ after = Text.trimEnd token.text ++ (blanks ++ after) := by
          rw [← List.append_assoc, ← trimmed]
        rw [same]
        exact .comment (blank_written.append later)
      · obtain ⟨rfl, rfl, -⟩ | ⟨other, mem, facts⟩ := ends is
        · exact ⟨token, rfl, comment, after_held.empty⟩
        · exact ⟨other, getLast_cons_of_mem mem, facts⟩
    · obtain ⟨last, later, ends⟩ := @ih after false after_held nofun
      refine ⟨last, ?_, fun is => .inr ?_⟩
      · rw [List.map_cons, Token.mark, if_neg comment]
        exact before.append (.token comment later)
      · obtain ⟨-, -, is⟩ | ⟨other, mem, facts⟩ := ends is
        · cases is
        · exact ⟨other, getLast_cons_of_mem mem, facts⟩

/-- The source between two offsets is written from the tokens there. -/
theorem written (strewn : Strewn source start tokens stop) (held : Holds source start text stop) :
    ∃ last, Written false (tokens.map Token.mark) text last ∧
      (last = true →
        ∃ token ∈ tokens.getLast?, token.kind = .comment ∧ token.span.endByte = stop) := by
  obtain ⟨last, written, ends⟩ := @written_from _ _ _ _ _ false strewn held nofun
  refine ⟨last, written, fun is => ?_⟩
  obtain ⟨-, -, is⟩ | found := ends is
  · cases is
  · exact found

end Strewn

section Leaves

variable {source : Text} {start reached stop offset : Nat} {leaf tree : Tree} {leaves : List Tree}

/-- The token of a leaf stands in the source. -/
theorem Python.Tree.Sits.token_fits (sits : Python.Tree.Sits source leaf)
    (closed : leaf.isClosed = true) (heard : leaf.isSilent = false) :
    (leaf.token source).Fits source := by
  cases sits with
  | node split => rw [closed] at split; cases split
  | @leaf label children before content after _ whole place fits bare =>
    have text : (Tree.node label children).text source = content :=
      Python.Tree.text_of_leaf whole place
    have own : Holds source label.span.startByte content label.span.endByte :=
      ⟨before, after, whole, by rw [place]; rfl, by rw [place]; rfl⟩
    refine ⟨(Python.Tree.Sits.leaf closed whole place fits bare).holds, ?_, ?_, ?_⟩
    · intro none
      rw [text.symm.trans none] at own
      have same : label.span.startByte = label.span.endByte := own.empty
      simp [Tree.isSilent, Tree.span, Tree.label, same] at heard
    · rw [Python.Tree.token, text]
      exact fits.fresh
    · intro comment found stop held
      have kind : label.kind = "comment" := by
        have same := Python.Tree.token_comment source (.node label children)
        rw [comment] at same
        simpa [Tree.isComment, Tree.kind, Tree.label] using same.symm
      have rest : Holds source label.span.endByte after (byteLength source) :=
        ⟨before ++ content, [], by simp [whole], by rw [place]; rfl, by rw [← whole]⟩
      have shorter := held.bounded
      obtain ⟨left, right, split, first, -⟩ :=
        rest.cut held.boundaries.2 held.ordered shorter
      rw [first.unique held] at split
      rcases (fits.comment kind).2.2 with none | line
      · rw [none] at split
        exact .inl (List.append_eq_nil_iff.mp split.symm).1
      · rw [split] at line
        cases found with
        | nil => exact .inl rfl
        | cons c found => exact .inr line

/-- A leaf that makes no token is a filler, unless it is a backslash at the end of the source. -/
theorem Python.Tree.Sits.silent_filler (sits : Python.Tree.Sits source leaf)
    (closed : leaf.isClosed = true) (silent : leaf.isSilent = true)
    (other : leaf.kind = "line_continuation" → leaf.text source ≠ ['\\']) :
    Filler (leaf.text source) := by
  have held := sits.holds
  cases sits with
  | node split => rw [closed] at split; cases split
  | @leaf label children before content after _ whole place fits bare =>
    rw [Python.Tree.text_of_leaf whole place] at held other ⊢
    by_cases kind : label.kind = "line_continuation"
    · rcases fits.continuation kind with is | is | is | ⟨is, -⟩
      · exact List.append_nil content ▸ .hidden (.inl is) .nil
      · exact List.append_nil content ▸ .hidden (.inr (.inl is)) .nil
      · exact List.append_nil content ▸ .hidden (.inr (.inr is)) .nil
      · exact absurd is (other kind)
    · have short : label.span.endByte ≤ label.span.startByte := by
        simp only [Tree.isSilent, Tree.kind, Tree.span, Tree.label, Bool.or_eq_true,
          beq_iff_eq, kind, or_false] at silent
        exact of_decide_eq_true silent
      have width : label.span.endByte = label.span.startByte + byteLength content := held.length
      rw [Text.byteLength_eq_zero.mp (by omega : byteLength content = 0)]
      exact .nil

theorem Python.Tree.Spread.leaves_sit (spread : Spread source start leaves stop) :
    (∀ leaf ∈ leaves, Python.Tree.Sits source leaf ∧ leaf.isClosed = true) ∧
      leaves.Pairwise fun left right => left.span.endByte ≤ right.span.startByte := by
  induction spread with
  | nil => exact ⟨List.forall_mem_nil _, .nil⟩
  | cons gap sits closed rest ih =>
    refine ⟨?_, List.pairwise_cons.mpr ⟨fun leaf mem => (rest.bounds leaf mem).1, ih.2⟩⟩
    intro leaf mem
    rcases List.mem_cons.mp mem with rfl | later
    · exact ⟨sits, closed⟩
    · exact ih.1 leaf later

/-- A backslash alone is a line continuation only at the end of the source. -/
theorem Python.Tree.Sits.backslash_ends (sits : Python.Tree.Sits source leaf)
    (closed : leaf.isClosed = true) (kind : leaf.kind = "line_continuation")
    (bare : leaf.text source = ['\\']) :
    leaf.span.endByte = byteLength source ∧ leaf.span.endByte = leaf.span.startByte + 1 := by
  have width := sits.holds.length
  rw [bare] at width
  refine ⟨?_, width⟩
  cases sits with
  | node split => rw [closed] at split; cases split
  | @leaf label children before content after _ whole place fits _ =>
    have none : after = [] := by
      rw [Python.Tree.text_of_leaf whole place] at bare
      rcases fits.continuation kind with is | is | is | ⟨-, none⟩
      · rw [is] at bare; cases bare
      · rw [is] at bare; cases bare
      · rw [is] at bare; cases bare
      · exact none
    have ends : label.span.endByte = byteLength (before ++ content) := by rw [place]; rfl
    rw [whole, none, List.append_nil]
    exact ends

/-- The tokens of leaves that are spread over the source. -/
theorem strewn_of_spread {gap : Text} (spread : Spread source reached leaves stop)
    (held : Holds source start gap reached) (filler : Filler gap) (last : Blank source stop offset)
    (whole : ∀ leaf ∈ leaves, leaf.kind = "line_continuation" → leaf.text source ≠ ['\\']) :
    Strewn source start
      ((leaves.filter fun leaf => !leaf.isSilent).map (Python.Tree.token source)) offset := by
  induction spread generalizing start gap with
  | nil =>
    obtain ⟨more, more_held, spacing⟩ := last
    exact .nil (held.append more_held) (filler.append (.of_spacing spacing))
  | @cons reached stop leaf leaves between sits closed _ ih =>
    obtain ⟨more, more_held, spacing⟩ := between
    have upto := held.append more_held
    have filled := filler.append (.of_spacing spacing)
    have later := fun other mem => whole other (List.mem_cons_of_mem leaf mem)
    cases silent : leaf.isSilent with
    | true =>
      rw [List.filter_cons_of_neg (by simp [silent])]
      exact ih (upto.append sits.holds)
        (filled.append (sits.silent_filler closed silent (whole leaf List.mem_cons_self))) last
        later
    | false =>
      rw [List.filter_cons_of_pos (by simp [silent]), List.map_cons]
      exact .cons upto filled (sits.token_fits closed silent)
        (ih (.nil sits.holds.boundaries.2) .nil last later)

end Leaves

/-- The offset divides the tokens of the source. -/
def Divides (parsed : Parsed) (offset : Nat) : Prop :=
  ∃ left right, parsed.tree.tokens parsed.source = left ++ right ∧
    Strewn parsed.source 0 left offset ∧ ∀ token ∈ right, offset ≤ token.span.startByte

/-- The tokens that lie between two offsets. -/
def tokensIn (parsed : Parsed) (start stop : Nat) : List Token :=
  (parsed.tree.tokens parsed.source).filter fun token =>
    start ≤ token.span.startByte && token.span.endByte ≤ stop

section Divides

variable {parsed : Parsed} {tree : Tree} {start middle stop offset : Nat} {left right : List Tree}

theorem mem_tokens_filled {source : Text} {token : Token} (mem : token ∈ tree.tokens source) :
    token.span.startByte < token.span.endByte := by
  obtain ⟨leaf, among, rfl⟩ := List.mem_map.mp mem
  have heard := (List.mem_filter.mp among).2
  simp only [Tree.isSilent, Bool.not_eq_true', Bool.or_eq_false_iff,
    decide_eq_false_iff_not] at heard
  exact Nat.lt_of_not_le heard.1

/-- Where leaves may be cut, the tokens are divided, before the end of the source and after a
token. -/
theorem Python.Tree.Cut.divides (cut : Cut parsed offset left right)
    (safe : offset < byteLength parsed.source ∨
      ∃ leaf ∈ left, leaf.isSilent = false ∧ leaf.span.endByte = offset) :
    Divides parsed offset := by
  obtain ⟨whole, ⟨reached, spread, blank⟩, final, after⟩ := cut
  have upto := blank.ordered
  refine ⟨(left.filter fun leaf => !leaf.isSilent).map (Python.Tree.token parsed.source),
    (right.filter fun leaf => !leaf.isSilent).map (Python.Tree.token parsed.source), ?_, ?_, ?_⟩
  · rw [Python.Tree.tokens, whole, List.filter_append, List.map_append]
  · have origin : Boundary parsed.source 0 := ⟨[], parsed.source, rfl, rfl⟩
    refine strewn_of_spread spread (.nil origin) .nil blank ?_
    intro leaf mem kind bare
    -- A backslash alone ends the source.
    have inside := (spread.bounds leaf mem).2.2
    obtain ⟨sits, closed⟩ := spread.leaves_sit.1 leaf mem
    obtain ⟨ends, width⟩ := sits.backslash_ends closed kind bare
    rcases safe with before | ⟨last, among, heard, at_end⟩
    · omega
    · have filled : last.span.startByte < last.span.endByte := by
        simp only [Tree.isSilent, Bool.or_eq_false_iff, decide_eq_false_iff_not] at heard
        omega
      rcases Python.Tree.order_of_pairwise spread.leaves_sit.2 mem among with rfl | first | first
      · simp [Tree.isSilent, kind] at heard
      · have bounded := (spread.leaves_sit.1 last among).1.holds.bounded
        omega
      · omega
  · intro token mem
    obtain ⟨leaf, among, rfl⟩ := List.mem_map.mp mem
    exact (after.bounds leaf (List.mem_filter.mp among).1).1

theorem mem_tokensIn {token : Token} : token ∈ tokensIn parsed start stop ↔
    token ∈ parsed.tree.tokens parsed.source ∧ start ≤ token.span.startByte ∧
      token.span.endByte ≤ stop := by
  simp [tokensIn]

/-- A token that starts before an offset that divides the tokens ends before it. -/
theorem Divides.ends_before {token : Token} (divides : Divides parsed offset)
    (mem : token ∈ parsed.tree.tokens parsed.source) (before : token.span.startByte < offset) :
    token.span.endByte ≤ offset := by
  obtain ⟨left, right, whole, strewn, after⟩ := divides
  rw [whole] at mem
  rcases List.mem_append.mp mem with here | later
  · exact (strewn.bounds token here).2.2
  · have start := after token later
    omega

/-- The tokens between two offsets are those of a split of all tokens at these offsets. -/
theorem tokensIn_eq {before inside after : List Token}
    (whole : parsed.tree.tokens parsed.source = before ++ (inside ++ after))
    (ends : ∀ token ∈ before, token.span.endByte ≤ start)
    (within : ∀ token ∈ inside, start ≤ token.span.startByte ∧ token.span.endByte ≤ stop)
    (begins : ∀ token ∈ after, stop ≤ token.span.startByte) :
    tokensIn parsed start stop = inside := by
  have filled := fun (token : Token) (mem : token ∈ parsed.tree.tokens parsed.source) =>
    mem_tokens_filled mem
  rw [whole] at filled
  have none : before.filter (fun token =>
      start ≤ token.span.startByte && token.span.endByte ≤ stop) = [] := by
    refine List.filter_eq_nil_iff.mpr fun token mem => ?_
    have upto := ends token mem
    have own := filled token (by simp [mem])
    simp only [Bool.and_eq_true, decide_eq_true_eq]
    omega
  have all : inside.filter (fun token =>
      start ≤ token.span.startByte && token.span.endByte ≤ stop) = inside :=
    List.filter_eq_self.mpr fun token mem => by simp [within token mem]
  have rest : after.filter (fun token =>
      start ≤ token.span.startByte && token.span.endByte ≤ stop) = [] := by
    refine List.filter_eq_nil_iff.mpr fun token mem => ?_
    have from_ := begins token mem
    have own := filled token (by simp [mem])
    simp only [Bool.and_eq_true, decide_eq_true_eq]
    omega
  rw [tokensIn, whole, List.filter_append, List.filter_append, none, all, rest, List.append_nil,
    List.nil_append]

/-- Two offsets that divide the tokens part them in three. -/
private theorem Divides.parts (first : Divides parsed start) (second : Divides parsed stop)
    (ordered : start ≤ stop) :
    ∃ before inside after, parsed.tree.tokens parsed.source = before ++ (inside ++ after) ∧
      Strewn parsed.source 0 before start ∧ Strewn parsed.source start inside stop ∧
      ∀ token ∈ after, stop ≤ token.span.startByte := by
  obtain ⟨before, rest, whole, strewn, later⟩ := first
  obtain ⟨upto, after, again, longer, beyond⟩ := second
  obtain ⟨inside, split⟩ : ∃ inside, upto = before ++ inside := by
    rcases List.append_eq_append_iff.mp (whole.symm.trans again) with ⟨inside, split, -⟩ |
      ⟨extra, split, rejoined⟩
    · exact ⟨inside, split⟩
    · -- No token of the first part starts after the second offset.
      cases extra with
      | nil => exact ⟨[], by rw [split]; simp⟩
      | cons token extra =>
        obtain ⟨fits, -, upper⟩ := strewn.bounds token (by rw [split]; simp)
        have lower := beyond token (by rw [rejoined]; simp)
        have filled := fits.ordered
        omega
  subst split
  rw [List.append_assoc] at again
  have tail : rest = inside ++ after := List.append_cancel_left (whole.symm.trans again)
  exact ⟨before, inside, after, again, strewn,
    longer.cut strewn ordered fun token mem => later token (by rw [tail]; simp [mem]), beyond⟩

/-- The tokens between two offsets stand there with nothing but fillers around them. -/
theorem Divides.strewn (first : Divides parsed start) (second : Divides parsed stop)
    (ordered : start ≤ stop) : Strewn parsed.source start (tokensIn parsed start stop) stop := by
  obtain ⟨before, inside, after, whole, upto, strewn, beyond⟩ := first.parts second ordered
  rw [tokensIn_eq whole (fun token mem => (upto.bounds token mem).2.2)
    (fun token mem => (strewn.bounds token mem).2) beyond]
  exact strewn

/-- An offset that divides the tokens parts those of a range. -/
theorem tokensIn_append (divides : Divides parsed middle) (before : start ≤ middle)
    (after : middle ≤ stop) :
    tokensIn parsed start stop = tokensIn parsed start middle ++ tokensIn parsed middle stop := by
  have filled := fun (token : Token) (mem : token ∈ parsed.tree.tokens parsed.source) =>
    mem_tokens_filled mem
  obtain ⟨left, right, whole, strewn, later⟩ := divides
  rw [tokensIn, tokensIn, tokensIn]
  rw [whole] at filled ⊢
  let within := fun (lower upper : Nat) (token : Token) =>
    decide (lower ≤ token.span.startByte) && decide (token.span.endByte ≤ upper)
  have early : left.filter (within start stop) = left.filter (within start middle) ∧
      left.filter (within middle stop) = [] := by
    refine ⟨List.filter_congr fun token mem => ?_, List.filter_eq_nil_iff.mpr fun token mem => ?_⟩
    all_goals
      have upto := (strewn.bounds token mem).2.2
      have own := filled token (by simp [mem])
    · rw [Bool.eq_iff_iff]
      simp only [within, Bool.and_eq_true, decide_eq_true_eq]
      omega
    · simp only [within, Bool.and_eq_true, decide_eq_true_eq]
      omega
  have late : right.filter (within start stop) = right.filter (within middle stop) ∧
      right.filter (within start middle) = [] := by
    refine ⟨List.filter_congr fun token mem => ?_, List.filter_eq_nil_iff.mpr fun token mem => ?_⟩
    all_goals
      have from_ := later token mem
      have own := filled token (by simp [mem])
    · rw [Bool.eq_iff_iff]
      simp only [within, Bool.and_eq_true, decide_eq_true_eq]
      omega
    · simp only [within, Bool.and_eq_true, decide_eq_true_eq]
      omega
  rw [List.filter_append, List.filter_append, List.filter_append, early.1, early.2, late.1, late.2,
    List.append_nil, List.nil_append]

theorem Python.Tree.Sits.token_bounds {source : Text} {token : Token}
    (sits : Python.Tree.Sits source tree) (mem : token ∈ tree.tokens source) :
    tree.span.startByte ≤ token.span.startByte ∧ token.span.endByte ≤ tree.span.endByte := by
  obtain ⟨leaf, among, rfl⟩ := List.mem_map.mp mem
  have bounds := sits.spread.bounds leaf (List.mem_filter.mp among).1
  exact ⟨bounds.1, bounds.2.2⟩

theorem Python.Tree.mem_tokensOf {source : Text} {token : Token} {trees : List Tree} :
    token ∈ Python.Tree.tokensOf source trees ↔ ∃ tree ∈ trees, token ∈ tree.tokens source := by
  induction trees with
  | nil => simp [Python.Tree.tokensOf_nil]
  | cons tree rest ih => simp [Python.Tree.tokensOf_cons, ih]

/-- The tokens of a tree that has its place stand together. -/
theorem Python.Tree.Placed.whole_tokens (placed : Placed parsed tree) :
    ∃ before after,
      parsed.tree.tokens parsed.source = before ++ (tree.tokens parsed.source ++ after) ∧
        (∀ token ∈ before, token.span.endByte ≤ tree.span.startByte) ∧
        ∀ token ∈ after, tree.span.endByte ≤ token.span.startByte := by
  obtain ⟨left, right, ⟨whole, ⟨reached, spread, blank⟩, -⟩, -, -, final, after⟩ := placed.cuts
  have upto := blank.ordered
  refine ⟨(left.filter fun leaf => !leaf.isSilent).map (Python.Tree.token parsed.source),
    (right.filter fun leaf => !leaf.isSilent).map (Python.Tree.token parsed.source), ?_, ?_, ?_⟩
  · simp only [Python.Tree.tokens, whole, List.filter_append, List.map_append]
  · intro token mem
    obtain ⟨leaf, among, rfl⟩ := List.mem_map.mp mem
    exact Nat.le_trans (spread.bounds leaf (List.mem_filter.mp among).1).2.2 upto
  · intro token mem
    obtain ⟨leaf, among, rfl⟩ := List.mem_map.mp mem
    exact (after.bounds leaf (List.mem_filter.mp among).1).1

/-- The tokens of a tree that has its place are those between its ends. -/
theorem Python.Tree.Placed.tokensIn_eq (placed : Placed parsed tree) :
    tokensIn parsed tree.span.startByte tree.span.endByte = tree.tokens parsed.source := by
  obtain ⟨before, after, whole, ends, begins⟩ := placed.whole_tokens
  exact LambdaLayout.tokensIn_eq whole ends (fun token mem => placed.sits.token_bounds mem) begins

/-- The tokens of neighbouring parts of a tree are those between them. -/
private theorem Python.Tree.Placed.tokensIn_parts {left middle right : List Tree}
    (placed : Placed parsed tree) (split : tree.isClosed = false)
    (whole : tree.children = left ++ (middle ++ right))
    (ends : ∀ part ∈ left, part.span.endByte ≤ start)
    (within : ∀ part ∈ middle, start ≤ part.span.startByte ∧ part.span.endByte ≤ stop)
    (begins : ∀ part ∈ right, stop ≤ part.span.startByte)
    (first : tree.span.startByte ≤ start) (last : stop ≤ tree.span.endByte) :
    tokensIn parsed start stop = Python.Tree.tokensOf parsed.source middle := by
  obtain ⟨before, after, around, upto, beyond⟩ := placed.whole_tokens
  have sits := (placed.sits.lies split).sits
  rw [whole] at sits
  rw [Python.Tree.tokens_of_split split, whole, Python.Tree.tokensOf_append,
    Python.Tree.tokensOf_append] at around
  have parts : parsed.tree.tokens parsed.source =
      (before ++ Python.Tree.tokensOf parsed.source left) ++
        (Python.Tree.tokensOf parsed.source middle ++
          (Python.Tree.tokensOf parsed.source right ++ after)) := by
    rw [around]
    simp only [List.append_assoc]
  refine LambdaLayout.tokensIn_eq parts ?_ ?_ ?_
  · intro token mem
    rcases List.mem_append.mp mem with earlier | inside
    · exact Nat.le_trans (upto token earlier) first
    · obtain ⟨part, among, own⟩ := Python.Tree.mem_tokensOf.mp inside
      exact Nat.le_trans ((sits part (by simp [among])).token_bounds own).2 (ends part among)
  · intro token mem
    obtain ⟨part, among, own⟩ := Python.Tree.mem_tokensOf.mp mem
    have bounds := (sits part (by simp [among])).token_bounds own
    have place := within part among
    exact ⟨Nat.le_trans place.1 bounds.1, Nat.le_trans bounds.2 place.2⟩
  · intro token mem
    rcases List.mem_append.mp mem with inside | later
    · obtain ⟨part, among, own⟩ := Python.Tree.mem_tokensOf.mp inside
      exact Nat.le_trans (begins part among) ((sits part (by simp [among])).token_bounds own).1
    · exact Nat.le_trans last (beyond token later)

/-- The tokens between two parts of a tree are those of the parts between them. -/
theorem Python.Tree.Placed.tokensIn_between {left middle right : List Tree} {first last : Tree}
    (placed : Placed parsed tree) (split : tree.isClosed = false)
    (whole : tree.children = left ++ first :: (middle ++ last :: right)) :
    tokensIn parsed first.span.endByte last.span.startByte =
      Python.Tree.tokensOf parsed.source middle := by
  have lies := placed.sits.lies split
  have ordered := fun part mem => (lies.sits part mem).holds.ordered
  rw [whole] at lies ordered
  obtain ⟨inside, apart⟩ := lies.bounds
  simp only [List.pairwise_append, List.pairwise_cons, List.mem_cons, List.mem_append] at apart
  have around : tree.children = (left ++ [first]) ++ (middle ++ last :: right) := by
    rw [whole]
    simp
  refine placed.tokensIn_parts split around ?_ ?_ ?_ ?_ ?_
  · intro part mem
    rcases List.mem_append.mp mem with mem | mem
    · exact Nat.le_trans (apart.2.2 part mem first (.inl rfl)) (ordered first (by simp))
    · rw [List.mem_singleton.mp mem]
  · intro part mem
    exact ⟨apart.2.1.1 part (.inl mem), apart.2.1.2.2.2 part mem last (.inl rfl)⟩
  · intro part mem
    rcases List.mem_cons.mp mem with rfl | mem
    · exact Nat.le_refl _
    · exact Nat.le_trans (ordered last (by simp)) (apart.2.1.2.2.1.1 part mem)
  · exact Nat.le_trans (inside first (by simp)).1 (ordered first (by simp))
  · exact Nat.le_trans (ordered last (by simp)) (inside last (by simp)).2

/-- The tokens after a part of a tree are those of the parts after it. -/
theorem Python.Tree.Placed.tokensIn_after {left right : List Tree} {first : Tree}
    (placed : Placed parsed tree) (split : tree.isClosed = false)
    (whole : tree.children = left ++ first :: right) :
    tokensIn parsed first.span.endByte tree.span.endByte =
      Python.Tree.tokensOf parsed.source right := by
  have lies := placed.sits.lies split
  have ordered := fun part mem => (lies.sits part mem).holds.ordered
  rw [whole] at lies ordered
  obtain ⟨inside, apart⟩ := lies.bounds
  simp only [List.pairwise_append, List.pairwise_cons, List.mem_cons] at apart
  have around : tree.children = (left ++ [first]) ++ (right ++ []) := by
    rw [whole]
    simp
  refine placed.tokensIn_parts split around ?_ ?_ (List.forall_mem_nil _) ?_ (Nat.le_refl _)
  · intro part mem
    rcases List.mem_append.mp mem with mem | mem
    · exact Nat.le_trans (apart.2.2 part mem first (.inl rfl)) (ordered first (by simp))
    · rw [List.mem_singleton.mp mem]
  · intro part mem
    exact ⟨apart.2.1.1 part mem, (inside part (by simp [mem])).2⟩
  · exact Nat.le_trans (inside first (by simp)).1 (ordered first (by simp))

theorem Python.Tree.Placed.divides_start (placed : Placed parsed tree)
    (before : tree.span.startByte < byteLength parsed.source) :
    Divides parsed tree.span.startByte := by
  obtain ⟨left, right, first, -⟩ := placed.cuts
  exact first.divides (.inl before)

theorem Python.Tree.Placed.divides_end (placed : Placed parsed tree)
    (safe : tree.span.endByte < byteLength parsed.source ∨
      ∃ token ∈ tree.tokens parsed.source, token.span.endByte = tree.span.endByte) :
    Divides parsed tree.span.endByte := by
  obtain ⟨left, right, -, last⟩ := placed.cuts
  refine last.divides (safe.imp_right ?_)
  rintro ⟨token, mem, ends⟩
  obtain ⟨leaf, among, rfl⟩ := List.mem_map.mp mem
  obtain ⟨among, heard⟩ := List.mem_filter.mp among
  exact ⟨leaf, List.mem_append_right _ among, by simpa using heard, ends⟩

end Divides

section Tokenize

variable {parsed : Parsed} {start stop : Nat}

/-- What is asked of tokens without regard to blanks and rows may be asked of those of the tree. -/
theorem any_tokenize (grammatical : parsed.Grammatical) {asked : Token → Bool}
    (unplaced : ∀ token : Token, asked token.unplaced = asked token)
    (solid : ∀ token : Token, asked token = true → token.isBlank = false) :
    (Token.tokenize parsed).any asked = (parsed.tree.tokens parsed.source).any asked := by
  rw [← Token.tokenize_solid grammatical, List.any_map, List.any_filter]
  congr 1
  funext token
  rw [Function.comp_apply, unplaced]
  cases is : asked token with
  | false => simp
  | true => simp [solid token is]

theorem Layout.endsWithComment_eq {layout : Layout} (grammatical : parsed.Grammatical)
    (tokens : layout.tokens = Token.tokenize parsed) (divides : Divides parsed stop) :
    layout.endsWithComment ⟨start, stop⟩ =
      (tokensIn parsed start stop).getLast?.any fun token => token.kind == .comment := by
  let within := fun token : Token =>
    decide (start ≤ token.span.startByte) && decide (token.span.startByte < stop)
  have same : tokensIn parsed start stop =
      (parsed.tree.tokens parsed.source).filter within := by
    refine List.filter_congr fun token mem => ?_
    have filled := mem_tokens_filled mem
    have ends := divides.ends_before mem
    rw [Bool.eq_iff_iff]
    simp only [within, Bool.and_eq_true, decide_eq_true_eq]
    omega
  have last : ((Token.tokenize parsed).filter within).reverse.find? (fun token =>
      !(token.kind == .whitespace || token.kind == .newline)) =
      (((Token.tokenize parsed).filter fun token => !token.isBlank).filter within).getLast? := by
    rw [← List.head?_filter, List.filter_reverse, List.head?_reverse, List.filter_filter,
      List.filter_filter]
    congr 2
    funext token
    exact Bool.and_comm _ _
  rw [endsWithComment, tokens, same, ← Token.tokenize_solid grammatical]
  simp only [List.filter_map, List.getLast?_map, Option.any_map]
  exact congrArg (Option.any fun token => token.kind == .comment) last

end Tokenize

end LambdaLayout
