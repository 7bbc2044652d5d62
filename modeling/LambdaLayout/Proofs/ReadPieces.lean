import LambdaLayout.Proofs.TokenReading
import LambdaLayout.Proofs.TreeTokens
import LambdaLayout.Python.Parser

/-!
What parsers hand on. The pieces read from one place to another lie one after the other and end where
reading stands, so that a node closed over them covers them, and a comment or line continuation at
the front stays outside. Of the brackets and colons among the tokens three things may be known: that
the tokens may stand in the header of a lambda, that the brackets match, or that they match unless
the source was repaired.
-/

namespace LambdaLayout.Python

open LambdaLayout.Region (Header IsPlain Matched)
open LambdaLayout.Python.Tree

section Built

variable {label : Label} {children : List Tree}

private theorem kinds_of_built (built : atoms.contains label.kind = false) :
    label.kind ≠ "string" ∧ label.kind ≠ "comment" ∧ label.kind ≠ "line_continuation" ∧
      label.kind ≠ "identifier" := by
  refine ⟨?_, ?_, ?_, ?_⟩ <;> intro is <;> rw [is] at built <;> exact absurd built (by decide)

/-- Only atoms count as leaves in spite of their parts. -/
theorem Tree.isClosed_of_built (built : atoms.contains label.kind = false) :
    isClosed (.node label children) = children.isEmpty := by
  obtain ⟨string, comment, -⟩ := kinds_of_built built
  simp only [isClosed, beq_eq_false_iff_ne.mpr string, beq_eq_false_iff_ne.mpr comment,
    Bool.or_false]

theorem Tree.solid_of_built (built : atoms.contains label.kind = false) :
    isExtra (.node label children) = false := by
  obtain ⟨-, comment, other, -⟩ := kinds_of_built built
  simp only [isExtra, isComment, Tree.kind, Tree.label, beq_eq_false_iff_ne.mpr comment,
    beq_eq_false_iff_ne.mpr other, Bool.or_false]

/-- A leaf that is no atom has only to be no bracket. -/
theorem Tree.LeafFits.of_built {text after : Text} (built : atoms.contains label.kind = false)
    (simple : constructs.contains label.kind = false) (named : label.named = true)
    (plain : (TokenKind.ofLeaf label.kind text).opens = false ∧
      (TokenKind.ofLeaf label.kind text).closes = false)
    (fresh : text.head? ≠ some '\n') : LeafFits label text after := by
  obtain ⟨-, comment, other, identifier⟩ := kinds_of_built built
  exact
    { simple := fun listed => nomatch simple.symm.trans listed
      sign := fun unnamed => nomatch named.symm.trans unnamed
      plain := fun _ => plain
      fresh := fresh
      identifier := fun is => absurd is identifier
      extra := fun is => (is.elim comment other).elim
      comment := fun is => absurd is comment
      continuation := fun is => absurd is other }

end Built

/-- The nodes among the pieces. -/
def Pieces.trees (pieces : Pieces) : List Tree := pieces.filterMap Piece.tree?

namespace Pieces

@[simp] theorem trees_nil : trees [] = [] := rfl

@[simp] theorem trees_tree (tree : Tree) (pieces : Pieces) :
    trees (.tree tree :: pieces) = tree :: trees pieces := rfl

@[simp] theorem trees_mark (span : Span) (pieces : Pieces) :
    trees (.mark span :: pieces) = trees pieces := rfl

@[simp] theorem trees_append (left right : Pieces) :
    trees (left ++ right) = trees left ++ trees right := List.filterMap_append ..

@[simp] theorem trees_map (list : List Tree) : trees (list.map Piece.tree) = list := by
  induction list with
  | nil => rfl
  | cons tree rest ih => rw [List.map_cons, trees_tree, ih]

/-- Says that a piece is neither a comment nor a line continuation. -/
def isSolid (pieces : Pieces) : Bool := pieces.any fun piece => !piece.isExtra

@[simp] theorem isSolid_append (left right : Pieces) :
    isSolid (left ++ right) = (isSolid left || isSolid right) := List.any_append

/-- Says that one of the pieces has a token other than a comment. -/
def isHeard (pieces : Pieces) : Bool := pieces.trees.any Tree.isHeard

@[simp] theorem isHeard_append (left right : Pieces) :
    isHeard (left ++ right) = (isHeard left || isHeard right) := by
  rw [isHeard, trees_append, List.any_append]
  rfl

/-- The first node that is neither a comment nor a line continuation. -/
def front? (pieces : Pieces) : Option Tree := pieces.trees.find? fun tree => !tree.isExtra

/-- Says that there is such a node, and that it is named. -/
def opensNamed (pieces : Pieces) : Bool := pieces.front?.any fun tree => tree.label.named

theorem front_of_extras {lead : List Tree} (skipped : ∀ tree ∈ lead, tree.isExtra = true)
    (pieces : Pieces) : front? (lead.map Piece.tree ++ pieces) = pieces.front? := by
  rw [front?, trees_append, trees_map, List.find?_append,
    List.find?_eq_none.mpr (by simpa using skipped), Option.none_or]
  rfl

theorem opensNamed_append {left : Pieces} (opens : left.opensNamed = true) (right : Pieces) :
    (left ++ right).opensNamed = true := by
  obtain ⟨tree, found, named⟩ := (Option.any_eq_true ..).mp opens
  rw [opensNamed, front?, trees_append, List.find?_append, show List.find? _ _ = some tree from found]
  exact named

end Pieces

/-- The span lies in the source. -/
def Stands (source : Text) (span : Span) : Prop :=
  ∃ first last : Cursor, first.Within source ∧ last.Within source ∧ first.byte ≤ last.byte ∧
    span = first.spanTo last

namespace Stands

variable {source : Text} {span other : Span}

theorem through (first : Stands source span) (second : Stands source other)
    (ordered : span.startByte ≤ other.endByte) : Stands source (span.through other) := by
  obtain ⟨start, _, within, _, _, rfl⟩ := first
  obtain ⟨_, stop, _, also, _, rfl⟩ := second
  exact ⟨start, stop, within, also, ordered, rfl⟩

theorem place (stands : Stands source span) :
    ∃ before content after, source = before ++ content ++ after ∧ span = spanOver before content := by
  obtain ⟨first, last, within, also, ordered, rfl⟩ := stands
  obtain ⟨text, reads⟩ := within.reads also ordered
  obtain ⟨before, whole, place⟩ := reads.place within
  exact ⟨before, text, last.rest, whole, place⟩

theorem of_place {before content after : Text} (whole : source = before ++ content ++ after)
    (place : span = spanOver before content) : Stands source span := by
  refine ⟨⟨content ++ after, Text.byteLength before, placeAfter before⟩,
    ⟨after, Text.byteLength (before ++ content), placeAfter (before ++ content)⟩,
    ⟨before, by rw [whole, List.append_assoc], rfl, rfl⟩, ⟨before ++ content, whole, rfl, rfl⟩, ?_,
    place⟩
  simp only [Text.byteLength_append]
  exact Nat.le_add_right _ _

theorem boundary (stands : Stands source span) : Text.Boundary source span.startByte := by
  obtain ⟨first, last, within, -, -, rfl⟩ := stands
  exact within.boundary

theorem ordered (stands : Stands source span) : span.startByte ≤ span.endByte := by
  obtain ⟨first, last, -, -, ordered, rfl⟩ := stands
  exact ordered

end Stands

theorem Tree.Sits.stands {source : Text} {tree : Tree} (sits : Sits source tree) :
    Stands source tree.span := by
  cases sits with
  | leaf closed whole place fits => exact .of_place whole place
  | node split whole place parts construct brackets => exact .of_place whole place

/-- The pieces lie one after the other, from one offset to another. Marks take no place. -/
inductive Laid (source : Text) : Nat → Pieces → Nat → Prop where
  | nil {offset : Nat} : Laid source offset [] offset
  | tree {start stop : Nat} {tree : Tree} {pieces : Pieces}
      (gap : Blank source start tree.span.startByte) (sits : Sits source tree)
      (clean : tree.isExtra = true → tree.hasError = false)
      (rest : Laid source tree.span.endByte pieces stop) :
      Laid source start (.tree tree :: pieces) stop
  | mark {start stop : Nat} {span : Span} {pieces : Pieces} (stands : Stands source span)
      (starts : span.startByte = start) (ends : span.endByte = start)
      (rest : Laid source start pieces stop) : Laid source start (.mark span :: pieces) stop

namespace Laid

variable {source : Text} {start middle stop : Nat} {left right pieces : Pieces} {piece : Piece}

theorem append (first : Laid source start left middle) (second : Laid source middle right stop) :
    Laid source start (left ++ right) stop := by
  induction first with
  | nil => exact second
  | tree gap sits clean _ ih => exact .tree gap sits clean (ih second)
  | mark stands starts ends _ ih => exact .mark stands starts ends (ih second)

theorem split (laid : Laid source start (left ++ right) stop) :
    ∃ middle, Laid source start left middle ∧ Laid source middle right stop := by
  induction left generalizing start with
  | nil => exact ⟨start, .nil, laid⟩
  | cons piece rest ih =>
    cases laid with
    | tree gap sits clean later =>
      obtain ⟨middle, front, back⟩ := ih later
      exact ⟨middle, .tree gap sits clean front, back⟩
    | mark stands starts ends later =>
      obtain ⟨middle, front, back⟩ := ih later
      exact ⟨middle, .mark stands starts ends front, back⟩

theorem ordered (laid : Laid source start pieces stop) : start ≤ stop := by
  induction laid with
  | nil => exact Nat.le_refl _
  | tree gap sits _ _ ih => exact Nat.le_trans gap.ordered (Nat.le_trans sits.stands.ordered ih)
  | mark _ _ _ _ ih => exact ih

theorem lies (laid : Laid source start pieces stop) : Lies source start pieces.trees stop := by
  induction laid with
  | nil => exact .nil
  | tree gap sits _ _ ih => exact .cons gap sits ih
  | mark _ _ _ _ ih => exact ih

theorem of_lies {trees : List Tree} (lies : Lies source start trees stop)
    (clean : ∀ tree ∈ trees, tree.isExtra = true → tree.hasError = false) :
    Laid source start (trees.map Piece.tree) stop := by
  induction trees generalizing start with
  | nil => cases lies; exact .nil
  | cons tree rest ih =>
    cases lies with
    | cons gap sits later =>
      exact .tree gap sits (clean tree List.mem_cons_self)
        (ih later fun other mem => clean other (List.mem_cons_of_mem _ mem))

theorem stands (laid : Laid source start pieces stop) :
    ∀ piece ∈ pieces, Stands source piece.span := by
  induction laid with
  | nil => nofun
  | tree gap sits _ _ ih =>
    intro piece mem
    rcases List.mem_cons.mp mem with rfl | later
    · exact sits.stands
    · exact ih piece later
  | mark stands _ _ _ ih =>
    intro piece mem
    rcases List.mem_cons.mp mem with rfl | later
    · exact stands
    · exact ih piece later

/-- The first piece comes after blanks. -/
theorem first (laid : Laid source start (piece :: pieces) stop) :
    Blank source start piece.span.startByte ∧
      Laid source piece.span.startByte (piece :: pieces) stop := by
  cases laid with
  | tree gap sits clean later => exact ⟨gap, .tree (.here sits.stands.boundary) sits clean later⟩
  | mark stands starts ends later =>
    subst starts
    exact ⟨.here stands.boundary, .mark stands rfl ends later⟩

/-- The last piece ends where the pieces end. -/
theorem last (laid : Laid source start pieces stop) (found : pieces.getLast? = some piece) :
    piece.span.endByte = stop := by
  induction laid with
  | nil => cases found
  | tree gap sits clean rest ih =>
    cases rest with
    | nil => cases found; rfl
    | tree | mark => exact ih (by rwa [List.getLast?_cons_cons] at found)
  | mark stands starts ends rest ih =>
    cases rest with
    | nil => cases found; exact ends
    | tree | mark => exact ih (by rwa [List.getLast?_cons_cons] at found)

theorem clean (laid : Laid source start pieces stop) :
    ∀ tree ∈ pieces.trees, Sits source tree ∧ (tree.isExtra = true → tree.hasError = false) := by
  induction laid with
  | nil => nofun
  | tree gap sits clean _ ih =>
    intro tree mem
    rcases List.mem_cons.mp mem with rfl | later
    · exact ⟨sits, clean⟩
    · exact ih tree later
  | mark _ _ _ _ ih => exact ih

end Laid

/-- Whether trees are heard is seen from their tokens. -/
theorem Tree.any_heard (source : Text) (trees : List Tree) :
    trees.any isHeard = (tokensOf source trees).any fun token => token.kind != .comment := by
  induction trees with
  | nil => rfl
  | cons tree rest ih => rw [List.any_cons, tokensOf_cons, List.any_append, isHeard_eq source, ih]

/-- What is known of the brackets and colons among tokens. -/
inductive Grade where
  /-- The tokens may stand in the header of a lambda. -/
  | header
  /-- The brackets match. -/
  | matched
  /-- The brackets match, unless the source was repaired. -/
  | repaired
  /-- Nothing is known. -/
  | loose

namespace Grade

/-- The tokens of the trees are as the grade says. -/
def Fits (source : Text) (grade : Grade) (trees : List Tree) : Prop :=
  match grade with
  | header => Header (tokensOf source trees)
  | matched => Matched (tokensOf source trees)
  | repaired => anyError trees = false → Matched (tokensOf source trees)
  | loose => True

variable {source : Text} {grade : Grade} {left right trees : List Tree}

theorem anyError_append (left right : List Tree) :
    anyError (left ++ right) = (anyError left || anyError right) := by
  induction left with
  | nil => rw [List.nil_append, anyError, Bool.false_or]
  | cons tree rest ih => rw [List.cons_append, anyError, anyError, ih, Bool.or_assoc]

theorem fits_nil (source : Text) (grade : Grade) : grade.Fits source [] := by
  cases grade with
  | header => exact .nil
  | matched => exact .nil
  | repaired => exact fun _ => .nil
  | loose => trivial

theorem fits_append (first : grade.Fits source left) (second : grade.Fits source right) :
    grade.Fits source (left ++ right) := by
  cases grade with
  | header =>
    rw [Fits, tokensOf_append]
    exact Header.append first second
  | matched =>
    rw [Fits, tokensOf_append]
    exact Matched.append first second
  | repaired =>
    intro sound
    rw [anyError_append, Bool.or_eq_false_iff] at sound
    rw [tokensOf_append]
    exact (first sound.1).append (second sound.2)
  | loose => trivial

/-- What may stand in a header fits every grade. -/
theorem fits_of_header (header : Grade.header.Fits source trees) : grade.Fits source trees := by
  cases grade with
  | header => exact header
  | matched => exact Header.matched header
  | repaired => exact fun _ => Header.matched header
  | loose => trivial

theorem repaired_of_matched (matched : Grade.matched.Fits source trees) :
    Grade.repaired.Fits source trees := fun _ => matched

/-- Where the brackets match whatever the source, no comment comes last. -/
def Ends (grade : Grade) (trees : List Tree) : Prop :=
  match grade with
  | header | matched => EndsSolid trees
  | repaired | loose => True

theorem ends_of_solid (solid : EndsSolid trees) : grade.Ends trees := by
  cases grade <;> first | exact solid | trivial

theorem ends_append (first : grade.Ends left) (second : grade.Ends right) :
    grade.Ends (left ++ right) := by
  cases grade with
  | header | matched => exact EndsSolid.append first second
  | repaired | loose => trivial

theorem ends_congr (source : Text) (tokens : tokensOf source left = tokensOf source right)
    (ends : grade.Ends left) : grade.Ends right := by
  cases grade with
  | header | matched => exact EndsSolid.congr source ends tokens
  | repaired | loose => trivial

/-- The grade depends on the tokens, and on whether one of the trees holds a repair. -/
theorem fits_congr (tokens : tokensOf source left = tokensOf source right)
    (sound : anyError right = false → anyError left = false) (fits : grade.Fits source left) :
    grade.Fits source right := by
  cases grade with
  | header => rw [Fits, ← tokens]; exact fits
  | matched => rw [Fits, ← tokens]; exact fits
  | repaired => exact fun clean => tokens ▸ fits (sound clean)
  | loose => trivial

end Grade

/-- A comment is one token, and a line continuation is none. -/
theorem Tree.Sits.extra_tokens {source : Text} {tree : Tree} (sits : Sits source tree)
    (extra : tree.isExtra = true) :
    tree.tokens source = [] ∨ (tree.tokens source = [tree.token source] ∧
      IsPlain (tree.token source) ∧ (tree.token source).kind = .comment) := by
  obtain ⟨closed, -, named⟩ := sits.extra extra
  rw [tokens_of_closed closed]
  cases silent : tree.isSilent with
  | true => exact .inl rfl
  | false =>
    refine .inr ⟨rfl, sits.leaf_plain closed named, ?_⟩
    rcases extra_kind extra with comment | continuation
    · rw [token, comment]
      rfl
    · simp [isSilent, continuation] at silent

theorem Tree.Sits.extra_unheard {source : Text} {tree : Tree} (sits : Sits source tree)
    (extra : tree.isExtra = true) : tree.isHeard = false := by
  rw [isHeard_eq source]
  rcases sits.extra_tokens extra with none | ⟨one, -, kind⟩
  · rw [none]
    rfl
  · rw [one]
    simp [kind]

theorem Tree.Sits.extra_header {source : Text} {tree : Tree} (sits : Sits source tree)
    (extra : tree.isExtra = true) : Grade.header.Fits source [tree] := by
  rw [Grade.Fits, tokensOf_cons, tokensOf_nil, List.append_nil]
  rcases sits.extra_tokens extra with none | ⟨one, plain, kind⟩
  · rw [none]
    exact .nil
  · rw [one]
    exact .plain plain (by rw [kind]; nofun) (by rw [kind]; nofun) .nil

/-- Comments and line continuations may stand anywhere. -/
theorem Grade.fits_extras {source : Text} {grade : Grade} {trees : List Tree}
    (sits : ∀ tree ∈ trees, Sits source tree) (extra : ∀ tree ∈ trees, tree.isExtra = true) :
    grade.Fits source trees := by
  induction trees with
  | nil => exact Grade.fits_nil _ _
  | cons first rest ih =>
    have here := (sits first List.mem_cons_self).extra_header (extra first List.mem_cons_self)
    exact Grade.fits_append (Grade.fits_of_header here)
      (ih (fun tree mem => sits tree (List.mem_cons_of_mem _ mem))
        fun tree mem => extra tree (List.mem_cons_of_mem _ mem))

/-- What is known of the tokens is still known without comments at their front. -/
theorem Grade.fits_drop {source : Text} {grade : Grade} {lead trees : List Tree}
    (extra : ∀ tree ∈ lead, Sits source tree ∧ tree.isExtra = true ∧ tree.hasError = false)
    (fits : grade.Fits source (lead ++ trees)) : grade.Fits source trees := by
  induction lead with
  | nil => exact fits
  | cons tree rest ih =>
    obtain ⟨sits, skipped, sound⟩ := extra tree List.mem_cons_self
    refine ih (fun other mem => extra other (List.mem_cons_of_mem _ mem)) ?_
    have tokens : tokensOf source (tree :: rest ++ trees) =
        tree.tokens source ++ tokensOf source (rest ++ trees) := tokensOf_cons _ _
    rcases sits.extra_tokens skipped with none | ⟨one, plain, kind⟩
    · rw [none] at tokens
      refine Grade.fits_congr tokens (fun clean => ?_) fits
      rw [List.cons_append, anyError, sound, clean]
      rfl
    · rw [one] at tokens
      cases grade with
      | header =>
        rw [Grade.Fits, tokens] at fits
        exact Header.of_plain plain (by rw [kind]; nofun) fits
      | matched =>
        rw [Grade.Fits, tokens] at fits
        exact Matched.of_plain plain fits
      | repaired =>
        intro clean
        have matched := fits (by rw [List.cons_append, anyError, sound, clean]; rfl)
        rw [tokens] at matched
        exact Matched.of_plain plain matched
      | loose => trivial

/-- What has a token other than a comment is solid. -/
theorem Laid.solid_of_heard {source : Text} {start stop : Nat} {pieces : Pieces}
    (laid : Laid source start pieces stop) (heard : pieces.isHeard = true) :
    pieces.isSolid = true := by
  obtain ⟨tree, mem, is⟩ := List.any_eq_true.mp heard
  obtain ⟨piece, among, made⟩ := List.mem_filterMap.mp mem
  refine List.any_eq_true.mpr ⟨piece, among, ?_⟩
  cases piece with
  | mark span => rfl
  | tree other =>
    cases made
    cases extra : tree.isExtra with
    | false => simp [Piece.isExtra, extra]
    | true =>
      rw [((laid.clean tree mem).1).extra_unheard extra] at is
      cases is

/-- The state of a parser over the source: it stands in the source, and the next token, if it was
asked for, comes from there. -/
structure ParseState.Valid (source : Text) (state : ParseState) : Prop where
  within : state.reader.cursor.Within source
  ahead : ∀ lexed ∈ state.ahead, lexed.From source state.reader.cursor

/-- Where reading stands. -/
def ParseState.offset (state : ParseState) : Nat := state.reader.cursor.byte

/-- The pieces were read from the offset on, up to where the parser stands now. -/
structure Reach (source : Text) (grade : Grade) (offset : Nat) (pieces : Pieces)
    (state : ParseState) : Prop where
  valid : state.Valid source
  laid : Laid source offset pieces state.offset
  fits : grade.Fits source pieces.trees
  ends : grade.Ends pieces.trees

/-- The pieces are a single tree, after comments and line continuations. -/
structure One (source : Text) (grade : Grade) (offset : Nat) (pieces : Pieces) (tree : Tree)
    (state : ParseState) : Prop extends Reach source grade offset pieces state where
  solid : tree.isExtra = false
  heard : tree.isHeard = true
  lead : ∃ lead : List Tree, pieces = lead.map Piece.tree ++ [.tree tree] ∧
    ∀ tree ∈ lead, tree.isExtra = true

namespace Pieces

/-- Where the first solid piece stands. -/
theorem split_solid {pieces : Pieces} (solid : pieces.isSolid = true) :
    ∃ (lead : List Tree) (first : Piece) (rest : Pieces),
      pieces = lead.map Piece.tree ++ first :: rest ∧
      (∀ tree ∈ lead, tree.isExtra = true) ∧ first.isExtra = false := by
  induction pieces with
  | nil => cases solid
  | cons piece pieces ih =>
    cases extra : piece.isExtra with
    | false => exact ⟨[], piece, pieces, rfl, nofun, extra⟩
    | true =>
      cases piece with
      | mark span => cases extra
      | tree tree =>
        have later : isSolid pieces = true := by simpa [isSolid, extra] using solid
        obtain ⟨lead, first, rest, split, skipped, kept⟩ := ih later
        refine ⟨tree :: lead, first, rest, by rw [split]; rfl, ?_, kept⟩
        intro other mem
        rcases List.mem_cons.mp mem with rfl | mem
        · exact extra
        · exact skipped other mem

/-- A node closed over pieces takes them from the first solid one on. -/
theorem close_eq {lead : List Tree} {first : Piece} {rest : Pieces} (kind : String) (named : Bool)
    (skipped : ∀ tree ∈ lead, tree.isExtra = true) (kept : first.isExtra = false) :
    close kind named (lead.map Piece.tree ++ first :: rest) = lead.map Piece.tree ++
      [.tree (.node
        { kind := kind
          named := named
          span := first.span.through ((first :: rest).getLast (List.cons_ne_nil _ _)).span }
        (trees (first :: rest)))] := by
  have all : ∀ piece ∈ lead.map Piece.tree, piece.isExtra = true := by
    intro piece mem
    obtain ⟨tree, among, rfl⟩ := List.mem_map.mp mem
    exact skipped tree among
  have front : (lead.map Piece.tree ++ first :: rest).takeWhile Piece.isExtra =
      lead.map Piece.tree := by
    rw [List.takeWhile_append_of_pos all, List.takeWhile_cons, kept]
    simp
  have back : (lead.map Piece.tree ++ first :: rest).dropWhile Piece.isExtra = first :: rest := by
    rw [List.dropWhile_append_of_pos all, List.dropWhile_cons, kept]
    simp
  rw [close, front, back]
  simp only [List.head?_cons, List.getLast?_eq_some_getLast (List.cons_ne_nil first rest)]
  rfl

end Pieces

namespace Reach

variable {source : Text} {grade : Grade} {offset : Nat} {pieces left right : Pieces}
  {state next : ParseState}

theorem start (valid : state.Valid source) : Reach source grade state.offset [] state :=
  ⟨valid, .nil, Grade.fits_nil _ _, Grade.ends_of_solid nofun⟩

theorem append (first : Reach source grade offset left state)
    (second : Reach source grade state.offset right next) :
    Reach source grade offset (left ++ right) next where
  valid := second.valid
  laid := first.laid.append second.laid
  fits := by
    rw [Pieces.trees_append]
    exact Grade.fits_append first.fits second.fits
  ends := by
    rw [Pieces.trees_append]
    exact Grade.ends_append first.ends second.ends

theorem of_header (reach : Reach source .header offset pieces state) :
    Reach source grade offset pieces state :=
  ⟨reach.valid, reach.laid, Grade.fits_of_header reach.fits, Grade.ends_of_solid reach.ends⟩

theorem repaired (reach : Reach source .matched offset pieces state) :
    Reach source .repaired offset pieces state :=
  ⟨reach.valid, reach.laid, Grade.repaired_of_matched reach.fits, trivial⟩

theorem fits_repaired (reach : Reach source grade offset pieces state) (known : grade ≠ .loose) :
    Grade.repaired.Fits source pieces.trees := by
  cases grade with
  | header => exact Grade.fits_of_header reach.fits
  | matched => exact Grade.repaired_of_matched reach.fits
  | repaired => exact reach.fits
  | loose => exact absurd rfl known

/-- A node without trees below it takes no place. -/
private theorem empty_width {start stop : Nat} {pieces : Pieces}
    (laid : Laid source start pieces stop) (none : pieces.trees = []) : start = stop := by
  induction laid with
  | nil => rfl
  | tree => cases none
  | mark _ _ _ _ ih => exact ih none

section Closing

variable {lead : List Tree} {first : Piece} {rest : Pieces} {kind : String} {named : Bool}
  {start stop : Nat}

/-- The span from the first piece to the last. -/
private def spanOf (first : Piece) (rest : Pieces) : Span :=
  first.span.through ((first :: rest).getLast (List.cons_ne_nil _ _)).span

private theorem span_of_laid (laid : Laid source start (first :: rest) stop) :
    Stands source (spanOf first rest) ∧ (spanOf first rest).endByte = stop := by
  have ends := laid.last (List.getLast?_eq_some_getLast (List.cons_ne_nil first rest))
  refine ⟨(laid.stands first List.mem_cons_self).through (laid.stands _ (List.getLast_mem _)) ?_,
    ends⟩
  rw [ends]
  exact laid.first.2.ordered

/-- A node over nothing but marks is an empty leaf. -/
private theorem empty_sits (laid : Laid source start (first :: rest) stop)
    (none : Pieces.trees (first :: rest) = []) (built : atoms.contains kind = false)
    (simple : constructs.contains kind = false) :
    Sits source (.node { kind := kind, named := true, span := spanOf first rest } []) := by
  obtain ⟨stands, ends⟩ := span_of_laid laid
  obtain ⟨before, content, after, whole, place⟩ := stands.place
  have width : first.span.startByte = stop := empty_width laid.first.2 none
  have nothing : content = [] := by
    have left : (spanOf first rest).startByte = Text.byteLength before := by rw [place]; rfl
    have right : (spanOf first rest).endByte = Text.byteLength (before ++ content) := by
      rw [place]; rfl
    have start : (spanOf first rest).startByte = first.span.startByte := rfl
    rw [Text.byteLength_append] at right
    exact Text.byteLength_eq_zero.mp (by omega)
  rw [nothing] at whole place
  exact .leaf rfl whole place (.of_built built simple rfl
    ⟨(ofLeaf_plain _ (by decide)).1, (ofLeaf_plain _ (by decide)).2.1⟩ nofun) fun _ => rfl

/-- A node over pieces follows the grammar if the trees below it make up its construct. -/
private theorem over_sits (laid : Laid source start (first :: rest) stop)
    (built : atoms.contains kind = false)
    (bare : Pieces.trees (first :: rest) = [] → named = true ∧ constructs.contains kind = false)
    (construct : Pieces.trees (first :: rest) ≠ [] →
      Construct source first.span.startByte kind (Pieces.trees (first :: rest)))
    (brackets : Grade.repaired.Fits source (Pieces.trees (first :: rest)))
    (unnamed : named = false → constructs.contains kind = false ∧
      ∀ part ∈ Pieces.trees (first :: rest), isClosed part = true) :
    Sits source (.node { kind := kind, named := named, span := spanOf first rest }
      (Pieces.trees (first :: rest))) := by
  by_cases none : Pieces.trees (first :: rest) = []
  · obtain ⟨is_named, simple⟩ := bare none
    rw [none, is_named]
    exact empty_sits laid none built simple
  · obtain ⟨stands, ends⟩ := span_of_laid laid
    obtain ⟨before, content, after, whole, place⟩ := stands.place
    refine .node ?_ whole place ?_ (construct none) brackets unnamed
    · rw [isClosed_of_built built, List.isEmpty_eq_false_iff.mpr none]
    · have lies := laid.first.2.lies
      rw [← ends] at lies
      exact lies

/-- A node over pieces has their tokens. -/
private theorem over_tokens (laid : Laid source start (first :: rest) stop)
    (built : atoms.contains kind = false) :
    tokensOf source [.node { kind := kind, named := named, span := spanOf first rest }
      (Pieces.trees (first :: rest))] = tokensOf source (Pieces.trees (first :: rest)) := by
  rw [tokensOf_cons, tokensOf_nil, List.append_nil]
  by_cases none : Pieces.trees (first :: rest) = []
  · have width := empty_width laid.first.2 none
    have flat : (spanOf first rest).endByte ≤ (spanOf first rest).startByte := by
      rw [(span_of_laid laid).2, ← width]
      exact Nat.le_refl _
    have silent : isSilent (.node { kind := kind, named := named, span := spanOf first rest } []) =
        true := by
      rw [isSilent, Bool.or_eq_true_iff]
      exact .inl (decide_eq_true flat)
    rw [none, tokens_of_closed rfl, silent]
    rfl
  · rw [tokens_of_split (by rw [isClosed_of_built built, List.isEmpty_eq_false_iff.mpr none])]
    rfl

/-- A node closed over pieces takes their place and has their tokens. It is a single tree if one of
the tokens is no comment. -/
theorem close (reach : Reach source grade offset pieces state) (known : grade ≠ .loose)
    (split : pieces = lead.map Piece.tree ++ first :: rest)
    (skipped : ∀ tree ∈ lead, tree.isExtra = true) (kept : first.isExtra = false)
    (built : atoms.contains kind = false)
    (bare : Pieces.trees (first :: rest) = [] → named = true ∧ constructs.contains kind = false)
    (construct : Pieces.trees (first :: rest) ≠ [] →
      Construct source first.span.startByte kind (Pieces.trees (first :: rest)))
    (unnamed : named = false → constructs.contains kind = false ∧
      ∀ part ∈ Pieces.trees (first :: rest), isClosed part = true) :
    ∃ span, Reach source grade offset (pieces.close kind named) state ∧
      (pieces.close kind named).opensNamed = named ∧
      (pieces.isHeard = true → One source grade offset (pieces.close kind named)
        (.node { kind := kind, named := named, span := span } (Pieces.trees (first :: rest)))
        state) := by
  have laid := reach.laid
  rw [split] at laid
  obtain ⟨middle, front, back⟩ := laid.split
  have trees : pieces.trees = lead ++ Pieces.trees (first :: rest) := by
    rw [split, Pieces.trees_append, Pieces.trees_map]
  have brackets : Grade.repaired.Fits source (Pieces.trees (first :: rest)) := by
    refine Grade.fits_drop (fun tree mem => ?_) (trees ▸ reach.fits_repaired known)
    obtain ⟨sits, clean⟩ := front.clean tree (by rw [Pieces.trees_map]; exact mem)
    exact ⟨sits, skipped tree mem, clean (skipped tree mem)⟩
  have solid : isExtra (.node { kind := kind, named := named, span := spanOf first rest }
      (Pieces.trees (first :: rest))) = false := solid_of_built built
  have closed : pieces.close kind named = lead.map Piece.tree ++ [.tree (.node
      { kind := kind, named := named, span := spanOf first rest }
      (Pieces.trees (first :: rest)))] := by
    rw [split]
    exact Pieces.close_eq kind named skipped kept
  have same : tokensOf source pieces.trees = tokensOf source (pieces.close kind named).trees := by
    rw [closed, Pieces.trees_append, Pieces.trees_map, Pieces.trees_tree, Pieces.trees_nil, trees,
      tokensOf_append, tokensOf_append, over_tokens back built]
  have whole : Reach source grade offset (pieces.close kind named) state :=
    ⟨reach.valid, ?_, ?_, Grade.ends_congr source same reach.ends⟩
  · refine ⟨spanOf first rest, whole, ?_, fun heard => ⟨whole, solid, ?_, lead, closed, skipped⟩⟩
    · rw [closed, Pieces.opensNamed, Pieces.front_of_extras skipped, Pieces.front?,
        Pieces.trees_tree, List.find?_cons_of_pos (by rw [solid]; rfl)]
      rfl
    · have tokens : tokensOf source [.node
          { kind := kind, named := named, span := spanOf first rest }
          (Pieces.trees (first :: rest))] = _ := over_tokens back built
      rw [tokensOf_cons, tokensOf_nil, List.append_nil] at tokens
      rw [isHeard_eq source, tokens]
      have quiet : (lead.any Tree.isHeard) = false := by
        rw [List.any_eq_false]
        intro tree mem
        have sits := (front.clean tree (by rw [Pieces.trees_map]; exact mem)).1
        simp [sits.extra_unheard (skipped tree mem)]
      rw [Pieces.isHeard, trees, List.any_append, quiet, Bool.false_or, any_heard source] at heard
      exact heard
  · rw [closed]
    refine front.append
      (.tree back.first.1 (over_sits back built bare construct brackets unnamed) ?_ ?_)
    · intro extra
      rw [solid] at extra
      cases extra
    · show Laid source (spanOf first rest).endByte [] state.offset
      rw [(span_of_laid back).2]
      exact .nil
  · refine Grade.fits_congr same ?_ reach.fits
    · rw [closed, Pieces.trees_append, Pieces.trees_map, Pieces.trees_tree, Pieces.trees_nil, trees,
        Grade.anyError_append, Grade.anyError_append, Bool.or_eq_false_iff,
        Bool.or_eq_false_iff, anyError, hasError]
      rintro ⟨before, own⟩
      simp only [Bool.or_eq_false_iff] at own
      exact ⟨before, own.1.2⟩

end Closing

/-- A node of a construct whose parts are not fixed. -/
theorem node (reach : Reach source grade offset pieces state) (known : grade ≠ .loose)
    (heard : pieces.isHeard = true) {kind : String}
    (free : (constructs ++ atoms).contains kind = false) :
    ∃ tree, One source grade offset (pieces.node kind) tree state ∧ IsPart tree ∧
      tree.kind = kind := by
  obtain ⟨lead, first, rest, split, skipped, kept⟩ :=
    Pieces.split_solid (reach.laid.solid_of_heard heard)
  have lists : constructs.contains kind = false ∧ atoms.contains kind = false := by
    simpa [not_or] using free
  obtain ⟨span, -, -, single⟩ := reach.close known split skipped kept lists.2
    (fun _ => ⟨rfl, lists.1⟩) (fun _ => .other free) nofun
  have one := single heard
  exact ⟨_, one, ⟨rfl, one.solid, one.heard⟩, rfl⟩

/-- A node over pieces that may have no tokens, such as a block. -/
theorem block (reach : Reach source grade offset pieces state) (known : grade ≠ .loose)
    (solid : pieces.isSolid = true) {kind : String}
    (free : (constructs ++ atoms).contains kind = false) :
    Reach source grade offset (pieces.node kind) state ∧
      (pieces.node kind).opensNamed = true := by
  obtain ⟨lead, first, rest, split, skipped, kept⟩ := Pieces.split_solid solid
  have lists : constructs.contains kind = false ∧ atoms.contains kind = false := by
    simpa [not_or] using free
  obtain ⟨span, whole, opens, -⟩ := reach.close known split skipped kept lists.2
    (fun _ => ⟨rfl, lists.1⟩) (fun _ => .other free) nofun
  exact ⟨whole, opens⟩

end Reach

namespace One

variable {source : Text} {grade : Grade} {offset : Nat} {pieces : Pieces} {tree : Tree}
  {state : ParseState}

theorem isHeard (one : One source grade offset pieces tree state) : pieces.isHeard = true := by
  obtain ⟨lead, split, -⟩ := one.lead
  rw [split, Pieces.isHeard_append]
  simp [Pieces.isHeard, one.heard]

theorem of_header (one : One source .header offset pieces tree state) :
    One source grade offset pieces tree state :=
  ⟨one.toReach.of_header, one.solid, one.heard, one.lead⟩

theorem sits (one : One source grade offset pieces tree state) : Sits source tree := by
  obtain ⟨lead, split, -⟩ := one.lead
  exact (one.laid.clean tree (by rw [split]; simp)).1

/-- Where no comment comes last in the pieces, none does in the tree. -/
theorem ends_tree (one : One source grade offset pieces tree state) (ends : EndsSolid pieces.trees) :
    EndsSolid [tree] := by
  obtain ⟨lead, split, -⟩ := one.lead
  rw [split, Pieces.trees_append] at ends
  exact ends.of_append

/-- A single leaf comes last itself. -/
theorem ends_leaf (one : One source grade offset pieces tree state)
    (leaf : tree.isClosed = true) : EndsSolid pieces.trees := by
  obtain ⟨lead, split, -⟩ := one.lead
  rw [split, Pieces.trees_append]
  exact .prepend _ (endsSolid_of_closed leaf one.solid) one.heard

/-- The grade of a single leaf is that of its token. -/
theorem regrade {finer : Grade} (one : One source grade offset pieces tree state)
    (leaf : tree.isClosed = true) (fits : finer.Fits source [tree]) :
    One source finer offset pieces tree state := by
  refine ⟨⟨one.valid, one.laid, ?_, Grade.ends_of_solid (one.ends_leaf leaf)⟩, one.solid, one.heard,
    one.lead⟩
  obtain ⟨lead, split, skipped⟩ := one.lead
  rw [split, Pieces.trees_append, Pieces.trees_map]
  exact Grade.fits_append (Grade.fits_extras
    (fun tree mem => (one.laid.clean tree (by rw [split]; simp [mem])).1) skipped) fits

end One

section Renaming

variable {source : Text} {tree : Tree}

theorem Tree.withRole_solid (role : String) (tree : Tree) :
    (tree.withRole role).isExtra = tree.isExtra := by
  cases tree
  rfl

/-- A role changes nothing in the place of a tree. -/
theorem Tree.Sits.withRole (sits : Sits source tree) (solid : tree.isExtra = false)
    (role : String) : Sits source (tree.withRole role) := by
  cases sits with
  | leaf closed whole place fits bare =>
    refine .leaf closed whole place
      { fits with
        extra := fun kinds => ?_ } bare
    simp only [isExtra, isComment, Tree.kind, Tree.label, Bool.or_eq_false_iff,
      beq_eq_false_iff_ne] at solid
    exact (kinds.elim solid.1 solid.2).elim
  | node split whole place parts construct brackets unnamed =>
    exact .node split whole place parts construct brackets unnamed

theorem Tree.tokens_withRole (role : String) (tree : Tree) :
    tokensOf source [tree.withRole role] = tokensOf source [tree] := by
  rw [tokensOf_cons, tokensOf_cons, tokensOf_nil, List.append_nil, List.append_nil]
  cases closed : tree.isClosed with
  | true =>
    have same : (tree.withRole role).isClosed = true := by cases tree; exact closed
    rw [tokens_of_closed closed, tokens_of_closed same]
    cases tree
    rfl
  | false =>
    have same : (tree.withRole role).isClosed = false := by cases tree; exact closed
    rw [tokens_of_split closed, tokens_of_split same]
    cases tree
    rfl

theorem Tree.hasError_withRole (role : String) (tree : Tree) :
    (tree.withRole role).hasError = tree.hasError := by
  cases tree
  rfl

theorem Tree.isHeard_withRole (role : String) (tree : Tree) :
    (tree.withRole role).isHeard = tree.isHeard := by
  have same := @Tree.tokens_withRole [] role tree
  rw [tokensOf_cons, tokensOf_cons, tokensOf_nil, List.append_nil, List.append_nil] at same
  rw [isHeard_eq [], isHeard_eq [], same]

end Renaming

end LambdaLayout.Python
