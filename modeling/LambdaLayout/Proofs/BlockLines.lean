import LambdaLayout.Proofs.LambdaTokens
import LambdaLayout.Proofs.TokensBetween

/-!
The lines of a block. A block is read along the trees between its brackets. The comma that follows
an item is written with the item, so when the trees come to it the comments in front of it already
stand behind it; a comma after the last item is not written. A comment stands on the line of another
one only if it started there, which no comment does.
-/

namespace LambdaLayout

open LambdaLayout.Python (Parsed Tree placeAfter)
open LambdaLayout.Python.Tree (IsElement IsPart IsSign Listing Placed Sits Stage tokensOf
  tokensOf_cons)
open LambdaLayout.Reformat (Mark)

/-- The tokens are laid out as the text. -/
def Renders (tokens : List Token) (text : Text) : Prop :=
  ∃ marks, Rearranged (tokens.map Token.mark) marks ∧ Written false marks text false

/-- The bracket that closes a block. -/
def Mark.closeBracket : Mark := (.closeBracket, [']'])

/-- The tokens up to a closing bracket are laid out as the text, the bracket apart. -/
def Lined (commented : Bool) (marks : List Mark) (text : Text) : Prop :=
  ∃ shown last, Rearranged marks (shown ++ [Mark.closeBracket]) ∧ Written commented shown text last

/-- The tokens up to a closing bracket start with a comma that separates, possibly after comments.
They are laid out as the text, the bracket and that comma apart. -/
def Separated (commented : Bool) (marks : List Mark) (text : Text) : Prop :=
  ∃ comments rest shown last, marks = comments ++ Mark.comma :: rest ∧
    (∀ mark ∈ comments, mark.1 = .comment) ∧ goesOn rest = true ∧
    Rearranged rest (shown ++ [Mark.closeBracket]) ∧
    Written commented (comments ++ shown) text last

/-- How the tokens from a stage of a block on are laid out: if more items come after one, the comma
between them has already been written. -/
def Shows (stage : Stage) (more commented : Bool) (marks : List Mark) (text : Text) : Prop :=
  if stage = .between ∧ more = true then Separated commented marks text
  else Lined commented marks text

section Steps

variable {commented more : Bool} {marks : List Mark} {tokens : List Token}
  {shown lead indent text after : Text} {stage : Stage}

theorem Lined.after_comment (first : Written commented [] lead false)
    (rest : Lined true marks after) :
    Lined commented ((.comment, shown) :: marks) (lead ++ shown ++ after) := by
  obtain ⟨later, last, rearranged, written⟩ := rest
  refine ⟨(.comment, shown) :: later, last, .keep rearranged, ?_⟩
  rw [List.append_assoc]
  exact first.append (.comment written)

theorem Separated.after_comment (first : Written commented [] lead false)
    (rest : Separated true marks after) :
    Separated commented ((.comment, shown) :: marks) (lead ++ shown ++ after) := by
  obtain ⟨comments, others, later, last, split, skipped, goes, rearranged, written⟩ := rest
  refine ⟨(.comment, shown) :: comments, others, later, last, by rw [split]; rfl, ?_, goes,
    rearranged, ?_⟩
  · intro mark mem
    rcases List.mem_cons.mp mem with rfl | mem
    · rfl
    · exact skipped mark mem
  · rw [List.append_assoc]
    exact first.append (.comment written)

theorem Lined.after_item (blank : ∀ c ∈ indent, isSpace c = true) (renders : Renders tokens text)
    (rest : Lined false marks after) :
    Lined commented (tokens.map Token.mark ++ marks) ('\n' :: indent ++ text ++ after) := by
  obtain ⟨own, kept, written⟩ := renders
  obtain ⟨later, last, rearranged, more⟩ := rest
  refine ⟨own ++ later, last, ?_, ((Written.newline blank).append written).append more⟩
  rw [List.append_assoc]
  exact kept.append rearranged

/-- The comma after an item comes before the comments that stood in front of it. -/
theorem Separated.after_item (blank : ∀ c ∈ indent, isSpace c = true)
    (renders : Renders tokens text) (rest : Separated false marks after) :
    Lined commented (tokens.map Token.mark ++ marks)
      ('\n' :: indent ++ text ++ [','] ++ after) := by
  obtain ⟨own, kept, written⟩ := renders
  obtain ⟨comments, others, later, last, rfl, skipped, goes, rearranged, more⟩ := rest
  refine ⟨own ++ [Mark.comma] ++ (comments ++ later), last, ?_, ?_⟩
  · have moved := kept.append (.hoist skipped goes rearranged)
    simpa [List.append_assoc] using moved
  · exact (((@Written.newline commented indent blank).append written).then_token
      TokenKind.noConfusion).append more

theorem Lined.drop_comma (closes : closesNext marks = true) (rest : Lined commented marks text) :
    Lined commented (Mark.comma :: marks) text := by
  obtain ⟨shown, last, rearranged, written⟩ := rest
  exact ⟨shown, last, .drop closes rearranged, written⟩

theorem Lined.separated (goes : goesOn marks = true) (rest : Lined commented marks text) :
    Separated commented (Mark.comma :: marks) text := by
  obtain ⟨shown, last, rearranged, written⟩ := rest
  exact ⟨[], marks, shown, last, rfl, nofun, goes, rearranged, written⟩

theorem shows_ready : Shows .ready more commented marks text ↔ Lined commented marks text := by
  rw [Shows, if_neg fun is => Stage.noConfusion is.1]

theorem shows_last : Shows stage false commented marks text ↔ Lined commented marks text := by
  rw [Shows, if_neg fun is => Bool.noConfusion is.2]

theorem shows_between : Shows .between true commented marks text ↔
    Separated commented marks text := by
  rw [Shows, if_pos ⟨rfl, rfl⟩]

theorem Shows.after_comment (first : Written commented [] lead false)
    (rest : Shows stage more true marks after) :
    Shows stage more commented ((.comment, shown) :: marks) (lead ++ shown ++ after) := by
  rw [Shows] at rest ⊢
  split
  · next awaits =>
    rw [if_pos awaits] at rest
    exact rest.after_comment first
  · next awaits =>
    rw [if_neg awaits] at rest
    exact rest.after_comment first

theorem Shows.after_item (blank : ∀ c ∈ indent, isSpace c = true) (renders : Renders tokens text)
    (rest : Shows .between more false marks after) :
    Lined commented (tokens.map Token.mark ++ marks)
      ('\n' :: indent ++ text ++ (if more then [','] else []) ++ after) := by
  cases more with
  | true => exact (shows_between.mp rest).after_item blank renders
  | false =>
    rw [if_neg Bool.false_ne_true, List.append_nil]
    exact (shows_last.mp rest).after_item blank renders

theorem Shows.after_comma (closes : more = false → closesNext marks = true)
    (goes : more = true → goesOn marks = true) (rest : Lined commented marks text) :
    Shows .between more commented (Mark.comma :: marks) text := by
  cases more with
  | true => exact shows_between.mpr (rest.separated (goes rfl))
  | false => exact shows_last.mpr (rest.drop_comma (closes rfl))

/-- A comment goes on the line before it only if no other comment ends that line. -/
theorem comment_lead {start row : Nat} (blank : ∀ c ∈ indent, isSpace c = true)
    (free : commented = true → start ≠ row) :
    Written commented [] (if start == row then "  ".toList else '\n' :: indent) false := by
  split
  · next same =>
    cases commented with
    | false => exact .spaces (List.all_eq_true.mp rfl)
    | true => exact absurd (eq_of_beq same) (free rfl)
  · exact .newline blank

end Steps

section Next

variable {mark : Mark} {marks : List Mark}

theorem nextSolid_comment (comment : mark.1 = .comment) :
    nextSolid (mark :: marks) = nextSolid marks := by
  rw [nextSolid, List.find?_cons_of_neg (by simp [comment])]
  rfl

theorem nextSolid_solid (solid : mark.1 ≠ .comment) : nextSolid (mark :: marks) = some mark := by
  rw [nextSolid, List.find?_cons_of_pos (by simp [solid])]

/-- Where brackets match, the first token does not close any. -/
theorem goesOn_of_matched {tokens : List Token} (matched : Region.Matched tokens)
    (heard : tokens.any (fun token => token.kind != .comment) = true) (rest : List Mark) :
    goesOn (tokens.map Token.mark ++ rest) = true := by
  induction matched with
  | nil => cases heard
  | @plain token tokens one _ ih =>
    rw [List.map_cons, List.cons_append]
    by_cases comment : token.kind = .comment
    · rw [goesOn, nextSolid_comment comment]
      exact ih (by simpa [comment] using heard)
    · rw [goesOn, nextSolid_solid comment]
      exact by simp [Token.mark, one.2]
  | @brackets inner tokens first last opens _ _ _ _ _ =>
    have solid : first.kind ≠ .comment := by
      intro comment
      rw [comment] at opens
      cases opens
    rw [List.map_cons, List.cons_append, goesOn, nextSolid_solid solid]
    rcases first with ⟨kind, text, span⟩
    cases kind <;> first | rfl | cases opens

end Next

namespace Python.Tree

variable {source : Text} {tree : Tree}

/-- A comment is one token, a line continuation none. -/
theorem Sits.comment_tokens (sits : Sits source tree) (kind : tree.kind = "comment") :
    tree.tokens source = [tree.token source] ∧
      (tree.token source).mark = (.comment, Text.trimEnd (tree.text source)) ∧
      tree.label.named = true := by
  have closed := sits.atom_closed (by rw [kind]; decide)
  have own : (tree.token source).kind = .comment := by
    have same := token_comment source tree
    rw [isComment, kind] at same
    simpa using same
  have held := sits.holds
  refine ⟨?_, by rw [Token.mark, if_pos own, own]; rfl, ?_⟩
  · have filled : tree.span.startByte < tree.span.endByte := by
      have width := held.length
      cases sits with
      | node split => rw [closed] at split; cases split
      | leaf _ whole place fits =>
        rw [text_of_leaf whole place] at width
        have positive := Text.byteLength_pos (fits.comment_filled kind)
        omega
    have heard : tree.isSilent = false := by
      rw [isSilent, kind, decide_eq_false (Nat.not_le.mpr filled)]
      rfl
    rw [tokens_of_closed closed, heard]
    rfl
  · exact (sits.extra (by rw [isExtra, isComment, kind]; rfl)).2.2

theorem Sits.continuation_tokens (sits : Sits source tree)
    (kind : tree.kind = "line_continuation") : tree.tokens source = [] := by
  have closed := sits.atom_closed (by rw [kind]; decide)
  rw [tokens_of_closed closed, isSilent, kind]
  simp

/-- A sign is written as it is. -/
theorem IsSign.marks {word : String} (sign : IsSign word tree) (sits : Sits source tree)
    (some : word.toList ≠ []) (other : word ≠ "line_continuation")
    (solid : TokenKind.ofLeaf word word.toList ≠ .comment) :
    (tree.tokens source).map Token.mark = [(TokenKind.ofLeaf word word.toList, word.toList)] := by
  have kind := sign.token_kind sits
  have text : (tree.token source).text = word.toList := sign.text sits
  rw [(sign.tokens sits some other).1, List.map_singleton, Token.mark, kind, if_neg solid, text]

private theorem row_grows (text : Text) (position : Position) :
    position.row ≤ (text.foldl Position.after position).row := by
  induction text generalizing position with
  | nil => exact Nat.le_refl _
  | cons c text ih =>
    refine Nat.le_trans ?_ (ih (position.after c))
    rw [Position.after]
    split
    · exact Nat.le_succ _
    · exact Nat.le_refl _

/-- A comment starts in a later row than the one before it ends in. -/
theorem comment_row {first second : Tree} (one : Sits source first) (two : Sits source second)
    (comment : first.kind = "comment") (other : second.kind = "comment")
    (before : first.span.endByte ≤ second.span.startByte) :
    first.span.stop.row < second.span.start.row := by
  have first_closed := one.atom_closed (by rw [comment]; decide)
  have second_closed := two.atom_closed (by rw [other]; decide)
  cases one with
  | node split => rw [first_closed] at split; cases split
  | @leaf label children left text after _ whole place fits _ =>
  cases two with
  | node split => rw [second_closed] at split; cases split
  | @leaf label' children' left' text' after' _ whole' place' fits' _ =>
    obtain ⟨-, -, line⟩ := fits.comment comment
    have filled := fits'.comment_filled other
    have upto : Text.byteLength (left ++ text) ≤ Text.byteLength left' := by
      have ends : label.span.endByte = Text.byteLength (left ++ text) := by rw [place]; rfl
      have starts : label'.span.startByte = Text.byteLength left' := by rw [place']; rfl
      rw [← ends, ← starts]
      exact before
    rw [whole'] at whole
    rw [List.append_assoc] at whole
    obtain ⟨between, split⟩ := Text.prefix_of_shorter whole.symm upto
    rw [split, List.append_assoc] at whole
    have rest : after = between ++ (text' ++ after') := (List.append_cancel_left whole).symm
    have row : label.span.stop = placeAfter (left ++ text) := by rw [place]; rfl
    have row' : label'.span.start = placeAfter left' := by rw [place']; rfl
    change label.span.stop.row < label'.span.start.row
    rw [row, row', split]
    cases between with
    | nil =>
      -- Nothing but a line break can follow a comment, and a comment does not start with one.
      rcases line with none | line
      · rw [rest] at none
        simp [filled] at none
      · cases text' with
        | nil => exact absurd rfl filled
        | cons c text' =>
          rw [rest] at line
          exact absurd line fits'.fresh
    | cons c between =>
      rcases line with none | line
      · rw [rest] at none
        cases none
      · rw [rest] at line
        obtain rfl : c = '\n' := Option.some.inj line
        have on : placeAfter (left ++ text ++ '\n' :: between) =
            between.foldl Position.after ((placeAfter (left ++ text)).after '\n') := by
          rw [placeAfter, List.foldl_append, List.foldl_cons]
          rfl
        have next : ((placeAfter (left ++ text)).after '\n').row =
            (placeAfter (left ++ text)).row + 1 := rfl
        have grows := row_grows between ((placeAfter (left ++ text)).after '\n')
        rw [on]
        omega

/-- In a bracketed list stand comments, line continuations, parts and punctuation. -/
theorem Listing.of_mem {closing : String} {stage last : Stage} {trees : List Tree}
    (listing : Listing closing stage trees last) (mem : tree ∈ trees) :
    tree.isExtra = true ∨ IsElement tree ∨ ∃ word, IsSign word tree := by
  induction listing with
  | nil => cases mem
  | extra skipped _ _ ih =>
    rcases List.mem_cons.mp mem with rfl | later
    · exact .inl skipped
    · exact ih later
  | part kept _ ih =>
    rcases List.mem_cons.mp mem with rfl | later
    · exact .inr (.inl kept)
    · exact ih later
  | comma sign _ ih =>
    rcases List.mem_cons.mp mem with rfl | later
    · exact .inr (.inr ⟨_, sign⟩)
    · exact ih later
  | close sign _ _ ih =>
    rcases List.mem_cons.mp mem with rfl | later
    · exact .inr (.inr ⟨_, sign⟩)
    · exact ih later

end Python.Tree

namespace Node

variable {parsed : Parsed} {tree : Tree}

theorem ofTree_comment (kind : tree.kind = "comment") :
    ofTree parsed tree = .comment tree.span (tree.text parsed.source) := by
  obtain ⟨label, children⟩ := tree
  have word : label.kind = "comment" := kind
  rw [ofTree, word]
  rfl

/-- Only comments are lowered to comments. -/
theorem comment_of_tree (comment : (ofTree parsed tree).isComment = true) :
    tree.kind = "comment" := by
  obtain ⟨label, children⟩ := tree
  have made := lowered parsed label children
  revert made
  generalize ofTree parsed (.node label children) = node at comment
  intro made
  cases made with
  | comment kind => exact kind
  | _ => cases comment

/-- A part of a bracketed list is no comment. -/
theorem part_is_solid (part : IsPart tree) : (ofTree parsed tree).isComment = false := by
  refine Bool.eq_false_iff.mpr fun comment => ?_
  have solid := part.solid
  rw [Python.Tree.isExtra, Python.Tree.isComment, comment_of_tree comment] at solid
  cases solid

theorem ofKept_sign {word : String} (sign : IsSign word tree) (rest : List Tree) :
    ofKept parsed (tree :: rest) = ofKept parsed rest := by
  rw [ofKept, sign_dropped sign, if_neg (by decide)]

/-- A comment is kept with its text, and a line continuation leaves nothing. -/
theorem extra_cases (sits : Sits parsed.source tree) (extra : tree.isExtra = true) :
    (tree.kind = "comment" ∧
      (tree.tokens parsed.source).map Token.mark =
        [(.comment, Text.trimEnd (tree.text parsed.source))] ∧
      ∀ rest, ofKept parsed (tree :: rest) =
        .comment tree.span (tree.text parsed.source) :: ofKept parsed rest) ∨
      (tree.tokens parsed.source = [] ∧
        ∀ rest, ofKept parsed (tree :: rest) = ofKept parsed rest) := by
  rcases Python.Tree.extra_kind extra with kind | kind
  · obtain ⟨tokens, mark, named⟩ := sits.comment_tokens kind
    have kept : isKept tree = true := by rw [isKept, named, kind]; rfl
    refine .inl ⟨kind, by rw [tokens, List.map_singleton, mark], fun rest => ?_⟩
    rw [ofKept, kept, if_pos rfl, ofTree_comment kind]
  · have dropped : isKept tree = false := by rw [isKept, kind]; simp
    refine .inr ⟨sits.continuation_tokens kind, fun rest => ?_⟩
    rw [ofKept, dropped, if_neg (by decide)]

end Node

namespace Layout

variable {parsed : Parsed} {tree : Tree} {trees : List Tree} {stage : Stage}
  {element : Node → Attempt} {indent text : Text} {row : Nat}

/-- The tokens of several trees, as they are written. -/
def marksOf (parsed : Parsed) (trees : List Tree) : List Mark :=
  (tokensOf parsed.source trees).map Token.mark

theorem marksOf_cons (tree : Tree) (trees : List Tree) : marksOf parsed (tree :: trees) =
    (tree.tokens parsed.source).map Token.mark ++ marksOf parsed trees := by
  rw [marksOf, tokensOf_cons, List.map_append]
  rfl

theorem marksOf_append (left right : List Tree) :
    marksOf parsed (left ++ right) = marksOf parsed left ++ marksOf parsed right := by
  rw [marksOf, Python.Tree.tokensOf_append, List.map_append]
  rfl

/-- Says that an item follows that is no comment. -/
def hasMore (nodes : List Node) : Bool := nodes.any fun node => !node.isComment

/-- An item that is no comment starts a line. A comma follows if there is another one. -/
theorem itemLines_solid {item : Node} {rest : List Node} (solid : item.isComment = false) :
    itemLines element indent row (item :: rest) = (do
      let text ← element item
      let after ← itemLines element indent item.span.stop.row rest
      return '\n' :: indent ++ text ++ (if hasMore rest then [','] else []) ++ after) := by
  cases item <;> first | rfl | cases solid

theorem itemLines_item {item : Node} {rest : List Node} (solid : item.isComment = false)
    (ran : itemLines element indent row (item :: rest) = .ok text) :
    ∃ own after, element item = .ok own ∧
      itemLines element indent item.span.stop.row rest = .ok after ∧
      text = '\n' :: indent ++ own ++ (if hasMore rest then [','] else []) ++ after := by
  rw [itemLines_solid solid] at ran
  cases own : element item with
  | error refusal => simp [own, bind, Except.bind] at ran
  | ok shown =>
  cases later : itemLines element indent item.span.stop.row rest with
  | error refusal => simp [own, later, bind, Except.bind] at ran
  | ok after =>
    simp only [own, later, bind, Except.bind, pure, Except.pure, Except.ok.injEq] at ran
    exact ⟨shown, after, rfl, rfl, ran.symm⟩

theorem itemLines_comment {span : Span} {own : Text} {rest : List Node}
    (ran : itemLines element indent row (.comment span own :: rest) = .ok text) :
    ∃ after, itemLines element indent span.stop.row rest = .ok after ∧
      text = (if span.start.row == row then "  ".toList else '\n' :: indent) ++
        Text.trimEnd own ++ after := by
  rw [itemLines] at ran
  cases later : itemLines element indent span.stop.row rest with
  | error refusal => simp [later, bind, Except.bind] at ran
  | ok after =>
    simp only [later, bind, Except.bind, pure, Except.pure, Except.ok.injEq] at ran
    exact ⟨after, rfl, ran.symm⟩

/-- The trees of a block, from one of them on. -/
structure InBlock (parsed : Parsed) (trees : List Tree) : Prop where
  sits : ∀ tree ∈ trees, Sits parsed.source tree
  sound : ∀ tree ∈ trees, tree.hasError = false
  apart : trees.Pairwise fun left right => left.span.endByte ≤ right.span.startByte

theorem InBlock.tail (block : InBlock parsed (tree :: trees)) : InBlock parsed trees where
  sits := fun tree mem => block.sits tree (List.mem_cons_of_mem _ mem)
  sound := fun tree mem => block.sound tree (List.mem_cons_of_mem _ mem)
  apart := (List.pairwise_cons.mp block.apart).2

/-- Without another item the next token closes the block. -/
theorem closes_next (listing : Listing "]" .ready trees .closed) (block : InBlock parsed trees)
    (none : hasMore (Node.ofKept parsed trees) = false) :
    closesNext (marksOf parsed trees) = true := by
  induction trees with
  | nil => cases listing
  | cons tree rest ih =>
    have here := block.sits tree List.mem_cons_self
    rw [marksOf_cons]
    cases listing with
    | extra skipped _ listed =>
      rcases Node.extra_cases here skipped with ⟨-, mark, kept⟩ | ⟨silent, kept⟩
      · rw [kept] at none
        rw [mark, List.singleton_append, closesNext, nextSolid_comment rfl]
        exact ih listed block.tail none
      · rw [kept] at none
        rw [silent]
        exact ih listed block.tail none
    | part kept listed =>
      rw [Node.ofKept, Node.part_kept kept.toIsPart, if_pos rfl, hasMore, List.any_cons,
        Node.part_is_solid kept.toIsPart] at none
      cases none
    | close sign _ listed =>
      rw [sign.marks here (by decide) (by decide) (by decide)]
      rfl

/-- With another item the next token closes nothing. -/
theorem goes_on (listing : Listing "]" .ready trees .closed) (block : InBlock parsed trees)
    (some : hasMore (Node.ofKept parsed trees) = true) : goesOn (marksOf parsed trees) = true := by
  induction trees with
  | nil => cases listing
  | cons tree rest ih =>
    have here := block.sits tree List.mem_cons_self
    rw [marksOf_cons]
    cases listing with
    | extra skipped _ listed =>
      rcases Node.extra_cases here skipped with ⟨-, mark, kept⟩ | ⟨silent, kept⟩
      · rw [kept] at some
        rw [mark, List.singleton_append, goesOn, nextSolid_comment rfl]
        exact ih listed block.tail some
      · rw [kept] at some
        rw [silent]
        exact ih listed block.tail some
    | part kept listed =>
      refine goesOn_of_matched (kept.matched here (block.sound tree List.mem_cons_self)) ?_ _
      rw [← Python.Tree.isHeard_eq]
      exact kept.heard
    | close sign _ listed =>
      cases listed with
      | nil =>
        rw [Node.ofKept_sign sign] at some
        cases some
      | extra _ unfinished => exact absurd rfl unfinished
      | close _ unfinished => exact absurd rfl unfinished

/-- The lines of a block are made of its tokens. Before a comma that separates, the comma has
already been written. A comment that stands last before the lines is not in the row of any that
follows. -/
theorem itemLines_lined {commented : Bool} (listing : Listing "]" stage trees .closed)
    (unclosed : stage ≠ .closed) (block : InBlock parsed trees)
    (blank : ∀ c ∈ indent, isSpace c = true)
    (renders : ∀ tree ∈ trees, IsPart tree → ∀ own, element (Node.ofTree parsed tree) = .ok own →
      Renders (tree.tokens parsed.source) own)
    (rows : commented = true → ∀ tree ∈ trees, tree.kind = "comment" → tree.span.start.row ≠ row)
    (ran : itemLines element indent row (Node.ofKept parsed trees) = .ok text) :
    Shows stage (hasMore (Node.ofKept parsed trees)) commented (marksOf parsed trees) text := by
  induction trees generalizing stage commented row text with
  | nil => cases listing; exact absurd rfl unclosed
  | cons tree rest ih =>
    have here := block.sits tree List.mem_cons_self
    have later := fun tree mem => renders tree (List.mem_cons_of_mem _ mem)
    rw [marksOf_cons]
    cases listing with
    | extra skipped _ listed =>
      rcases Node.extra_cases here skipped with ⟨kind, mark, kept⟩ | ⟨silent, kept⟩
      · rw [kept] at ran ⊢
        obtain ⟨after, ran_later, rfl⟩ := itemLines_comment ran
        have lead := comment_lead blank fun is => rows is tree List.mem_cons_self kind
        have rows_later : ∀ other ∈ rest, other.kind = "comment" →
            other.span.start.row ≠ tree.span.stop.row := by
          intro other mem comment
          have before := (List.pairwise_cons.mp block.apart).1 other mem
          exact Nat.ne_of_gt (Python.Tree.comment_row here
            (block.sits other (List.mem_cons_of_mem _ mem)) kind comment before)
        have next := @ih stage after _ true listed unclosed block.tail later (fun _ => rows_later)
          ran_later
        rw [mark, List.singleton_append]
        exact next.after_comment lead
      · rw [kept] at ran ⊢
        rw [silent]
        exact ih listed unclosed block.tail later
          (fun is other mem => rows is other (List.mem_cons_of_mem _ mem)) ran
    | part kept listed =>
      rw [Node.ofKept, Node.part_kept kept.toIsPart, if_pos rfl] at ran
      obtain ⟨own, after, made, ran_later, rfl⟩ :=
        itemLines_item (Node.part_is_solid kept.toIsPart) ran
      have next := @ih .between after _ false listed Stage.noConfusion block.tail later
        Bool.noConfusion ran_later
      exact shows_ready.mpr
        (next.after_item blank (renders tree List.mem_cons_self kept.toIsPart own made))
    | comma sign listed =>
      rw [Node.ofKept_sign sign] at ran ⊢
      have next := ih listed Stage.noConfusion block.tail later
        (fun is other mem => rows is other (List.mem_cons_of_mem _ mem)) ran
      rw [sign.marks here (by decide) (by decide) (by decide)]
      exact Shows.after_comma (closes_next listed block.tail) (goes_on listed block.tail)
        (shows_ready.mp next)
    | close sign _ listed =>
      rw [Node.ofKept_sign sign] at ran ⊢
      cases listed with
      | extra _ unfinished => exact absurd rfl unfinished
      | close _ unfinished => exact absurd rfl unfinished
      | nil =>
        rw [Node.ofKept] at ran ⊢
        cases ran
        refine shows_last.mpr ⟨[], commented, ?_, .nil⟩
        rw [sign.marks here (by decide) (by decide) (by decide)]
        exact .refl _

/-- The trees between the brackets of a block, the closing bracket included, and its items. -/
structure Block (parsed : Parsed) (trees : List Tree) (items : List Node) : Prop where
  listed : Listing "]" .ready trees .closed
  placed : ∀ tree ∈ trees, Placed parsed tree
  apart : trees.Pairwise fun left right => left.span.endByte ≤ right.span.startByte
  items : Node.ofKept parsed trees = items

theorem Block.inside {items : List Node} (block : Block parsed trees items) :
    InBlock parsed trees where
  sits := fun tree mem => (block.placed tree mem).sits
  sound := fun tree mem => (block.placed tree mem).sound
  apart := block.apart

/-- A block has a bracket at its end. -/
theorem Block.filled {items : List Node} (block : Block parsed trees items) :
    ∃ tree, tree ∈ trees := by
  have listed := block.listed
  cases trees with
  | nil => cases listed
  | cons tree rest => exact ⟨tree, List.mem_cons_self⟩

/-- The items of a block are its comments and its parts. -/
theorem Block.of_item {items : List Node} {item : Node} (block : Block parsed trees items)
    (mem : item ∈ items) :
    ∃ tree ∈ trees, Node.ofTree parsed tree = item ∧ (tree.kind = "comment" ∨ IsElement tree) := by
  rw [← block.items] at mem
  obtain ⟨tree, among, kept, rfl⟩ := Node.mem_ofKept mem
  refine ⟨tree, among, rfl, ?_⟩
  rcases block.listed.of_mem among with skipped | part | ⟨word, sign⟩
  · rcases Python.Tree.extra_kind skipped with kind | kind
    · exact .inl kind
    · rw [Node.isKept, kind] at kept
      simp at kept
  · exact .inr part
  · rw [Node.sign_dropped sign] at kept
    cases kept

/-- A part of a block ends before the closing bracket, which is part of the source. -/
theorem Block.bounded {items : List Node} (block : Block parsed trees items) (mem : tree ∈ trees)
    (part : IsPart tree) : tree.span.endByte < Text.byteLength parsed.source := by
  obtain ⟨front, last, ends, closes, -⟩ :=
    block.listed.tokens (by decide) (by decide) Stage.noConfusion
      (fun tree mem => (block.placed tree mem).sits) (fun tree mem => (block.placed tree mem).sound)
  have last_sits := (block.placed last (by rw [ends]; simp)).sits
  have before : tree.span.endByte ≤ last.span.startByte := by
    have apart := block.apart
    rw [ends] at mem apart
    rcases List.mem_append.mp mem with earlier | here
    · exact (List.pairwise_append.mp apart).2.2 tree earlier last (by simp)
    · obtain rfl := List.mem_singleton.mp here
      exact absurd closes.named (by rw [part.named]; decide)
  have width := (closes.tokens last_sits (by decide) (by decide)).2
  have one : Text.byteLength "]".toList = 1 := by decide
  have bounded := last_sits.holds.bounded
  omega

/-- The tokens are divided where a part of a block starts and where it ends. -/
theorem Block.divides {items : List Node} (block : Block parsed trees items) (mem : tree ∈ trees)
    (part : IsPart tree) :
    Divides parsed tree.span.startByte ∧ Divides parsed tree.span.endByte := by
  have placed := block.placed tree mem
  have bounded := block.bounded mem part
  have ordered := placed.sits.holds.ordered
  exact ⟨placed.divides_start (by omega), placed.divides_end (.inl bounded)⟩

/-- The lines of a block are made of its tokens if those of its items are. -/
theorem Block.lined {items : List Node} (block : Block parsed trees items)
    (blank : ∀ c ∈ indent, isSpace c = true)
    (renders : ∀ tree, Placed parsed tree → Divides parsed tree.span.startByte →
      Divides parsed tree.span.endByte → ∀ own, element (Node.ofTree parsed tree) = .ok own →
      Renders (tree.tokens parsed.source) own)
    (ran : itemLines element indent row items = .ok text) :
    Lined false (marksOf parsed trees) text := by
  rw [← block.items] at ran
  have lined := @itemLines_lined _ _ _ _ _ _ _ false block.listed Stage.noConfusion block.inside blank
    (fun tree mem part own made => renders tree (block.placed tree mem) (block.divides mem part).1
      (block.divides mem part).2 own made) nofun ran
  exact shows_ready.mp lined

end Layout

end LambdaLayout
