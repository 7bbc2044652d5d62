import LambdaLayout.Proofs.Refusals
import LambdaLayout.Proofs.Rows

/-!
The comments of a block. In the layout a comment stays on the line of what is before it, an item or
the bracket that opens the block, exactly if no line feed lies between the two in the source, and
any other comment has a line of its own. The bracket of a clause is the one exception: its row is
that of a token, so a first comment stays with it if as many line feeds lie between them as there
are lone carriage returns in the blanks before the bracket.
-/

namespace LambdaLayout

open LambdaLayout.Python (Parsed Tree)
open LambdaLayout.Python.Tree (Placed Sits)
open LambdaLayout.Reformat (Confirms confirms_found defaultKeyword found ok_of_to_option)
open LambdaLayout.Text (Boundary byteLength)

namespace Layout

/-- The lines of a block from one of its items on, with the offset at which what is before the items
ends. A comment is behind what is before it if just the skipped number of line feeds lies between
them; it is alone otherwise. Whatever follows a comment is on another line. -/
inductive Attached (source indent : Text) (element : Node → Attempt) :
    Nat → Nat → List Node → Text → Prop where
  | done {skipped previous : Nat} : Attached source indent element skipped previous [] []
  | behind {skipped previous : Nat} {span : Span} {own after : Text} {rest : List Node}
      (near : lineBreaks source previous span.startByte = skipped) (line : '\n' ∉ own)
      (ends : after = [] ∨ after.head? = some '\n')
      (later : Attached source indent element 0 span.endByte rest after) :
      Attached source indent element skipped previous (.comment span own :: rest)
        ("  ".toList ++ Text.trimEnd own ++ after)
  | alone {skipped previous : Nat} {span : Span} {own after : Text} {rest : List Node}
      (far : lineBreaks source previous span.startByte ≠ skipped) (line : '\n' ∉ own)
      (ends : after = [] ∨ after.head? = some '\n')
      (later : Attached source indent element 0 span.endByte rest after) :
      Attached source indent element skipped previous (.comment span own :: rest)
        ('\n' :: indent ++ Text.trimEnd own ++ after)
  | item {skipped previous : Nat} {item : Node} {own after : Text} {rest : List Node}
      (solid : item.isComment = false) (shown : element item = .ok own)
      (later : Attached source indent element 0 item.span.endByte rest after) :
      Attached source indent element skipped previous (item :: rest)
        ('\n' :: indent ++ own ++ (if hasMore rest then [','] else []) ++ after)

/-- The items have a layout as a block whose bracket is taken to be in the given row, at any depth
that suffices for the source. In every such layout they stand in their lines, and these end with the
line of the closing bracket. -/
structure Keeps (layout : Layout) (skipped previous : Nat) (items : List Node) (row : Nat) :
    Prop where
  fits : ∀ depth base, depthFor (byteLength layout.source) ≤ depth →
    ∃ text, blockText layout depth items row base = .ok text
  attached : ∀ depth base text, blockText layout (depth + 1) items row base = .ok text →
    ∃ lines, text = lines ++ '\n' :: base ∧
      Attached layout.source (base ++ indentation)
        (fun item => elementText layout depth item (base ++ indentation)) skipped previous items
        lines

section Lines

variable {parsed : Parsed} {trees : List Tree} {tree : Tree} {items : List Node}
  {element : Node → Attempt} {indent text : Text} {row skipped previous : Nat}

/-- The text of a comment is on one line. -/
theorem comment_line (sits : Sits parsed.source tree) (kind : tree.kind = "comment") :
    '\n' ∉ tree.text parsed.source := by
  have closed := sits.atom_closed (by rw [kind]; decide)
  cases sits with
  | node split => rw [closed] at split; cases split
  | leaf _ whole place fits =>
    rw [Python.Tree.text_of_leaf whole place]
    intro mem
    have line := List.all_eq_true.mp (fits.comment kind).2.1 _ mem
    exact absurd line (by decide)

/-- Lines in which no comment is in the row of what comes before start with a line break. -/
theorem itemLines_fresh (far : ∀ item ∈ items, item.isComment = true → item.span.start.row ≠ row)
    (ran : itemLines element indent row items = .ok text) :
    text = [] ∨ text.head? = some '\n' := by
  cases items with
  | nil =>
    rw [itemLines] at ran
    cases ran
    exact .inl rfl
  | cons item rest =>
    right
    cases comment : item.isComment with
    | false =>
      obtain ⟨own, after, -, -, rfl⟩ := itemLines_item comment ran
      rfl
    | true =>
      cases item with
      | comment span own =>
        have other : span.start.row ≠ row := far _ List.mem_cons_self comment
        obtain ⟨after, -, rfl⟩ := itemLines_comment ran
        rw [if_neg fun same => other (eq_of_beq same)]
        rfl
      | _ => cases comment

/-- No comment is in the row in which a comment before it ends. -/
theorem InBlock.apart_comment (block : InBlock parsed (tree :: trees))
    (kind : tree.kind = "comment") :
    ∀ item ∈ Node.ofKept parsed trees, item.isComment = true →
      item.span.start.row ≠ tree.span.stop.row := by
  intro item mem comment
  obtain ⟨other, among, -, rfl⟩ := Node.mem_ofKept mem
  have before := (List.pairwise_cons.mp block.apart).1 other among
  rw [Node.span_of_tree]
  exact Nat.ne_of_gt (Python.Tree.comment_row (block.sits tree List.mem_cons_self)
    (block.sits other (List.mem_cons_of_mem _ among)) kind (Node.comment_of_tree comment) before)

/-- A place is in the given row exactly if the skipped number of line feeds lies before it. -/
theorem near_iff {start : Position} {byte : Nat} (first : Boundary parsed.source previous)
    (second : Boundary parsed.source byte) (ordered : previous ≤ byte)
    (place : start.row = lineBreaks parsed.source 0 byte)
    (reached : row = lineBreaks parsed.source 0 previous + skipped) :
    start.row = row ↔ lineBreaks parsed.source previous byte = skipped := by
  rw [place, reached, lineBreaks_add first second ordered]
  omega

/-- The comments among the trees of a block are attached by the line feeds before them. -/
theorem itemLines_attached (block : InBlock parsed trees) (first : Boundary parsed.source previous)
    (later : ∀ tree ∈ trees, Node.isKept tree = true → previous ≤ tree.span.startByte)
    (reached : row = lineBreaks parsed.source 0 previous + skipped)
    (ran : itemLines element indent row (Node.ofKept parsed trees) = .ok text) :
    Attached parsed.source indent element skipped previous (Node.ofKept parsed trees) text := by
  induction trees generalizing previous skipped row text with
  | nil =>
    rw [Node.ofKept, itemLines] at ran
    cases ran
    rw [Node.ofKept]
    exact .done
  | cons tree rest ih =>
    have sits := block.sits tree List.mem_cons_self
    have apart := (List.pairwise_cons.mp block.apart).1
    -- Behind the tree the rows start again from its end, with nothing skipped.
    have next {after : Text} (ran : itemLines element indent tree.span.stop.row
        (Node.ofKept parsed rest) = .ok after) : Attached parsed.source indent element 0
        tree.span.endByte (Node.ofKept parsed rest) after :=
      ih block.tail sits.holds.boundaries.2 (fun other mem _ => apart other mem) sits.rows.2 ran
    rw [Node.ofKept] at ran ⊢
    split at ran
    · next kept =>
      rw [if_pos kept]
      have near := near_iff first sits.holds.boundaries.1 (later tree List.mem_cons_self kept)
        sits.rows.1 reached
      cases comment : (Node.ofTree parsed tree).isComment with
      | false =>
        obtain ⟨own, after, shown, ran_later, rfl⟩ := itemLines_item comment ran
        rw [Node.span_of_tree] at ran_later
        exact .item comment shown (by rw [Node.span_of_tree]; exact next ran_later)
      | true =>
        have kind := Node.comment_of_tree comment
        rw [Node.ofTree_comment kind] at ran ⊢
        obtain ⟨after, ran_later, rfl⟩ := itemLines_comment ran
        have line := comment_line sits kind
        have ends := itemLines_fresh (block.apart_comment kind) ran_later
        split
        · next same => exact .behind (near.mp (eq_of_beq same)) line ends (next ran_later)
        · next other =>
          exact .alone (fun same => other (beq_iff_eq.mpr (near.mpr same))) line ends
            (next ran_later)
    · next dropped =>
      rw [if_neg dropped]
      exact ih block.tail first (fun other mem => later other (List.mem_cons_of_mem _ mem)) reached
        ran

/-- A block has a layout that keeps its comments where they are attached. -/
theorem Block.keeps {layout : Layout} (grammatical : parsed.Grammatical) (of : Of parsed layout)
    (block : Block parsed trees items) (first : Boundary parsed.source previous)
    (later : ∀ item ∈ items, previous ≤ item.span.startByte)
    (reached : row = lineBreaks parsed.source 0 previous + skipped) :
    Keeps layout skipped previous items row := by
  refine ⟨fun depth base enough => ?_, fun depth base text ran => ?_⟩
  · rw [of.source, depthFor] at enough
    have answers := answers_at grammatical of depth
    refine @answers.block trees items (byteLength parsed.source) row base block ?_ (by omega)
    intro tree mem
    have bounded := (block.placed tree mem).sits.holds.bounded
    rw [Span.length]
    omega
  · rw [blockText] at ran
    obtain ⟨lines, shown, ran⟩ := bind_ok ran
    cases ran
    refine ⟨lines, rfl, ?_⟩
    rw [← block.items] at shown later ⊢
    rw [of.source]
    refine itemLines_attached block.inside first (fun tree mem kept => ?_) reached shown
    have starts := later _ (Node.mem_ofKept_of mem kept)
    rwa [Node.span_of_tree] at starts

/-- The body of an extended lambda keeps its comments: it is a list, whose bracket is in the row of
the list. -/
theorem lambda_keeps {layout : Layout} {node : Node} {parts : LambdaParts}
    (grammatical : parsed.Grammatical) (of : Of parsed layout) (stands : Node.Stands parsed node)
    (shape : LambdaParts.ofNode? node = some parts) :
    Keeps layout 0 parts.body.startByte parts.elements parts.body.start.row := by
  obtain ⟨span, own, rfl⟩ := Node.parts_shape shape
  have inside : .list parts.body parts.elements ∈ Node.preorder (.call span parts.function
      [.lambda own parts.parameters (.list parts.body parts.elements) []]) := by
    simp [Node.preorder, Node.preorderOf]
  obtain ⟨list, placed, made⟩ := stands.below inside
  obtain ⟨trees, block, -, within⟩ := list_block placed made.symm
  have place : list.span = parts.body := by rw [← Node.span_of_tree parsed, ← made]; rfl
  rw [← place]
  refine block.keeps grammatical of placed.sits.holds.boundaries.1 (fun item mem => ?_)
    placed.sits.rows.1
  obtain ⟨tree, among, rfl, -⟩ := block.of_item mem
  rw [Node.span_of_tree]
  exact Nat.le_of_lt (within tree among).1

end Lines

end Layout

namespace Chain

variable {parsed : Parsed} {tree : Tree} {start stop : Nat} {clause : Clause} {tokens : List Token}

theorem openBracket_mem {bracket : Token} {offset : Nat}
    (found : openBracket? tokens offset = some bracket) :
    bracket ∈ tokens ∧ bracket.kind = .openBracket := by
  rw [openBracket?, Option.filter_eq_some_iff] at found
  exact ⟨(List.dropWhile_sublist _).mem (List.mem_of_find?_eq_some found.1), eq_of_beq found.2⟩

/-- The tokens are divided behind a chain, which ends with a bracket. -/
theorem divides_end {clauses : List Clause} (placed : Placed parsed tree)
    (chain : ofNode? tokens (Node.ofTree parsed tree) = some clauses) :
    Divides parsed tree.span.endByte := by
  cases made : Node.ofTree parsed tree with
  | subscript span value items =>
    obtain ⟨before, inner, extras, first, trees, parts⟩ := subscript_parts placed made
    obtain ⟨front, last, whole, last_placed, closes⟩ := parts.closing placed
    have lies := placed.sits.lies parts.split
    rw [whole] at lies
    refine placed.divides_end (.inr ⟨last.token parsed.source, ?_, Node.ends_with lies⟩)
    rw [Python.Tree.tokens_of_split parts.split]
    refine Python.Tree.mem_tokensOf.mpr ⟨last, by rw [whole]; simp, ?_⟩
    rw [(closes.tokens last_placed.sits (by decide) (by decide)).1]
    exact List.mem_singleton_self _
  | module | call | access | name | lambda | list | comment | other =>
    rw [made] at chain
    cases chain

/-- The body of a clause keeps its comments, but for the lone carriage returns before its bracket.
-/
theorem ClauseAt.keeps {layout : Layout} (grammatical : parsed.Grammatical)
    (of : layout.Of parsed) (at_ : ClauseAt parsed start clause stop) :
    ∃ bracket gap, openBracket? (Token.tokenize parsed) clause.head.stop = some bracket ∧
      GapBefore (Token.tokenize parsed) bracket gap ∧
      layout.Keeps (loneReturns gap) bracket.span.startByte clause.body clause.openRow := by
  obtain ⟨bracket, found, row, later⟩ := at_.opened
  obtain ⟨trees, block, -⟩ := at_.body
  obtain ⟨mem, kind⟩ := openBracket_mem found
  have solid : bracket.isBlank = false := by rw [Token.isBlank, kind]; rfl
  obtain ⟨gap, before, place⟩ := Token.tokenize_row grammatical mem solid
  have held := Text.slice?_iff.mp ((Token.tokenize_partitions parsed).slices bracket mem)
  exact ⟨bracket, gap, found, before, block.keeps grammatical of held.boundaries.1
    (fun item mem => Nat.le_of_lt (later item mem)) (row.trans place)⟩

end Chain

namespace Layout

/-- What the layout of a block keeps of its comments, whatever parser gave the tree. -/
theorem blocks_keep {keyword : Text} {parsed : Parsed} {calls : List Node}
    (grammatical : parsed.Grammatical) (sound : parsed.hasErrors = false)
    (confirms : Confirms keyword parsed calls) :
    let tokens := Token.tokenize parsed
    let layout := make parsed.source tokens calls
    ∀ node ∈ (Node.lower parsed).preorder,
      (∀ parts, LambdaParts.ofNode? node = some parts →
        layout.Keeps 0 parts.body.startByte parts.elements parts.body.start.row) ∧
      ∀ clauses, Chain.ofNode? tokens node = some clauses → ∀ clause ∈ clauses,
        ∃ bracket gap, Chain.openBracket? tokens clause.head.stop = some bracket ∧
          GapBefore tokens bracket gap ∧
          layout.Keeps (loneReturns gap) bracket.span.startByte clause.body clause.openRow := by
  intro tokens layout node mem
  have of : layout.Of parsed := confirms.layout grammatical sound
  rcases Node.stands_of_mem grammatical sound mem with rfl | stands
  · obtain ⟨span, statements, whole⟩ := Node.lower_is_module grammatical
    rw [whole]
    exact ⟨nofun, nofun⟩
  · refine ⟨fun parts shape => lambda_keeps grammatical of stands shape, ?_⟩
    intro clauses chain clause among
    obtain ⟨tree, placed, rfl⟩ := stands
    have last := Chain.divides_end placed chain
    have linked := Chain.chain_linked grammatical tree placed last clauses chain
    obtain ⟨_, _, -, -, at_⟩ := linked.within among
    exact at_.keeps grammatical of

/-- Every block of a source without errors has a layout in which the comments stay attached to what
is before them. The first comment of a clause does so up to the lone carriage returns before the
bracket of the clause. -/
theorem blocks_keep_comments (keyword source : Text) {calls : List Node}
    (sound : (Python.parse source).hasErrors = false)
    (confirms : Confirms keyword (Python.parse source) calls) :
    let tokens := Token.tokenize (Python.parse source)
    let layout := make source tokens calls
    ∀ node ∈ (Node.lower (Python.parse source)).preorder,
      (∀ parts, LambdaParts.ofNode? node = some parts →
        layout.Keeps 0 parts.body.startByte parts.elements parts.body.start.row) ∧
      ∀ clauses, Chain.ofNode? tokens node = some clauses → ∀ clause ∈ clauses,
        ∃ bracket gap, Chain.openBracket? tokens clause.head.stop = some bracket ∧
          GapBefore tokens bracket gap ∧
          layout.Keeps (loneReturns gap) bracket.span.startByte clause.body clause.openRow :=
  blocks_keep (Python.parse_grammatical sound) sound confirms

/-- The theorem applies to a clause in an extended lambda. Its comment stays behind the bracket. -/
theorem blocks_keep_comments_behind :
    let source := "f = def_(lambda: [if_[x] [ # c\n a]])\n".toList
    let parsed := Python.parse source
    let tokens := Token.tokenize parsed
    ∃ calls, Confirms defaultKeyword parsed calls ∧
      let layout := make source tokens calls
      ∃ node ∈ (Node.lower parsed).preorder, ∃ clauses,
        Chain.ofNode? tokens node = some clauses ∧ ∃ clause ∈ clauses,
          blockText layout 9 clause.body clause.openRow indentation =
            .ok "  # c\n        a\n    ".toList ∧
          ∃ bracket gap, Chain.openBracket? tokens clause.head.stop = some bracket ∧
            GapBefore tokens bracket gap ∧
            layout.Keeps (loneReturns gap) bracket.span.startByte clause.body clause.openRow := by
  intro source parsed tokens
  have confirms := confirms_found (by decide : Text.isName defaultKeyword = true) source
  let layout := make source tokens (found defaultKeyword source)
  have laid : (Node.lower parsed).preorder.any (fun node =>
      (Chain.ofNode? tokens node).any fun clauses => clauses.any fun clause =>
        (blockText layout 9 clause.body clause.openRow indentation).toOption ==
          some "  # c\n        a\n    ".toList) = true := by
    decide +kernel
  obtain ⟨node, mem, fits⟩ := List.any_eq_true.mp laid
  obtain ⟨clauses, chain, fits⟩ := (Option.any_eq_true _ _).mp fits
  obtain ⟨clause, among, fits⟩ := List.any_eq_true.mp fits
  exact ⟨_, confirms, node, mem, clauses, chain, clause, among, ok_of_to_option (eq_of_beq fits),
    (blocks_keep_comments defaultKeyword source (by decide +kernel) confirms node mem).2 clauses
      chain clause among⟩

/-- With a carriage return before the bracket of the clause, its comment leaves the line on which it
stands, without a line feed in between. -/
theorem blocks_keep_comments_leaves :
    let source := "f = def_(lambda: [if_[x]\r[ # c\n a]])\n".toList
    let parsed := Python.parse source
    let tokens := Token.tokenize parsed
    let layout := make source tokens (found defaultKeyword source)
    parsed.hasErrors = false ∧
      (∃ node ∈ (Node.lower parsed).preorder, ∃ clauses,
        Chain.ofNode? tokens node = some clauses ∧ ∃ clause ∈ clauses, ∃ bracket,
          Chain.openBracket? tokens clause.head.stop = some bracket ∧
          ∃ item, clause.body.head? = some item ∧ item.isComment = true ∧
            lineBreaks source bracket.span.startByte item.span.startByte = 0 ∧
            blockText layout 9 clause.body clause.openRow indentation =
              .ok "\n        # c\n        a\n    ".toList) ∧
      Reformat.ofSource defaultKeyword source = .ok
        ⟨"f = def_(lambda: [\n    if_[x] [\n        # c\n        a\n    ]\n])\n".toList, 1⟩ := by
  intro source parsed tokens layout
  refine ⟨by decide +kernel, ?_, ok_of_to_option (by decide +kernel)⟩
  have laid : (Node.lower parsed).preorder.any (fun node =>
      (Chain.ofNode? tokens node).any fun clauses => clauses.any fun clause =>
        (Chain.openBracket? tokens clause.head.stop).any fun bracket =>
          clause.body.head?.any fun item => item.isComment &&
            lineBreaks source bracket.span.startByte item.span.startByte == 0 &&
            (blockText layout 9 clause.body clause.openRow indentation).toOption ==
              some "\n        # c\n        a\n    ".toList) = true := by
    decide +kernel
  obtain ⟨node, mem, fits⟩ := List.any_eq_true.mp laid
  obtain ⟨clauses, chain, fits⟩ := (Option.any_eq_true _ _).mp fits
  obtain ⟨clause, among, fits⟩ := List.any_eq_true.mp fits
  obtain ⟨bracket, opens, fits⟩ := (Option.any_eq_true _ _).mp fits
  obtain ⟨item, first, fits⟩ := (Option.any_eq_true _ _).mp fits
  simp only [Bool.and_eq_true, beq_iff_eq] at fits
  exact ⟨node, mem, clauses, chain, clause, among, bracket, opens, item, first, fits.1.1, fits.1.2,
    ok_of_to_option fits.2⟩

end Layout

end LambdaLayout
