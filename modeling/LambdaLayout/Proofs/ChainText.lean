import LambdaLayout.Proofs.ChainClauses
import LambdaLayout.Proofs.ParseGrammatical

/-!
The text of a chain, part by part. Every clause is its head as it stands, which starts with the
keyword, then a bracket, the items of the body with commas between them and comments among them, and
the closing bracket; between two clauses there is one dot. Between these parts there is nothing but
blanks and hidden line breaks. Whether a keyword is followed by the bracket at once is decided by
the keyword where it has to have a head or has to have none.
-/

namespace LambdaLayout

open LambdaLayout.Python (Blank Parsed Tree)
open LambdaLayout.Python.Tree (IsSign Lies Listing Placed Sits Stage)
open LambdaLayout.Reformat (Mark)
open LambdaLayout.Text (Holds byteLength)

/-- Nothing but blanks and hidden line breaks stands between the two offsets. -/
def OnlyFiller (source : Text) (start stop : Nat) : Prop :=
  ∃ gap, Holds source start gap stop ∧ Filler gap

/-- The text of a body, from an offset to the end of its closing bracket. There is a comma between
two items and possibly one after the last. The flag says whether a comma must come before the next
item. -/
inductive BodyText (source : Text) : Bool → Nat → List Node → Nat → Prop where
  | item {start stop : Nat} {item : Node} {items : List Node} {text : Text}
      (solid : item.isComment = false) (gap : OnlyFiller source start item.span.startByte)
      (held : Holds source item.span.startByte text item.span.endByte)
      (rest : BodyText source true item.span.endByte items stop) :
      BodyText source false start (item :: items) stop
  | comma {start comma stop : Nat} {items : List Node} (gap : OnlyFiller source start comma)
      (held : Holds source comma [','] (comma + 1))
      (rest : BodyText source false (comma + 1) items stop) : BodyText source true start items stop
  | comment {awaits : Bool} {start stop : Nat} {span : Span} {text : Text} {items : List Node}
      (gap : OnlyFiller source start span.startByte)
      (held : Holds source span.startByte text span.endByte)
      (rest : BodyText source awaits span.endByte items stop) :
      BodyText source awaits start (.comment span text :: items) stop
  | close {awaits : Bool} {start bracket : Nat} (gap : OnlyFiller source start bracket)
      (held : Holds source bracket [']'] (bracket + 1)) :
      BodyText source awaits start [] (bracket + 1)

section Body

variable {parsed : Parsed} {source : Text} {start middle stop : Nat} {items : List Node}
  {awaits : Bool} {tree : Tree} {trees : List Tree} {stage : Stage}

theorem OnlyFiller.ordered (gap : OnlyFiller source start stop) : start ≤ stop := by
  obtain ⟨text, held, -⟩ := gap
  exact held.ordered

theorem OnlyFiller.append (first : OnlyFiller source start middle)
    (second : OnlyFiller source middle stop) : OnlyFiller source start stop := by
  obtain ⟨left, held, filler⟩ := first
  obtain ⟨right, later, more⟩ := second
  exact ⟨left ++ right, held.append later, filler.append more⟩

theorem OnlyFiller.of_blank (blank : Blank source start stop) : OnlyFiller source start stop := by
  obtain ⟨gap, held, spacing⟩ := blank
  exact ⟨gap, held, .of_spacing spacing⟩

/-- Behind a text nothing has to follow. -/
theorem OnlyFiller.after {text : Text} (held : Holds source start text stop) :
    OnlyFiller source stop stop :=
  ⟨[], .nil held.boundaries.2, .nil⟩

/-- Where there are no tokens there is nothing but a filler. -/
theorem Divides.only_filler (first : Divides parsed start) (second : Divides parsed stop)
    (ordered : start ≤ stop) (none : tokensIn parsed start stop = []) :
    OnlyFiller parsed.source start stop := by
  have strewn := first.strewn second ordered
  rw [none] at strewn
  cases strewn with
  | nil held filler => exact ⟨_, held, filler⟩

/-- The items lie between the ends of the body. -/
theorem BodyText.bounds (body : BodyText source awaits start items stop) : start ≤ stop ∧
    ∀ item ∈ items, start ≤ item.span.startByte ∧ item.span.endByte ≤ stop := by
  induction body with
  | item solid gap held rest ih | comment gap held rest ih =>
    obtain ⟨upto, inside⟩ := ih
    have first := gap.ordered
    have own := held.ordered
    refine ⟨by omega, List.forall_mem_cons.mpr ⟨⟨first, upto⟩, fun item mem => ?_⟩⟩
    obtain ⟨lower, upper⟩ := inside item mem
    exact ⟨by omega, upper⟩
  | comma gap held rest ih =>
    obtain ⟨upto, inside⟩ := ih
    have first := gap.ordered
    refine ⟨by omega, fun item mem => ?_⟩
    obtain ⟨lower, upper⟩ := inside item mem
    exact ⟨by omega, upper⟩
  | close gap held => exact ⟨Nat.le_succ_of_le gap.ordered, nofun⟩

namespace Python.Tree

theorem IsSign.holds {word : String} (sign : IsSign word tree) (sits : Sits source tree)
    (some : word.toList ≠ []) (other : word ≠ "line_continuation") :
    Holds source tree.span.startByte word.toList
      (tree.span.startByte + byteLength word.toList) := by
  have held := sits.holds
  rw [sign.text sits, (sign.tokens sits some other).2] at held
  exact held

/-- Before the end of a list that is closed there is its bracket. -/
theorem Listing.longer (listing : Listing "]" stage trees .closed) (open_ : stage ≠ .closed)
    (lies : Lies source start trees stop) : start < stop := by
  generalize ends : Stage.closed = last at listing
  induction listing generalizing start with
  | nil => exact absurd ends.symm open_
  | extra _ unclosed _ ih =>
    cases lies with
    | cons gap sits later =>
      exact Nat.lt_of_le_of_lt (Nat.le_trans gap.ordered sits.holds.ordered)
        (ih unclosed later ends)
  | part _ _ ih | comma _ _ ih =>
    cases lies with
    | cons gap sits later =>
      exact Nat.lt_of_le_of_lt (Nat.le_trans gap.ordered sits.holds.ordered)
        (ih Stage.noConfusion later ends)
  | close sign _ _ =>
    cases lies with
    | cons gap sits later =>
      have width := (sign.tokens sits (by decide) (by decide)).2
      have one : byteLength "]".toList = 1 := by decide
      have upto := later.spread.ordered
      have before := gap.ordered
      omega

end Python.Tree

/-- A line continuation that is not the end of the source is a filler. -/
theorem OnlyFiller.of_continuation (sits : Sits source tree)
    (kind : tree.kind = "line_continuation") (inside : tree.span.endByte < byteLength source) :
    OnlyFiller source tree.span.startByte tree.span.endByte := by
  have extra : tree.isExtra = true := by
    rw [Python.Tree.isExtra, kind, beq_self_eq_true, Bool.or_true]
  have closed := (sits.extra extra).1
  have silent : tree.isSilent = true := by
    rw [Python.Tree.isSilent, kind, beq_self_eq_true, Bool.or_true]
  refine ⟨_, sits.holds, sits.silent_filler closed silent fun _ bare => ?_⟩
  have ends := (sits.backslash_ends closed kind bare).1
  omega

/-- The trees of a block are the text of its body. -/
theorem body_text (listing : Listing "]" stage trees .closed) (unclosed : stage ≠ .closed)
    (gap : OnlyFiller parsed.source start middle) (lies : Lies parsed.source middle trees stop)
    (inside : stop ≤ byteLength parsed.source) :
    BodyText parsed.source (stage == .between) start (Node.ofKept parsed trees) stop := by
  generalize ends : Stage.closed = last at listing
  induction listing generalizing start middle with
  | nil => exact absurd ends.symm unclosed
  | @extra stage last tree trees skipped unclosed rest ih =>
    subst ends
    cases lies with
    | cons blank sits later =>
      have upto := gap.append (.of_blank blank)
      rcases Node.extra_cases sits skipped with ⟨-, -, kept⟩ | ⟨silent, dropped⟩
      · rw [kept]
        exact .comment upto sits.holds (ih unclosed (.after sits.holds) later rfl)
      · have kind : tree.kind = "line_continuation" := by
          refine (Python.Tree.extra_kind skipped).resolve_left fun comment => ?_
          rw [(sits.comment_tokens comment).1] at silent
          cases silent
        have longer := rest.longer unclosed later
        rw [dropped]
        exact ih unclosed (upto.append (.of_continuation sits kind (by omega))) later rfl
  | @part last tree trees kept rest ih =>
    cases lies with
    | cons blank sits later =>
      have solid : (Node.ofTree parsed tree).isComment = false := by
        refine Bool.eq_false_iff.mpr fun comment => ?_
        have kind := Node.comment_of_tree comment
        have extra := kept.solid
        rw [Python.Tree.isExtra, Python.Tree.isComment, kind] at extra
        cases extra
      rw [Node.ofKept, Node.part_kept kept.toIsPart, if_pos rfl]
      have held := sits.holds
      have upto := gap.append (.of_blank blank)
      have body := ih Stage.noConfusion (.after sits.holds) later ends
      rw [← Node.span_of_tree parsed tree] at held upto body
      exact .item solid upto held body
  | @comma last tree trees sign rest ih =>
    cases lies with
    | cons blank sits later =>
      have held := sign.holds sits (by decide) (by decide)
      have body := ih Stage.noConfusion (.after sits.holds) later ends
      rw [(sign.tokens sits (by decide) (by decide)).2] at body
      rw [Node.ofKept_sign sign]
      exact .comma (gap.append (.of_blank blank)) held body
  | @close stage last tree trees sign unclosed rest _ =>
    subst ends
    cases lies with
    | cons blank sits later =>
      obtain rfl : trees = [] := by
        cases rest with
        | nil => rfl
        | extra _ open_ | close _ open_ => exact absurd rfl open_
      cases later
      have held := sign.holds sits (by decide) (by decide)
      rw [Node.ofKept_sign sign, Node.ofKept, (sign.tokens sits (by decide) (by decide)).2]
      exact .close (gap.append (.of_blank blank)) held

end Body

namespace Chain

/-- Something other than blanks and comments lies in the range. -/
def HasSolid (tokens : List Token) (extent : Extent) : Prop :=
  ∃ token ∈ tokens, token.isInsignificant = false ∧ extent.contains token.span.extent = true

/-- The text of a clause, from an offset to the end of its closing bracket: its head, which starts
with one of the keywords, and its body in brackets. A keyword that takes no head is the whole head,
and one that needs a head is not. -/
structure ClauseText (parsed : Parsed) (keywords : List Text) (start : Nat) (clause : Clause)
    (stop : Nat) : Prop where
  starts : clause.head.start = start
  head : ∃ keyword ∈ keywords, ∃ rest,
    Holds parsed.source start (keyword ++ rest) clause.head.stop ∧
      (keyword ∈ headless → rest = []) ∧
      (keyword ∈ headed →
        HasSolid (Token.tokenize parsed) ⟨start + byteLength keyword, clause.head.stop⟩)
  body : ∃ bracket, OnlyFiller parsed.source clause.head.stop bracket ∧
    Holds parsed.source bracket ['['] (bracket + 1) ∧
      BodyText parsed.source false (bracket + 1) clause.body stop

/-- The clauses are the text between two offsets, with a dot between each and the next. The first
one starts with one of the given keywords, and the others with those that continue a chain. -/
inductive Tiles (parsed : Parsed) : List Text → Nat → List Clause → Nat → Prop where
  | last {keywords : List Text} {start stop : Nat} {clause : Clause}
      (own : ClauseText parsed keywords start clause stop) :
      Tiles parsed keywords start [clause] stop
  | dot {keywords : List Text} {start middle dot next stop : Nat} {clause : Clause}
      {clauses : List Clause} (own : ClauseText parsed keywords start clause middle)
      (before : OnlyFiller parsed.source middle dot)
      (held : Holds parsed.source dot ['.'] (dot + 1))
      (after : OnlyFiller parsed.source (dot + 1) next)
      (rest : Tiles parsed continuations next clauses stop) :
      Tiles parsed keywords start (clause :: clauses) stop

/-- The second clause comes after the head and the items of the first one. -/
def Follows (first second : Clause) : Prop :=
  first.head.stop ≤ second.head.start ∧ ∀ item ∈ first.body,
    first.head.stop ≤ item.span.startByte ∧ item.span.endByte ≤ second.head.start

section Tiles

variable {parsed : Parsed} {keywords : List Text} {start middle dot next stop : Nat}
  {clause : Clause} {clauses : List Clause}

theorem Tiles.snoc (tiles : Tiles parsed keywords start clauses middle)
    (before : OnlyFiller parsed.source middle dot) (held : Holds parsed.source dot ['.'] (dot + 1))
    (after : OnlyFiller parsed.source (dot + 1) next)
    (own : ClauseText parsed continuations next clause stop) :
    Tiles parsed keywords start (clauses ++ [clause]) stop := by
  induction tiles with
  | last first => exact .dot first before held after (.last own)
  | dot first earlier between later _ ih => exact .dot first earlier between later (ih before)

theorem ClauseText.bounds (own : ClauseText parsed keywords start clause stop) :
    start ≤ clause.head.stop ∧ clause.head.stop ≤ stop ∧ ∀ item ∈ clause.body,
      clause.head.stop ≤ item.span.startByte ∧ item.span.endByte ≤ stop := by
  obtain ⟨keyword, -, rest, held, -⟩ := own.head
  obtain ⟨bracket, gap, -, body⟩ := own.body
  have first := held.ordered
  have before := gap.ordered
  obtain ⟨upto, inside⟩ := body.bounds
  refine ⟨first, by omega, fun item mem => ?_⟩
  obtain ⟨lower, upper⟩ := inside item mem
  exact ⟨by omega, upper⟩

/-- The clauses come in the order of the source. -/
theorem Tiles.ordered (tiles : Tiles parsed keywords start clauses stop) :
    clauses.Pairwise Follows ∧ ∀ clause ∈ clauses, start ≤ clause.head.start := by
  induction tiles with
  | last own =>
    refine ⟨List.pairwise_singleton _ _, List.forall_mem_singleton.mpr ?_⟩
    exact Nat.le_of_eq own.starts.symm
  | dot own before held after _ ih =>
    obtain ⟨upto, closes, inside⟩ := own.bounds
    have first := before.ordered
    have last := after.ordered
    obtain ⟨ordered, later⟩ := ih
    rw [List.pairwise_cons, List.forall_mem_cons]
    refine ⟨⟨fun clause mem => ?_, ordered⟩, ?_, ?_⟩
    · have starts := later clause mem
      refine ⟨by omega, fun item among => ?_⟩
      obtain ⟨lower, upper⟩ := inside item among
      exact ⟨lower, by omega⟩
    · exact Nat.le_of_eq own.starts.symm
    · intro clause mem
      have starts := later clause mem
      omega

end Tiles

/-- No keyword both needs a head and takes none. -/
theorem headAllowed_iff {keyword : Text} {bare : Bool} : headAllowed keyword bare = true ↔
    (keyword ∈ headed → bare = false) ∧ (keyword ∈ headless → bare = true) := by
  have apart : ∀ word ∈ headless, word ∉ headed := by decide
  rw [headAllowed]
  split
  · next needs =>
    have needs : keyword ∈ headed := by simpa using needs
    have other : keyword ∉ headless := fun none => apart keyword none needs
    simp [needs, other]
  · next free =>
    have free : keyword ∉ headed := by simpa using free
    split
    · next none =>
      have none : keyword ∈ headless := by simpa using none
      simp [free, none]
    · next either =>
      have either : keyword ∉ headless := by simpa using either
      simp [free, either]

theorem clause_allowed {tokens : List Token} {head : Head} {value : Node} {items : List Node}
    {clause : Clause} (found : clause? tokens head value items = some clause) :
    headAllowed head.keyword head.bare = true := by
  rw [clause?] at found
  cases opens : openBracket? tokens value.span.endByte with
  | none => simp [opens] at found
  | some bracket =>
    simp only [opens, bind, Option.bind] at found
    split at found
    · cases found
    · next allowed => simpa using allowed

section Clauses

variable {parsed : Parsed} {tree inner first : Tree} {before extras trees : List Tree}
  {value : Node} {items : List Node} {head : Head} {clause : Clause} {keywords : List Text}

theorem hasSolid_of_mem {token : Token} {start stop : Nat} (grammatical : parsed.Grammatical)
    (mem : token ∈ tokensIn parsed start stop) (solid : token.kind ≠ .comment) :
    HasSolid (Token.tokenize parsed) ⟨start, stop⟩ := by
  obtain ⟨among, lower, upper⟩ := mem_tokensIn.mp mem
  rw [← Token.tokenize_solid grammatical] at among
  obtain ⟨other, listed, rfl⟩ := List.mem_map.mp among
  obtain ⟨listed, heard⟩ := List.mem_filter.mp listed
  have solid : other.kind ≠ .comment := solid
  refine ⟨other, listed, ?_, by simpa [Extent.contains] using ⟨lower, upper⟩⟩
  rcases other with ⟨kind, text, span⟩
  cases kind <;> first | rfl | exact absurd rfl solid | cases heard

/-- A clause that is found is its head, a bracket and its body. -/
theorem clause_text (grammatical : parsed.Grammatical)
    (parts : SubscriptParts parsed tree value items before inner extras first trees)
    (placed : Placed parsed tree) (word : WordIn parsed inner true head)
    (found : clause? (Token.tokenize parsed) head value items = some clause)
    (keyword : head.keyword ∈ keywords) :
    ClauseText parsed keywords head.start clause tree.span.endByte := by
  obtain ⟨needs, lacks⟩ := headAllowed_iff.mp (clause_allowed found)
  have none := clause_uncommented grammatical parts placed found
  obtain ⟨bracket, -, rfl, -⟩ := clause_found found
  obtain ⟨-, after, -, -, filled, inside⟩ := parts.order placed
  have place : value.span.endByte = inner.span.endByte := by
    rw [← parts.made, Node.span_of_tree]
  have bounded := placed.sits.holds.bounded
  have inner_placed := parts.placed placed inner (by simp)
  have first_placed := parts.placed placed first (by simp)
  refine ⟨rfl, ⟨head.keyword, keyword, ?_⟩, first.span.startByte, ?_, ?_, ?_⟩
  · obtain ⟨rest, rest_held⟩ := Text.holds_between word.word.boundaries.2
      inner_placed.sits.holds.boundaries.2 word.inside
    refine ⟨rest, ?_, fun is => ?_, fun is => ?_⟩
    · rw [place]
      exact word.word.append rest_held
    · have width := rest_held.length
      rw [word.whole (lacks is)] at width
      exact Text.byteLength_eq_zero.mp (by omega)
    · obtain ⟨token, mem, solid⟩ := word.more rfl (needs is)
      rw [place]
      exact hasSolid_of_mem grammatical mem solid
  · have silent := Node.extras_silent
      (fun part mem => (parts.placed placed part (by simp [mem])).sits)
      (fun part mem => parts.skipped part (List.mem_append_right _ mem))
      (fun part mem => none part (List.mem_append_right _ mem))
    rw [place]
    refine (inner_placed.divides_end (.inl (by omega))).only_filler
      (first_placed.divides_start (by omega)) after ?_
    rw [placed.tokensIn_between parts.split parts.whole, silent.2]
  · exact parts.opened.holds first_placed.sits (by decide) (by decide)
  · have block := parts.block placed none
    have lies := placed.sits.lies parts.split
    have width := (parts.opened.tokens first_placed.sits (by decide) (by decide)).2
    have one : byteLength "[".toList = 1 := by decide
    have around : tree.children = (before ++ inner :: extras) ++ first :: trees := by
      rw [parts.whole]
      simp
    rw [around] at lies
    obtain ⟨-, -, -, behind⟩ := lies.split
    rw [width, one] at behind
    rw [← block.items]
    exact body_text block.listed Stage.noConfusion
      (.after (parts.opened.holds first_placed.sits (by decide) (by decide))) behind bounded

/-- A single token between two offsets has nothing but fillers around it. -/
theorem mark_between {start stop : Nat} {mark : Mark} (first : Divides parsed start)
    (last : Divides parsed stop) (ordered : start ≤ stop) (solid : mark.1 ≠ .comment)
    (marks : (tokensIn parsed start stop).map Token.mark = [mark]) :
    ∃ place, OnlyFiller parsed.source start place ∧
      Holds parsed.source place mark.2 (place + byteLength mark.2) ∧
      OnlyFiller parsed.source (place + byteLength mark.2) stop := by
  have strewn := first.strewn last ordered
  obtain ⟨token, tokens, rfl⟩ := List.map_eq_singleton_iff.mp marks
  rw [tokens] at strewn
  cases strewn with
  | cons gap filler fits rest =>
    have text : token.mark.2 = token.text := if_neg solid
    have width := fits.held.length
    cases rest with
    | nil later more =>
      rw [text]
      refine ⟨token.span.startByte, ⟨_, gap, filler⟩, ?_, ?_⟩
      · rw [← width]
        exact fits.held
      · rw [← width]
        exact ⟨_, later, more⟩

/-- The clauses of a chain are its text. -/
theorem tiles_of_chain (grammatical : parsed.Grammatical) (tree : Tree)
    (placed : Placed parsed tree) (clauses : List Clause)
    (found : ofNode? (Token.tokenize parsed) (Node.ofTree parsed tree) = some clauses) :
    Tiles parsed starters tree.span.startByte clauses tree.span.endByte := by
  cases made : Node.ofTree parsed tree with
  | subscript span value items =>
    obtain ⟨front, inner, extras, first, trees, parts⟩ := subscript_parts placed made
    obtain ⟨-, after, -, -, filled, upto⟩ := parts.order placed
    have mem : inner ∈ tree.children := by rw [parts.whole]; simp
    have smaller := Python.Tree.sizeOf_part mem
    have bounded := placed.sits.holds.bounded
    rw [made] at found
    obtain ⟨head, earlier, clause, reached, own, rfl⟩ := chain_found found
    rw [← parts.made] at reached
    obtain ⟨word, preceded⟩ := keyword_found true inner (parts.placed placed inner (by simp))
      (by omega) head earlier reached
    rw [← parts.starts]
    cases preceded with
    | opening starts _ here =>
      have text := clause_text grammatical parts placed word own starts
      rw [here] at text
      exact .last text
    | @after object _ continues less object_placed starts chain previous ordered dot =>
      have text := clause_text grammatical parts placed word own continues
      have tiles := tiles_of_chain grammatical object object_placed earlier chain
      rw [starts] at tiles
      have quiet := clause_quiet grammatical own previous
      rw [List.filter_eq_self.mpr fun token mem => by simp [quiet token mem]] at dot
      have before := word.inside
      have divides := object_placed.divides_end (.inl (by omega))
      obtain ⟨place, gap, held, behind⟩ :=
        mark_between divides word.divides ordered TokenKind.noConfusion dot
      exact tiles.snoc gap held behind text
  | module | call | access | name | lambda | list | comment | other =>
    rw [made] at found
    cases found
termination_by sizeOf tree

end Clauses

/-- The clauses of a chain tile its node, whatever parser gave the tree. -/
theorem chain_tiles {parsed : Parsed} (grammatical : parsed.Grammatical)
    (sound : parsed.hasErrors = false) {node : Node} (mem : node ∈ (Node.lower parsed).preorder)
    {clauses : List Clause} (chain : ofNode? (Token.tokenize parsed) node = some clauses) :
    Tiles parsed starters node.span.startByte clauses node.span.endByte ∧
      clauses.Pairwise Follows := by
  rcases Node.stands_of_mem grammatical sound mem with whole | ⟨tree, placed, rfl⟩
  · obtain ⟨span, statements, module⟩ := Node.lower_is_module grammatical
    rw [whole, module] at chain
    cases chain
  · have tiles := tiles_of_chain grammatical tree placed clauses chain
    rw [Node.span_of_tree]
    exact ⟨tiles, tiles.ordered.1⟩

/-- The clauses of a chain are the text of its node, in the order of the source: the first starts
where the node does, with a keyword that opens a chain, every other one starts with a keyword that
continues it, and the last one ends with the node. -/
theorem chain_tiles_node (source : Text) (sound : (Python.parse source).hasErrors = false)
    {node : Node} (mem : node ∈ (Node.lower (Python.parse source)).preorder)
    {clauses : List Clause}
    (chain : ofNode? (Token.tokenize (Python.parse source)) node = some clauses) :
    Tiles (Python.parse source) starters node.span.startByte clauses node.span.endByte ∧
      clauses.Pairwise Follows :=
  chain_tiles (Python.parse_grammatical sound) sound mem chain

/-- A comment and a last comma belong to a body, and a line continuation may stand before a dot. -/
theorem chain_tiles_node_continued :
    let source := "if_[c] [a, # x\n b, ] \\\n . else_[d]\n".toList
    let parsed := Python.parse source
    ∃ node ∈ (Node.lower parsed).preorder, ∃ clauses,
      ofNode? (Token.tokenize parsed) node = some clauses ∧
        (clauses.map fun clause => Text.slice? source clause.head.start clause.head.stop) =
          [some "if_[c]".toList, some "else_".toList] ∧
        Tiles parsed starters 0 clauses 34 ∧ clauses.Pairwise Follows := by
  intro source parsed
  have found : ((Node.lower parsed).preorder.any fun node =>
      node.span.startByte == 0 && node.span.endByte == 34 &&
        (ofNode? (Token.tokenize parsed) node).any fun clauses =>
          (clauses.map fun clause => Text.slice? source clause.head.start clause.head.stop) ==
            [some "if_[c]".toList, some "else_".toList]) = true := by
    decide +kernel
  obtain ⟨node, mem, fits⟩ := List.any_eq_true.mp found
  simp only [Bool.and_eq_true, beq_iff_eq] at fits
  obtain ⟨⟨starts, stops⟩, fits⟩ := fits
  obtain ⟨clauses, chain, heads⟩ := (Option.any_eq_true _ _).mp fits
  have tiles := chain_tiles_node source (by decide +kernel) mem chain
  rw [starts, stops] at tiles
  exact ⟨node, mem, clauses, chain, eq_of_beq heads, tiles⟩

end Chain

end LambdaLayout
