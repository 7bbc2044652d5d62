import LambdaLayout.Proofs.BlockLines
import LambdaLayout.Proofs.TokenPartition

/-!
The clauses of a chain and the text they cover. The clauses follow one another from the start of the
node to its end, with a dot between two of them, and each is a head and a block in brackets.
Comments that a layout would lose, those before the bracket of a block and those around a dot, keep
a node from being a chain.
-/

namespace LambdaLayout

open LambdaLayout.Python (Parsed Tree)
open LambdaLayout.Python.Tree (EndsSolid IsSign Listing Placed Row Sits endsSolid_of_closed tokensOf
  tokensOf_cons tokensOf_append)
open LambdaLayout.Reformat (Mark)
open LambdaLayout.Layout (Block marksOf)
open LambdaLayout.Text (Holds byteLength)

/-- The bracket that opens a block. -/
def Mark.openBracket : Mark := (.openBracket, ['['])

/-- The dot between two clauses. -/
def Mark.dot : Mark := (.dot, ['.'])

namespace Python.Tree

variable {source : Text} {tree next : Tree} {solid trees : List Tree}

/-- A row starts with comments and line continuations before its first solid tree. -/
theorem Row.split (row : Row (next :: solid) trees) :
    ∃ extras rest, trees = extras ++ next :: rest ∧ (∀ extra ∈ extras, extra.isExtra = true) ∧
      Row solid rest := by
  generalize whole : next :: solid = kept at row
  induction row generalizing next solid with
  | nil => cases whole
  | @extra tree next' solid' trees skipped _ ih =>
    cases whole
    obtain ⟨extras, rest, split, all, row⟩ := ih rfl
    refine ⟨tree :: extras, rest, by rw [split]; rfl, ?_, row⟩
    intro extra mem
    rcases List.mem_cons.mp mem with rfl | mem
    · exact skipped
    · exact all extra mem
  | @part tree solid' trees kept row _ =>
    cases whole
    exact ⟨[], trees, rfl, List.forall_mem_nil _, row⟩

/-- A tree ends as its last part does. -/
theorem endsSolid_of_last {front : List Tree} {last : Tree} (source : Text)
    (split : tree.isClosed = false) (whole : tree.children = front ++ [last])
    (ends : EndsSolid [last]) (heard : last.isHeard = true) : EndsSolid [tree] := by
  refine (EndsSolid.prepend front ends heard).congr source ?_
  rw [← whole, tokensOf_cons, tokensOf_nil, List.append_nil, tokens_of_split split]

/-- The tokens of comments and line continuations are comments. -/
theorem Sits.extra_comment {token : Token} (sits : Sits source tree) (extra : tree.isExtra = true)
    (mem : token ∈ tree.tokens source) : token.kind = .comment := by
  rcases extra_kind extra with kind | kind
  · obtain ⟨tokens, mark, -⟩ := sits.comment_tokens kind
    rw [tokens] at mem
    rw [List.mem_singleton.mp mem]
    exact congrArg Prod.fst mark
  · rw [sits.continuation_tokens kind] at mem
    cases mem

/-- The last token in the text of a tree that does not end with a comment. -/
theorem Placed.last_solid {parsed : Parsed} (placed : Placed parsed tree)
    (ends : EndsSolid [tree]) :
    ∀ token ∈ (tokensIn parsed tree.span.startByte tree.span.endByte).getLast?,
      token.kind ≠ .comment := by
  intro token mem
  refine (endsSolid_iff parsed.source).mp ends token ?_
  rw [tokensOf_cons, tokensOf_nil, List.append_nil, ← placed.tokensIn_eq]
  exact mem

end Python.Tree

namespace Node

variable {parsed : Parsed} {tree : Tree} {extras trees left right : List Tree}

theorem ofKept_append (left right : List Tree) :
    ofKept parsed (left ++ right) = ofKept parsed left ++ ofKept parsed right := by
  induction left with
  | nil => rw [List.nil_append, ofKept, List.nil_append]
  | cons tree rest ih =>
    rw [List.cons_append, ofKept, ofKept, ih]
    split <;> rfl

theorem mem_ofKept_of (mem : tree ∈ trees) (kept : isKept tree = true) :
    ofTree parsed tree ∈ ofKept parsed trees := by
  induction trees with
  | nil => cases mem
  | cons first rest ih =>
    rw [ofKept]
    rcases List.mem_cons.mp mem with rfl | later
    · rw [kept, if_pos rfl]
      exact List.mem_cons_self
    · split
      · exact List.mem_cons_of_mem _ (ih later)
      · exact ih later

/-- The parts besides the one in the given role. -/
theorem ofOthers_split {role : String} (first : ∀ part ∈ left, part.label.role ≠ some role)
    (is : tree.label.role = some role) :
    ofOthers parsed role (left ++ tree :: right) = ofKept parsed left ++ ofKept parsed right := by
  induction left with
  | nil =>
    rw [List.nil_append, ofOthers, is, if_pos (beq_self_eq_true _), ofKept, List.nil_append]
  | cons part rest ih =>
    have other : (part.label.role == some role) = false := by
      simpa using first part List.mem_cons_self
    rw [List.cons_append, ofOthers, other, if_neg (by decide), ofKept,
      ih fun part mem => first part (List.mem_cons_of_mem _ mem)]
    split <;> rfl

/-- Comments and line continuations that keep nothing are no tokens. -/
theorem extras_silent (sits : ∀ tree ∈ extras, Sits parsed.source tree)
    (all : ∀ tree ∈ extras, tree.isExtra = true)
    (none : ∀ tree ∈ extras, tree.kind ≠ "comment") :
    ofKept parsed extras = [] ∧ tokensOf parsed.source extras = [] := by
  induction extras with
  | nil => exact ⟨by rw [ofKept], rfl⟩
  | cons tree rest ih =>
    obtain ⟨kept, tokens⟩ := ih (fun tree mem => sits tree (List.mem_cons_of_mem _ mem))
      (fun tree mem => all tree (List.mem_cons_of_mem _ mem))
      (fun tree mem => none tree (List.mem_cons_of_mem _ mem))
    rcases extra_cases (sits tree List.mem_cons_self) (all tree List.mem_cons_self) with
      ⟨comment, -⟩ | ⟨silent, same⟩
    · exact absurd comment (none tree List.mem_cons_self)
    · exact ⟨(same rest).trans kept, by rw [tokensOf_cons, silent, tokens]; rfl⟩

theorem kind_of_name {span : Span} {id : Text} (made : ofTree parsed tree = .name span id) :
    tree.kind = "identifier" := by
  obtain ⟨label, children⟩ := tree
  have from_tree := lowered parsed label children
  rw [made] at from_tree
  cases from_tree with
  | name kind => exact kind

theorem kind_of_subscript {span : Span} {value : Node} {items : List Node}
    (made : ofTree parsed tree = .subscript span value items) :
    tree.kind = "subscript" ∧ tree.span = span ∧
      ofRole parsed "value" tree.children = some value ∧
      ofOthers parsed "value" tree.children = items := by
  obtain ⟨label, children⟩ := tree
  have from_tree := lowered parsed label children
  rw [made] at from_tree
  cases from_tree with
  | subscript kind of => exact ⟨kind, rfl, of, rfl⟩

end Node

namespace Chain

variable {parsed : Parsed} {tree : Tree} {start middle next stop : Nat} {clause : Clause}
  {clauses earlier : List Clause} {head : Head}

/-- The clause covers the text between two offsets: its head, which does not end with a comment, a
bracket and a block. -/
structure ClauseAt (parsed : Parsed) (start : Nat) (clause : Clause) (stop : Nat) : Prop where
  head : clause.head.start = start
  forward : start ≤ clause.head.stop
  onward : clause.head.stop ≤ stop
  first : Divides parsed start
  middle : Divides parsed clause.head.stop
  last : Divides parsed stop
  solid : ∀ token ∈ (tokensIn parsed start clause.head.stop).getLast?, token.kind ≠ .comment
  body : ∃ trees, Block parsed trees clause.body ∧
    (tokensIn parsed clause.head.stop stop).map Token.mark =
      Mark.openBracket :: marksOf parsed trees ∧
    ∀ tree ∈ trees, clause.head.stop < tree.span.startByte ∧ tree.span.endByte ≤ stop
  opened : ∃ bracket, openBracket? (Token.tokenize parsed) clause.head.stop = some bracket ∧
    clause.openRow = bracket.span.start.row ∧
    ∀ item ∈ clause.body, bracket.span.startByte < item.span.startByte

/-- The clauses cover the text between two offsets, with a dot between each and the next. -/
inductive Linked (parsed : Parsed) : Nat → List Clause → Nat → Prop where
  | last {start stop : Nat} {clause : Clause} (own : ClauseAt parsed start clause stop) :
      Linked parsed start [clause] stop
  | dot {start middle next stop : Nat} {clause : Clause} {clauses : List Clause}
      (own : ClauseAt parsed start clause middle) (ordered : middle ≤ next)
      (dot : (tokensIn parsed middle next).map Token.mark = [Mark.dot])
      (rest : Linked parsed next clauses stop) : Linked parsed start (clause :: clauses) stop

theorem Linked.snoc (linked : Linked parsed start clauses middle) (ordered : middle ≤ next)
    (dot : (tokensIn parsed middle next).map Token.mark = [Mark.dot])
    (own : ClauseAt parsed next clause stop) :
    Linked parsed start (clauses ++ [clause]) stop := by
  induction linked with
  | last first => exact .dot first ordered dot (.last own)
  | dot first before between _ ih => exact .dot first before between (ih ordered dot)

theorem Linked.divides (linked : Linked parsed start clauses stop) :
    Divides parsed start ∧ Divides parsed stop := by
  induction linked with
  | last own => exact ⟨own.first, own.last⟩
  | dot own _ _ _ ih => exact ⟨own.first, ih.2⟩

theorem Linked.ordered (linked : Linked parsed start clauses stop) : start ≤ stop := by
  induction linked with
  | last own => exact Nat.le_trans own.forward own.onward
  | dot own before _ _ ih =>
    exact Nat.le_trans (Nat.le_trans own.forward own.onward) (Nat.le_trans before ih)

/-- The clauses of a chain lie in its text, one after the other. -/
theorem Linked.within (linked : Linked parsed start clauses stop) (mem : clause ∈ clauses) :
    ∃ first last, start ≤ first ∧ last ≤ stop ∧ ClauseAt parsed first clause last := by
  induction linked with
  | last own =>
    obtain rfl := List.mem_singleton.mp mem
    exact ⟨_, _, Nat.le_refl _, Nat.le_refl _, own⟩
  | dot own ordered _ rest ih =>
    rcases List.mem_cons.mp mem with rfl | later
    · exact ⟨_, _, Nat.le_refl _, Nat.le_trans ordered rest.ordered, own⟩
    · obtain ⟨first, last, lower, upper, at_⟩ := ih later
      have before := Nat.le_trans own.forward own.onward
      exact ⟨first, last, by omega, upper, at_⟩

/-- How a keyword is reached from an offset: it stands there, or after the clauses before it and a
dot. Comments around the dot are not counted. -/
inductive Reached (parsed : Parsed) (start : Nat) (head : Head) : List Clause → Prop where
  | opening (first : head.previousEnd = none) (here : head.start = start) :
      Reached parsed start head []
  | after {stop : Nat} {earlier : List Clause} (previous : head.previousEnd = some stop)
      (linked : Linked parsed start earlier stop) (ordered : stop ≤ head.start)
      (dot : ((tokensIn parsed stop head.start).filter fun token => token.kind != .comment).map
        Token.mark = [Mark.dot]) : Reached parsed start head earlier

private theorem dropWhile_eq {offset : Nat} {tokens : List Token}
    (sorted : tokens.Pairwise fun left right => left.span.startByte ≤ right.span.startByte) :
    (tokens.dropWhile fun token => token.span.startByte < offset) =
      tokens.filter fun token => offset ≤ token.span.startByte := by
  induction tokens with
  | nil => rfl
  | cons first rest ih =>
    obtain ⟨before, sorted⟩ := List.pairwise_cons.mp sorted
    rw [List.dropWhile_cons]
    split
    · next early =>
      have early : first.span.startByte < offset := of_decide_eq_true early
      rw [ih sorted, List.filter_cons_of_neg (by simpa using early)]
    · next late =>
      have late : offset ≤ first.span.startByte := by simpa using late
      refine (List.filter_eq_self.mpr fun token mem => decide_eq_true ?_).symm
      rcases List.mem_cons.mp mem with rfl | later
      · exact late
      · exact Nat.le_trans late (before token later)

/-- The bracket that is looked for from an offset on is the first token from there on that is no
comment. -/
theorem openBracket_eq (grammatical : parsed.Grammatical) (offset : Nat) :
    (openBracket? (Token.tokenize parsed) offset).map Token.unplaced =
      ((parsed.tree.tokens parsed.source).find? fun token =>
        offset ≤ token.span.startByte && token.kind != .comment).filter fun token =>
          token.kind == .openBracket := by
  have origin : Text.Boundary parsed.source 0 := ⟨[], parsed.source, rfl, rfl⟩
  obtain ⟨finish, runs⟩ :=
    Token.ofLeaves_runs Position.origin parsed.tree.leaves origin (Nat.zero_le _)
  have heard : ∀ token : Token, (!token.isInsignificant) =
      (!token.isBlank && token.kind != .comment) := by
    rintro ⟨kind, text, span⟩
    cases kind <;> rfl
  rw [openBracket?, Token.tokenize, dropWhile_eq runs.sorted.2, List.find?_filter, ← Token.tokenize,
    ← Token.tokenize_solid grammatical, List.find?_map, List.find?_filter]
  rw [Option.filter_map]
  congr 3
  funext token
  simp only [heard, Function.comp_apply, Token.unplaced]
  cases token.isBlank <;> simp
  rfl

/-- The bracket that is looked for from an offset on does not lie before what follows comments. -/
theorem openBracket_after {bracket : Token} {offset limit : Nat} (grammatical : parsed.Grammatical)
    (found : openBracket? (Token.tokenize parsed) offset = some bracket)
    (quiet : ∀ token ∈ parsed.tree.tokens parsed.source, offset ≤ token.span.startByte →
      token.span.startByte < limit → token.kind = .comment) : limit ≤ bracket.span.startByte := by
  have same := openBracket_eq grammatical offset
  rw [found, Option.map_some, eq_comm, Option.filter_eq_some_iff] at same
  have is := List.find?_some same.1
  rw [Bool.and_eq_true, decide_eq_true_iff, bne_iff_ne] at is
  refine Nat.not_lt.mp fun before => is.2 ?_
  exact quiet bracket.unplaced (List.mem_of_find?_eq_some same.1) is.1 before

/-- No token from an offset on, comments apart, lies before the bracket that is looked for there. -/
theorem openBracket_before {bracket token : Token} {offset : Nat} (grammatical : parsed.Grammatical)
    (found : openBracket? (Token.tokenize parsed) offset = some bracket)
    (mem : token ∈ parsed.tree.tokens parsed.source) (from_ : offset ≤ token.span.startByte)
    (solid : token.kind ≠ .comment) : bracket.span.startByte ≤ token.span.startByte := by
  have same := openBracket_eq grammatical offset
  rw [found, Option.map_some, eq_comm, Option.filter_eq_some_iff] at same
  obtain ⟨-, left, right, whole, skipped⟩ := List.find?_eq_some_iff_append.mp same.1
  have sorted := Python.Tree.tokens_ordered grammatical
  rw [whole] at mem sorted
  rcases List.mem_append.mp mem with before | behind
  · have none := skipped token before
    simp [from_, solid] at none
  · rcases List.mem_cons.mp behind with rfl | later
    · exact Nat.le_refl _
    · exact Nat.le_of_lt
        ((List.pairwise_cons.mp (List.pairwise_append.mp sorted).2.1).1 token later)

/-- A bracket is found if it is the first of the tokens from an offset on. -/
theorem openBracket_found {rest : List Mark} (grammatical : parsed.Grammatical)
    (last : Divides parsed stop)
    (marks : (tokensIn parsed start stop).map Token.mark = Mark.openBracket :: rest) :
    ∃ bracket, openBracket? (Token.tokenize parsed) start = some bracket := by
  have same := openBracket_eq grammatical start
  cases listed : tokensIn parsed start stop with
  | nil => rw [listed] at marks; cases marks
  | cons opening others =>
  rw [listed] at marks
  have kind : opening.kind = .openBracket := congrArg Prod.fst (List.cons.inj marks).1
  obtain ⟨left, right, whole, strewn, later⟩ := last
  have filled := fun (token : Token) (mem : token ∈ parsed.tree.tokens parsed.source) =>
    mem_tokens_filled mem
  rw [whole] at filled
  have front : (left.filter fun token => start ≤ token.span.startByte) = opening :: others := by
    have none : (right.filter fun token =>
        start ≤ token.span.startByte && token.span.endByte ≤ stop) = [] := by
      refine List.filter_eq_nil_iff.mpr fun token mem => ?_
      have starts := later token mem
      have width := filled token (List.mem_append_right _ mem)
      simp
      omega
    rw [← listed, tokensIn, whole, List.filter_append, none, List.append_nil]
    refine List.filter_congr fun token mem => ?_
    simp [(strewn.bounds token mem).2.2]
  have found : (left.find? fun token =>
      start ≤ token.span.startByte && token.kind != .comment) = some opening := by
    have own := congrArg (List.find? fun token => token.kind != .comment) front
    rw [List.find?_filter, List.find?_cons_of_pos (by rw [kind]; rfl)] at own
    simpa only [Bool.decide_and, Bool.decide_eq_true] using own
  rw [whole, List.find?_append, found, Option.some_or, Option.filter_some_pos (by simp [kind]),
    Option.map_eq_some_iff] at same
  obtain ⟨bracket, opens, -⟩ := same
  exact ⟨bracket, opens⟩

theorem hasCommentIn_eq (grammatical : parsed.Grammatical) (extent : Extent) :
    hasCommentIn (Token.tokenize parsed) extent =
      (parsed.tree.tokens parsed.source).any fun token =>
        token.kind == .comment && extent.contains token.span.extent := by
  refine any_tokenize grammatical (fun token => rfl) fun token is => ?_
  have comment : token.kind = .comment := eq_of_beq (Bool.and_eq_true_iff.mp is).1
  rw [Token.isBlank, comment]
  rfl

/-- The parts of a subscript: its value, and after it a bracket and a block. Comments and line
continuations may stand before the bracket. -/
structure SubscriptParts (parsed : Parsed) (tree : Tree) (value : Node) (items : List Node)
    (before : List Tree) (inner : Tree) (extras : List Tree) (first : Tree) (trees : List Tree) :
    Prop where
  split : tree.isClosed = false
  whole : tree.children = before ++ inner :: (extras ++ first :: trees)
  skipped : ∀ extra ∈ before ++ extras, extra.isExtra = true
  made : Node.ofTree parsed inner = value
  starts : inner.span.startByte = tree.span.startByte
  opened : IsSign "[" first
  listed : Listing "]" .ready trees .closed
  items : items =
    Node.ofKept parsed before ++ (Node.ofKept parsed extras ++ Node.ofKept parsed trees)

theorem subscript_parts {span : Span} {value : Node} {items : List Node}
    (placed : Placed parsed tree) (made : Node.ofTree parsed tree = .subscript span value items) :
    ∃ before inner extras first trees,
      SubscriptParts parsed tree value items before inner extras first trees := by
  obtain ⟨kind, -, found, others⟩ := Node.kind_of_subscript made
  obtain ⟨split, lies, construct⟩ :=
    placed.parts (by rw [kind]; decide) (.inl (by rw [kind]; decide))
  rw [kind] at construct
  obtain ⟨inner, first, front, trees, whole, row, role, opened, listed, starts⟩ :=
    construct.of_subscript
  obtain ⟨before, rest, split_front, all, row⟩ := row.split
  obtain ⟨extras, last, split_rest, also, row⟩ := row.split
  cases row
  rw [split_front, split_rest] at whole
  have sits := placed.sits_below split
  have roles : ∀ part ∈ before, part.label.role = none := fun part mem =>
    ((sits part (by rw [whole]; simp [mem])).extra (all part mem)).2.1
  have children : tree.children = before ++ inner :: (extras ++ first :: trees) := by
    rw [whole]
    simp
  refine ⟨before, inner, extras, first, trees, split, children, ?_, ?_, starts, opened, listed, ?_⟩
  · intro extra mem
    rcases List.mem_append.mp mem with mem | mem
    · exact all extra mem
    · exact also extra mem
  · rw [Node.ofRole_eq, children, List.find?_append, List.find?_eq_none.mpr] at found
    · simpa [role] using found
    · intro part mem
      simp [roles part mem]
  · rw [← others, children, Node.ofOthers_split (fun part mem => by simp [roles part mem]) role,
      Node.ofKept_append, Node.ofKept_sign opened]

section Subscript

variable {value : Node} {items : List Node} {before extras trees : List Tree} {inner first : Tree}

/-- A subscript ends with a bracket. -/
theorem SubscriptParts.closing (parts : SubscriptParts parsed tree value items before inner extras
    first trees) (placed : Placed parsed tree) :
    ∃ front last, tree.children = front ++ [last] ∧ Placed parsed last ∧ IsSign "]" last := by
  have among : ∀ part ∈ trees, Placed parsed part :=
    fun part mem => placed.child parts.split (by rw [parts.whole]; simp [mem])
  obtain ⟨front, last, ends, closes, -⟩ := parts.listed.tokens (by decide) (by decide)
    Python.Tree.Stage.noConfusion (fun part mem => (among part mem).sits)
    fun part mem => (among part mem).sound
  refine ⟨before ++ inner :: (extras ++ first :: front), last, ?_, among last (by rw [ends]; simp),
    closes⟩
  rw [parts.whole, ends]
  simp

theorem SubscriptParts.placed (parts : SubscriptParts parsed tree value items before inner extras
    first trees) (placed : Placed parsed tree) :
    ∀ part ∈ before ++ inner :: (extras ++ first :: trees), Placed parsed part :=
  fun part mem => placed.child parts.split (by rw [parts.whole]; exact mem)

/-- The places of the parts. -/
theorem SubscriptParts.order (parts : SubscriptParts parsed tree value items before inner extras
    first trees) (placed : Placed parsed tree) :
    (∀ part ∈ before, part.span.endByte ≤ inner.span.startByte) ∧
      inner.span.endByte ≤ first.span.startByte ∧
      (∀ part ∈ extras, inner.span.endByte ≤ part.span.startByte ∧
        part.span.endByte ≤ first.span.startByte) ∧
      (∀ part ∈ trees, first.span.endByte ≤ part.span.startByte ∧
        part.span.endByte ≤ tree.span.endByte) ∧
      first.span.startByte < first.span.endByte ∧ first.span.endByte ≤ tree.span.endByte := by
  have lies := placed.sits.lies parts.split
  have first_sits := (parts.placed placed first (by simp)).sits
  have width := (parts.opened.tokens first_sits (by decide) (by decide)).2
  have one : byteLength "[".toList = 1 := by decide
  rw [parts.whole] at lies
  obtain ⟨inside, apart⟩ := lies.bounds
  simp only [List.pairwise_append, List.pairwise_cons, List.mem_cons, List.mem_append] at apart
  refine ⟨fun part mem => apart.2.2 part mem inner (.inl rfl), apart.2.1.1 first (.inr (.inl rfl)),
    fun part mem => ⟨apart.2.1.1 part (.inl mem), apart.2.1.2.2.2 part mem first (.inl rfl)⟩,
    fun part mem => ⟨apart.2.1.2.2.1.1 part mem, (inside part (by simp [mem])).2⟩, by omega,
    (inside first (by simp)).2⟩

/-- What follows the value of a subscript, if no comment stands before the bracket. -/
theorem SubscriptParts.tokens_after (parts : SubscriptParts parsed tree value items before inner
    extras first trees) (placed : Placed parsed tree)
    (none : ∀ part ∈ extras, part.kind ≠ "comment") :
    (tokensIn parsed inner.span.endByte tree.span.endByte).map Token.mark =
      Mark.openBracket :: marksOf parsed trees := by
  have sits := fun part mem => (parts.placed placed part mem).sits
  have silent := Node.extras_silent (fun part mem => sits part (by simp [mem]))
    (fun part mem => parts.skipped part (List.mem_append_right _ mem)) none
  rw [placed.tokensIn_after parts.split parts.whole, tokensOf_append, silent.2, List.nil_append,
    tokensOf_cons, List.map_append,
    parts.opened.marks (sits first (by simp)) (by decide) (by decide) (by decide)]
  rfl

/-- The bracket that is looked for behind the value of a subscript is not after its own. -/
theorem SubscriptParts.bracket_before {bracket : Token} (grammatical : parsed.Grammatical)
    (parts : SubscriptParts parsed tree value items before inner extras first trees)
    (placed : Placed parsed tree)
    (found : openBracket? (Token.tokenize parsed) inner.span.endByte = some bracket) :
    bracket.span.startByte ≤ first.span.startByte := by
  have first_placed := parts.placed placed first (by simp)
  have own := (parts.opened.tokens first_placed.sits (by decide) (by decide)).1
  have mem : first.token parsed.source ∈
      tokensIn parsed first.span.startByte first.span.endByte := by
    rw [first_placed.tokensIn_eq, own]
    exact List.mem_singleton_self _
  refine openBracket_before grammatical found (mem_tokensIn.mp mem).1 (parts.order placed).2.1 ?_
  rw [parts.opened.token_kind first_placed.sits]
  decide

theorem SubscriptParts.block (parts : SubscriptParts parsed tree value items before inner
    extras first trees) (placed : Placed parsed tree)
    (none : ∀ part ∈ before ++ extras, part.kind ≠ "comment") : Block parsed trees items := by
  have sits := fun part mem => (parts.placed placed part mem).sits
  have lies := placed.sits.lies parts.split
  rw [parts.whole] at lies
  have apart := lies.bounds.2
  simp only [List.pairwise_append, List.pairwise_cons] at apart
  have first_silent := Node.extras_silent (fun part mem => sits part (by simp [mem]))
    (fun part mem => parts.skipped part (List.mem_append_left _ mem))
    (fun part mem => none part (List.mem_append_left _ mem))
  have silent := Node.extras_silent (fun part mem => sits part (by simp [mem]))
    (fun part mem => parts.skipped part (List.mem_append_right _ mem))
    (fun part mem => none part (List.mem_append_right _ mem))
  refine ⟨parts.listed, fun part mem => parts.placed placed part (by simp [mem]),
    apart.2.1.2.2.1.2, ?_⟩
  rw [parts.items, first_silent.1, silent.1, List.nil_append, List.nil_append]

/-- Between the value of a subscript and the bracket only comments stand. -/
theorem SubscriptParts.only_comments (parts : SubscriptParts parsed tree value items before inner
    extras first trees) (placed : Placed parsed tree) {token : Token}
    (mem : token ∈ parsed.tree.tokens parsed.source)
    (lower : inner.span.endByte ≤ token.span.startByte)
    (upper : token.span.startByte < first.span.startByte) : token.kind = .comment := by
  obtain ⟨-, -, -, -, filled, inside⟩ := parts.order placed
  have bounded := placed.sits.holds.bounded
  have divides := (parts.placed placed first (by simp)).divides_start (by omega)
  have among : token ∈ tokensIn parsed inner.span.endByte first.span.startByte :=
    mem_tokensIn.mpr ⟨mem, lower, divides.ends_before mem upper⟩
  rw [placed.tokensIn_between parts.split parts.whole] at among
  obtain ⟨extra, listed, own⟩ := Python.Tree.mem_tokensOf.mp among
  exact (parts.placed placed extra (by simp [listed])).sits.extra_comment
    (parts.skipped extra (List.mem_append_right _ listed)) own

/-- No comment stands before the bracket if none of the items is a comment there. -/
theorem SubscriptParts.uncommented {offset : Nat} (parts : SubscriptParts parsed tree value items
    before inner extras first trees) (placed : Placed parsed tree)
    (limit : first.span.startByte ≤ offset)
    (free : (items.any fun item => item.isComment && item.span.startByte < offset) = false) :
    ∀ part ∈ before ++ extras, part.kind ≠ "comment" := by
  intro part mem kind
  obtain ⟨early, after, between, -⟩ := parts.order placed
  have sits : Sits parsed.source part := (parts.placed placed part (by
    rcases List.mem_append.mp mem with mem | mem <;> simp [mem])).sits
  have ends : part.span.endByte ≤ first.span.startByte := by
    rcases List.mem_append.mp mem with mem | mem
    · have ordered := (parts.placed placed inner (by simp)).sits.holds.ordered
      exact Nat.le_trans (early part mem) (Nat.le_trans ordered after)
    · exact (between part mem).2
  obtain ⟨tokens, -, named⟩ := sits.comment_tokens kind
  have filled : part.span.startByte < part.span.endByte :=
    @mem_tokens_filled part parsed.source (part.token parsed.source) (by rw [tokens]; simp)
  have kept : Node.isKept part = true := by rw [Node.isKept, named, kind]; rfl
  have item : Node.ofTree parsed part ∈ items := by
    rw [parts.items]
    rcases List.mem_append.mp mem with mem | mem
    · exact List.mem_append_left _ (Node.mem_ofKept_of mem kept)
    · exact List.mem_append_right _ (List.mem_append_left _ (Node.mem_ofKept_of mem kept))
  have loose := List.any_eq_false.mp free _ item
  rw [Node.ofTree_comment kind] at loose
  have starts : part.span.startByte < offset := by omega
  exact loose (by simp [Node.isComment, Node.span, starts])

/-- What is known when a clause is found: its bracket, and that no comment is in the way. -/
theorem clause_found {tokens : List Token}
    (found : clause? tokens head value items = some clause) :
    ∃ bracket, openBracket? tokens value.span.endByte = some bracket ∧
      clause = ⟨⟨head.start, value.span.endByte⟩, head.row, items, bracket.span.start.row⟩ ∧
      hasStuckComment tokens head items bracket.span.startByte = false := by
  rw [clause?] at found
  cases opens : openBracket? tokens value.span.endByte with
  | none => simp [opens] at found
  | some bracket =>
    simp only [opens, bind, Option.bind] at found
    split at found
    · cases found
    split at found
    · cases found
    · next stuck =>
      cases found
      exact ⟨bracket, rfl, rfl, by simpa using stuck⟩

/-- What is known when a chain is found: the head of its last clause, with the clauses before it. -/
theorem chain_found {tokens : List Token} {span : Span}
    (found : ofNode? tokens (.subscript span value items) = some clauses) :
    ∃ head earlier clause, headOf tokens true value = some (head, earlier) ∧
      clause? tokens head value items = some clause ∧ clauses = earlier ++ [clause] := by
  rw [ofNode?] at found
  cases reached : headOf tokens true value with
  | none => simp [reached] at found
  | some pair =>
    obtain ⟨head, earlier⟩ := pair
    simp only [reached, bind, Option.bind] at found
    cases own : clause? tokens head value items with
    | none => simp [own] at found
    | some clause =>
      simp only [own, pure, Option.some.injEq] at found
      exact ⟨head, earlier, clause, rfl, own, found.symm⟩

/-- No comment stands before the bracket of a clause. -/
theorem clause_uncommented (grammatical : parsed.Grammatical)
    (parts : SubscriptParts parsed tree value items before inner extras first trees)
    (placed : Placed parsed tree)
    (found : clause? (Token.tokenize parsed) head value items = some clause) :
    ∀ part ∈ before ++ extras, part.kind ≠ "comment" := by
  obtain ⟨bracket, opens, -, stuck⟩ := clause_found found
  have place : value.span.endByte = inner.span.endByte := by
    rw [← parts.made, Node.span_of_tree]
  rw [hasStuckComment, Bool.or_eq_false_iff] at stuck
  refine parts.uncommented placed ?_ stuck.1
  exact openBracket_after grammatical opens fun token mem lower =>
    parts.only_comments placed mem (place ▸ lower)

/-- No comment stands between a clause and the keyword of the next one. -/
theorem clause_quiet (grammatical : parsed.Grammatical)
    (found : clause? (Token.tokenize parsed) head value items = some clause)
    (previous : head.previousEnd = some stop) :
    ∀ token ∈ tokensIn parsed stop head.start, token.kind ≠ .comment := by
  intro token mem comment
  obtain ⟨bracket, -, -, stuck⟩ := clause_found found
  obtain ⟨among, lower, upper⟩ := mem_tokensIn.mp mem
  rw [hasStuckComment, previous, Option.any_some, Bool.or_eq_false_iff,
    hasCommentIn_eq grammatical] at stuck
  exact List.any_eq_false.mp stuck.2 token among
    (by simp [comment, Extent.contains, Span.extent, lower, upper])

/-- A clause that is found has its head, its bracket and its block. -/
theorem clause_at (grammatical : parsed.Grammatical)
    (parts : SubscriptParts parsed tree value items before inner extras first trees)
    (placed : Placed parsed tree) (last : Divides parsed tree.span.endByte)
    (own : Divides parsed head.start) (from_ : inner.span.startByte ≤ head.start)
    (upto : head.start ≤ inner.span.endByte) (ends : EndsSolid [inner])
    (found : clause? (Token.tokenize parsed) head value items = some clause) :
    ClauseAt parsed head.start clause tree.span.endByte := by
  have none := clause_uncommented grammatical parts placed found
  obtain ⟨bracket, opens, rfl, -⟩ := clause_found found
  obtain ⟨-, after, -, inner_trees, filled, inside⟩ := parts.order placed
  have place : value.span.endByte = inner.span.endByte := by
    rw [← parts.made, Node.span_of_tree]
  have bounded := placed.sits.holds.bounded
  have onward : inner.span.endByte ≤ tree.span.endByte := by omega
  have inner_placed := parts.placed placed inner (by simp)
  have block := parts.block placed none
  refine ⟨rfl, ?_, ?_, own, ?_, last, ?_, ?_, bracket, opens, rfl, fun item mem => ?_⟩
  · rw [place]
    exact upto
  · rw [place]
    exact onward
  · rw [place]
    exact inner_placed.divides_end (.inl (by omega))
  · intro token mem
    rw [place, Option.mem_def] at mem
    refine inner_placed.last_solid ends token ?_
    rw [tokensIn_append own from_ upto, List.getLast?_append, mem]
    rfl
  · refine ⟨trees, block, ?_, fun tree mem => ?_⟩
    · rw [place]
      exact parts.tokens_after placed fun part mem => none part (List.mem_append_right _ mem)
    · obtain ⟨starts, stops⟩ := inner_trees tree mem
      refine ⟨?_, stops⟩
      show value.span.endByte < tree.span.startByte
      omega
  · obtain ⟨tree, among, rfl, -⟩ := block.of_item mem
    have starts := (inner_trees tree among).1
    have before := parts.bracket_before grammatical placed (place ▸ opens)
    rw [Node.span_of_tree]
    omega

end Subscript

private theorem extras_unheard {source : Text} {extras : List Tree}
    (sits : ∀ tree ∈ extras, Sits source tree) (all : ∀ tree ∈ extras, tree.isExtra = true) :
    (tokensOf source extras).filter (fun token => token.kind != .comment) = [] := by
  refine List.filter_eq_nil_iff.mpr fun token mem => ?_
  obtain ⟨extra, listed, own⟩ := Python.Tree.mem_tokensOf.mp mem
  simp [(sits extra listed).extra_comment (all extra listed) own]

/-- The parts of an access: an object, and after it a dot and a name. -/
theorem access_parts {span labelSpan : Span} {object : Node} {label : Text}
    (placed : Placed parsed tree)
    (made : Node.ofTree parsed tree = .access span object label labelSpan) :
    ∃ inner name, tree.isClosed = false ∧ inner ∈ tree.children ∧
      Node.ofTree parsed inner = object ∧ inner.span.startByte = tree.span.startByte ∧
      name ∈ tree.children ∧ name.span = labelSpan ∧
      inner.span.endByte ≤ name.span.startByte ∧ name.span.startByte < name.span.endByte ∧
      ((tokensIn parsed inner.span.endByte name.span.startByte).filter
        fun token => token.kind != .comment).map Token.mark = [Mark.dot] := by
  obtain ⟨inner, dot, name, is⟩ := Node.access_in_row placed made
  have sits := placed.sits_below is.split
  have among := is.row.mem
  obtain ⟨before, rest, split_front, -, row⟩ := is.row.split
  obtain ⟨extras, tail, split_rest, all, row⟩ := row.split
  obtain ⟨more, last, split_tail, also, row⟩ := row.split
  cases row
  have whole : tree.children = before ++ inner :: ((extras ++ dot :: more) ++ [name]) := by
    rw [split_front, split_rest, split_tail]
    simp
  have filled : name.span.startByte < name.span.endByte := by
    have sits := sits name (among name (by simp))
    obtain ⟨tokens, -⟩ := Node.name_tokens sits (Node.made_name is.kind)
    exact @mem_tokens_filled name parsed.source (name.token parsed.source) (by rw [tokens]; simp)
  have after : inner.span.endByte ≤ name.span.startByte := by
    have apart := is.lies.bounds.2
    rw [whole] at apart
    simp only [List.pairwise_append, List.pairwise_cons] at apart
    exact apart.2.1.1 name (by simp)
  refine ⟨inner, name, is.split, among inner (by simp), is.made, is.front, among name (by simp),
    is.place, after, filled, ?_⟩
  have dot_sits := sits dot (among dot (by simp))
  have mark := is.sign.marks dot_sits (by decide) (by decide) (by decide)
  have kept : (dot.tokens parsed.source).filter (fun token => token.kind != .comment) =
      dot.tokens parsed.source := by
    rw [(is.sign.tokens dot_sits (by decide) (by decide)).1]
    refine List.filter_eq_self.mpr fun token mem => ?_
    rw [List.mem_singleton.mp mem, is.sign.token_kind dot_sits]
    rfl
  rw [whole] at sits
  rw [placed.tokensIn_between is.split whole, tokensOf_append, tokensOf_cons, List.filter_append,
    List.filter_append, extras_unheard (fun tree mem => sits tree (by simp [mem])) all,
    extras_unheard (fun tree mem => sits tree (by simp [mem])) also, kept, List.append_nil,
    List.nil_append, mark]
  rfl

/-- A call does not end with a comment. -/
theorem call_solid {span : Span} {function : Node} {arguments : List Node}
    (placed : Placed parsed tree) (made : Node.ofTree parsed tree = .call span function arguments) :
    EndsSolid [tree] := by
  obtain ⟨callee, given, split, row, -, -, -, part, -⟩ := Node.call_row placed made
  obtain ⟨front, whole⟩ := row.ends [callee]
  exact Python.Tree.endsSolid_of_last parsed.source split whole part.ends part.heard

/-- A value with a keyword does not end with a comment: it ends with a name or a bracket. -/
theorem head_solid {tokens : List Token} {bare : Bool} {found : Head × List Clause}
    (placed : Placed parsed tree) (is : headOf tokens bare (Node.ofTree parsed tree) = some found) :
    EndsSolid [tree] := by
  cases made : Node.ofTree parsed tree with
  | name span id =>
    have kind := Node.kind_of_name made
    exact endsSolid_of_closed (placed.sits.atom_closed (by rw [kind]; decide)) (by
      rw [Python.Tree.isExtra, Python.Tree.isComment, kind]; rfl)
  | access span object label labelSpan =>
    obtain ⟨inner, dot, name, is⟩ := Node.access_in_row placed made
    obtain ⟨front, whole⟩ := is.row.ends [inner, dot]
    have sits := placed.sits_below is.split name (by rw [whole]; simp)
    have closed := sits.atom_closed (by rw [is.kind]; decide)
    exact Python.Tree.endsSolid_of_last parsed.source is.split whole
      (endsSolid_of_closed closed is.part.solid) is.part.heard
  | subscript span value items =>
    obtain ⟨before, inner, extras, first, trees, parts⟩ := subscript_parts placed made
    obtain ⟨front, last, whole, last_placed, closes⟩ := parts.closing placed
    have heard : last.isHeard = true := by
      rw [Python.Tree.isHeard_eq parsed.source,
        (closes.tokens last_placed.sits (by decide) (by decide)).1, List.any_cons,
        closes.token_kind last_placed.sits]
      rfl
    have solid : EndsSolid [last] := endsSolid_of_closed closes.closed (by
      rw [Python.Tree.isExtra, Python.Tree.isComment, closes.kind]; rfl)
    exact Python.Tree.endsSolid_of_last parsed.source parts.split whole solid heard
  | call span function arguments => exact call_solid placed made
  | module | lambda | list | comment | other =>
    rw [made] at is
    cases is

/-- Where a keyword stands that was found for a value. With nothing behind it, it ends where the
value does. -/
structure WordIn (parsed : Parsed) (tree : Tree) (bare : Bool) (head : Head) : Prop where
  word : Holds parsed.source head.start head.keyword (head.start + byteLength head.keyword)
  divides : Divides parsed head.start
  inside : head.start + byteLength head.keyword ≤ tree.span.endByte
  inherits : bare = false → head.bare = false
  whole : head.bare = true → head.start + byteLength head.keyword = tree.span.endByte
  more : bare = true → head.bare = false → ∃ token ∈
    tokensIn parsed (head.start + byteLength head.keyword) tree.span.endByte, token.kind ≠ .comment

/-- What comes before a keyword that was found for a value: nothing, or a chain and a dot. Comments
around the dot are not counted. -/
inductive Preceded (parsed : Parsed) (tree : Tree) (head : Head) : List Clause → Prop where
  | opening (starts : head.keyword ∈ starters) (first : head.previousEnd = none)
      (here : head.start = tree.span.startByte) : Preceded parsed tree head []
  | after {object : Tree} {earlier : List Clause} (continues : head.keyword ∈ continuations)
      (smaller : sizeOf object < sizeOf tree) (placed : Placed parsed object)
      (front : object.span.startByte = tree.span.startByte)
      (chain : ofNode? (Token.tokenize parsed) (Node.ofTree parsed object) = some earlier)
      (previous : head.previousEnd = some object.span.endByte)
      (ordered : object.span.endByte ≤ head.start)
      (dot : ((tokensIn parsed object.span.endByte head.start).filter
        fun token => token.kind != .comment).map Token.mark = [Mark.dot]) :
      Preceded parsed tree head earlier

section Search

variable {parsed : Parsed} {tree inner : Tree} {head : Head} {earlier : List Clause} {bare : Bool}

/-- What is found for the first part of a value is found for the value. A part with a token comes
after it, so the keyword is not bare. -/
theorem WordIn.outward {token : Token} (word : WordIn parsed inner false head)
    (upto : inner.span.endByte ≤ tree.span.endByte)
    (mem : token ∈ tokensIn parsed inner.span.endByte tree.span.endByte)
    (solid : token.kind ≠ .comment) : WordIn parsed tree bare head where
  word := word.word
  divides := word.divides
  inside := Nat.le_trans word.inside upto
  inherits := fun _ => word.inherits rfl
  whole := fun is => by rw [word.inherits rfl] at is; cases is
  more := fun _ _ => by
    obtain ⟨among, lower, upper⟩ := mem_tokensIn.mp mem
    exact ⟨token, mem_tokensIn.mpr ⟨among, Nat.le_trans word.inside lower, upper⟩, solid⟩

theorem Preceded.outward (preceded : Preceded parsed inner head earlier)
    (front : inner.span.startByte = tree.span.startByte) (smaller : sizeOf inner < sizeOf tree) :
    Preceded parsed tree head earlier := by
  cases preceded with
  | opening starts first here => exact .opening starts first (here.trans front)
  | after continues less placed starts chain previous ordered dot =>
    exact .after continues (Nat.lt_trans less smaller) placed (starts.trans front) chain previous
      ordered dot

/-- The part that a construct starts with. Something other than a comment comes after it. -/
structure IsFront (parsed : Parsed) (tree inner : Tree) : Prop where
  split : tree.isClosed = false
  mem : inner ∈ tree.children
  starts : inner.span.startByte = tree.span.startByte
  behind : ∃ token ∈ tokensIn parsed inner.span.endByte tree.span.endByte, token.kind ≠ .comment

/-- A part that is heard has a token in the text of its construct. -/
theorem token_behind {part : Tree} (placed : Placed parsed tree) (split : tree.isClosed = false)
    (mem : part ∈ tree.children) (heard : part.isHeard = true)
    (after : inner.span.endByte ≤ part.span.startByte) :
    ∃ token ∈ tokensIn parsed inner.span.endByte tree.span.endByte, token.kind ≠ .comment := by
  rw [Python.Tree.isHeard_eq parsed.source, ← (placed.child split mem).tokensIn_eq,
    List.any_eq_true] at heard
  obtain ⟨token, own, solid⟩ := heard
  obtain ⟨among, lower, upper⟩ := mem_tokensIn.mp own
  have inside := ((placed.sits.lies split).bounds.1 part mem).2
  exact ⟨token, mem_tokensIn.mpr ⟨among, by omega, by omega⟩, by simpa using solid⟩

theorem call_front {span : Span} {function : Node} {arguments : List Node}
    (placed : Placed parsed tree) (made : Node.ofTree parsed tree = .call span function arguments) :
    ∃ inner, IsFront parsed tree inner ∧ Node.ofTree parsed inner = function := by
  obtain ⟨callee, given, split, row, called, front, -, part, -⟩ := Node.call_row placed made
  obtain ⟨before, rest, whole, -, later⟩ := row.split
  have after : callee.span.endByte ≤ given.span.startByte := by
    have apart := (placed.sits.lies split).bounds.2
    rw [whole] at apart
    simp only [List.pairwise_append, List.pairwise_cons] at apart
    exact apart.2.1.1 given (later.mem given (List.mem_singleton_self _))
  exact ⟨callee, ⟨split, row.mem callee (by simp), front,
    token_behind placed split (row.mem given (by simp)) part.heard after⟩, called⟩

theorem access_front {span labelSpan : Span} {object : Node} {label : Text}
    (placed : Placed parsed tree)
    (made : Node.ofTree parsed tree = .access span object label labelSpan) :
    ∃ inner, IsFront parsed tree inner ∧ Node.ofTree parsed inner = object := by
  obtain ⟨inner, name, split, mem, is, starts, among, -, after, filled, dot⟩ :=
    access_parts placed made
  have inside := ((placed.sits.lies split).bounds.1 name among).2
  refine ⟨inner, ⟨split, mem, starts, ?_⟩, is⟩
  obtain ⟨token, tokens, -⟩ := List.map_eq_singleton_iff.mp dot
  have own : token ∈ [token] := List.mem_singleton_self _
  rw [← tokens, List.mem_filter] at own
  obtain ⟨listed, lower, upper⟩ := mem_tokensIn.mp own.1
  exact ⟨token, mem_tokensIn.mpr ⟨listed, lower, by omega⟩, by simpa using own.2⟩

theorem subscript_front {span : Span} {value : Node} {items : List Node}
    (placed : Placed parsed tree) (made : Node.ofTree parsed tree = .subscript span value items) :
    ∃ inner, IsFront parsed tree inner ∧ Node.ofTree parsed inner = value := by
  obtain ⟨before, inner, extras, first, trees, parts⟩ := subscript_parts placed made
  have first_placed := parts.placed placed first (by simp)
  have heard : first.isHeard = true := by
    rw [Python.Tree.isHeard_eq parsed.source,
      (parts.opened.tokens first_placed.sits (by decide) (by decide)).1, List.any_cons,
      parts.opened.token_kind first_placed.sits]
    rfl
  exact ⟨inner, ⟨parts.split, by rw [parts.whole]; simp, parts.starts,
    token_behind placed parts.split (by rw [parts.whole]; simp) heard (parts.order placed).2.1⟩,
    parts.made⟩

/-- The label of an access is its last part. -/
theorem access_label {span labelSpan : Span} {object : Node} {label : Text}
    (placed : Placed parsed tree)
    (made : Node.ofTree parsed tree = .access span object label labelSpan) :
    Holds parsed.source labelSpan.startByte label tree.span.endByte := by
  obtain ⟨inner, dot, name, is⟩ := Node.access_in_row placed made
  obtain ⟨front, whole⟩ := is.row.ends [inner, dot]
  have ends : name.span.endByte = tree.span.endByte := by
    have lies := is.lies
    rw [whole] at lies
    exact Node.ends_with lies
  rw [← is.place, ← is.text, ← ends]
  exact (placed.sits_below is.split name (by rw [whole]; simp)).holds

/-- A keyword at the end of a value is bare if nothing follows the value. -/
theorem WordIn.at_end {start row : Nat} {keyword : Text} {previous : Option Nat}
    (held : Holds parsed.source start keyword tree.span.endByte) (divides : Divides parsed start) :
    WordIn parsed tree bare ⟨keyword, start, row, bare, previous⟩ := by
  have width := held.length
  refine ⟨width ▸ held, divides, Nat.le_of_eq width.symm, fun is => is, fun _ => width.symm, ?_⟩
  exact fun is none => absurd (is.symm.trans none) (by decide)

/-- A name that starts a chain is the keyword of its first clause. -/
theorem keyword_of_name {span : Span} {id : Text} (placed : Placed parsed tree)
    (before : tree.span.endByte < byteLength parsed.source)
    (made : Node.ofTree parsed tree = .name span id) (starts : id ∈ starters) :
    WordIn parsed tree bare ⟨id, span.startByte, span.start.row, bare, none⟩ ∧
      Preceded parsed tree ⟨id, span.startByte, span.start.row, bare, none⟩ [] := by
  have name := made
  rw [Node.made_name (Node.kind_of_name made), Node.name.injEq] at name
  obtain ⟨place, text⟩ := name
  have ordered := placed.sits.holds.ordered
  refine ⟨.at_end ?_ ?_, .opening starts rfl (by rw [place])⟩
  · rw [← place, ← text]
    exact placed.sits.holds
  · rw [← place]
    exact placed.divides_start (by omega)

/-- A label that continues a chain is the keyword of a further clause. -/
theorem keyword_of_label {span labelSpan : Span} {object : Node} {label : Text}
    {clauses : List Clause} (placed : Placed parsed tree)
    (before : tree.span.endByte < byteLength parsed.source)
    (made : Node.ofTree parsed tree = .access span object label labelSpan)
    (continues : label ∈ continuations)
    (chain : ofNode? (Token.tokenize parsed) object = some clauses) :
    WordIn parsed tree bare
        ⟨label, labelSpan.startByte, labelSpan.start.row, bare, some object.span.endByte⟩ ∧
      Preceded parsed tree
        ⟨label, labelSpan.startByte, labelSpan.start.row, bare, some object.span.endByte⟩
        clauses := by
  obtain ⟨inner, name, split, mem, inner_made, starts, among, place, after, filled, dot⟩ :=
    access_parts placed made
  have name_ends := ((placed.sits.lies split).bounds.1 name among).2
  have ends : object.span.endByte = inner.span.endByte := by
    rw [← inner_made, Node.span_of_tree]
  have label_held := access_label placed made
  rw [← inner_made] at chain
  rw [← place] at label_held ⊢
  exact ⟨.at_end label_held ((placed.child split among).divides_start (by omega)),
    .after continues (Python.Tree.sizeOf_part mem) (placed.child split mem) starts chain
      (congrArg some ends) after dot⟩

/-- The keyword that is found for a value, and what comes before it. -/
theorem keyword_found (bare : Bool) (tree : Tree) (placed : Placed parsed tree)
    (before : tree.span.endByte < byteLength parsed.source) (head : Head) (earlier : List Clause)
    (found : headOf (Token.tokenize parsed) bare (Node.ofTree parsed tree) = some (head, earlier)) :
    WordIn parsed tree bare head ∧ Preceded parsed tree head earlier := by
  -- Along a value that is no keyword the search goes on in its first part.
  have inside : ∀ inner, IsFront parsed tree inner →
      headOf (Token.tokenize parsed) false (Node.ofTree parsed inner) = some (head, earlier) →
      WordIn parsed tree bare head ∧ Preceded parsed tree head earlier := by
    intro inner front found
    have upto := ((placed.sits.lies front.split).bounds.1 inner front.mem).2
    have smaller := Python.Tree.sizeOf_part front.mem
    obtain ⟨word, preceded⟩ := keyword_found false inner (placed.child front.split front.mem)
      (by omega) head earlier found
    obtain ⟨token, mem, solid⟩ := front.behind
    exact ⟨word.outward upto mem solid, preceded.outward front.starts smaller⟩
  cases made : Node.ofTree parsed tree with
  | name span id =>
    rw [made, headOf] at found
    split at found
    · next starts =>
      cases found
      exact keyword_of_name placed before made (by simpa using starts)
    · cases found
  | access span object label labelSpan =>
    rw [made, headOf] at found
    split at found
    · next continues =>
      cases chain : ofNode? (Token.tokenize parsed) object with
      | none => simp [chain] at found
      | some clauses =>
        simp only [chain, bind, Option.bind, pure, Option.some.injEq, Prod.mk.injEq] at found
        obtain ⟨rfl, rfl⟩ := found
        exact keyword_of_label placed before made (by simpa using continues) chain
    · obtain ⟨inner, front, is⟩ := access_front placed made
      rw [← is] at found
      exact inside inner front found
  | subscript span value items =>
    obtain ⟨inner, front, is⟩ := subscript_front placed made
    rw [made, headOf, ← is] at found
    exact inside inner front found
  | call span function arguments =>
    obtain ⟨inner, front, is⟩ := call_front placed made
    rw [made, headOf, ← is] at found
    exact inside inner front found
  | module | lambda | list | comment | other =>
    rw [made] at found
    cases found
termination_by sizeOf tree

end Search

theorem Preceded.onward (preceded : Preceded parsed tree head earlier) :
    tree.span.startByte ≤ head.start := by
  cases preceded with
  | opening _ _ here => exact Nat.le_of_eq here.symm
  | after _ _ placed front _ _ ordered =>
    have own := placed.sits.holds.ordered
    omega

/-- The clauses of a chain cover its text. -/
theorem chain_linked (grammatical : parsed.Grammatical) (tree : Tree) (placed : Placed parsed tree)
    (last : Divides parsed tree.span.endByte) (clauses : List Clause)
    (found : ofNode? (Token.tokenize parsed) (Node.ofTree parsed tree) = some clauses) :
    Linked parsed tree.span.startByte clauses tree.span.endByte := by
  cases made : Node.ofTree parsed tree with
  | subscript span value items =>
    obtain ⟨front, inner, extras, first, trees, parts⟩ := subscript_parts placed made
    obtain ⟨-, after, -, -, filled, upto⟩ := parts.order placed
    have mem : inner ∈ tree.children := by rw [parts.whole]; simp
    have smaller := Python.Tree.sizeOf_part mem
    have bounded := placed.sits.holds.bounded
    rw [made] at found
    obtain ⟨head, earlier, clause, reached, own, rfl⟩ := chain_found found
    rw [← parts.made] at reached
    have inner_placed := parts.placed placed inner (by simp)
    obtain ⟨word, preceded⟩ :=
      keyword_found true inner inner_placed (by omega) head earlier reached
    have inside := word.inside
    have at_ := clause_at grammatical parts placed last word.divides preceded.onward (by omega)
      (head_solid inner_placed reached) own
    rw [← parts.starts]
    cases preceded with
    | opening _ _ here =>
      rw [here] at at_
      exact .last at_
    | @after object _ _ less object_placed starts chain previous ordered dot =>
      have linked := chain_linked grammatical object object_placed
        (object_placed.divides_end (.inl (by omega))) earlier chain
      rw [starts] at linked
      have quiet := clause_quiet grammatical own previous
      rw [List.filter_eq_self.mpr fun token mem => by simp [quiet token mem]] at dot
      exact linked.snoc ordered dot at_
  | module | call | access | name | lambda | list | comment | other =>
    rw [made] at found
    cases found
termination_by sizeOf tree

/-- The keyword that is found for a value lies in the value and is reached from its start. -/
theorem head_reached {bare : Bool} (grammatical : parsed.Grammatical) (tree : Tree)
    (placed : Placed parsed tree) (before : tree.span.endByte < byteLength parsed.source)
    (head : Head) (earlier : List Clause)
    (found : headOf (Token.tokenize parsed) bare (Node.ofTree parsed tree) = some (head, earlier)) :
    Reached parsed tree.span.startByte head earlier ∧ head.start ≤ tree.span.endByte ∧
      Divides parsed head.start := by
  obtain ⟨word, preceded⟩ := keyword_found bare tree placed before head earlier found
  have inside := word.inside
  refine ⟨?_, by omega, word.divides⟩
  cases preceded with
  | opening _ first here => exact .opening first here
  | @after object _ _ _ object_placed starts chain previous ordered dot =>
    have linked := chain_linked grammatical object object_placed
      (object_placed.divides_end (.inl (by omega))) earlier chain
    rw [starts] at linked
    exact .after previous linked ordered dot

end Chain

end LambdaLayout
