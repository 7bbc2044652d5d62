import LambdaLayout.Proofs.ChainClauses
import LambdaLayout.Proofs.Outermost

/-!
The tokens of an extended lambda as a layout finds them. If all comments of a call lie in the body
of its lambda, the call is its callee, a parenthesis, the head of the lambda, the brackets with the
block between them, possibly a comma, and a parenthesis.
-/

namespace LambdaLayout

open LambdaLayout.Python (Parsed Tree)
open LambdaLayout.Python.Tree (IsSign Lies Listing Placed Row Sits Stage tokensOf tokensOf_cons
  tokensOf_append)
open LambdaLayout.Reformat (Mark)
open LambdaLayout.Layout (Block marksOf marksOf_append marksOf_cons)
open LambdaLayout.Text (byteLength)

/-- The comments of the outer span lie in the inner one. -/
def Quiet (parsed : Parsed) (outer inner : Span) : Prop :=
  ∀ token ∈ parsed.tree.tokens parsed.source, token.kind = .comment →
    outer.contains token.span = true → inner.contains token.span = true

/-- A tree without comments, at whose ends the tokens are divided. -/
structure Uncommented (parsed : Parsed) (tree : Tree) : Prop where
  placed : Placed parsed tree
  first : Divides parsed tree.span.startByte
  last : Divides parsed tree.span.endByte
  solid : ∀ token ∈ tree.tokens parsed.source, token.kind ≠ .comment

section Quiet

variable {parsed : Parsed} {tree part around : Tree} {inner outer : Span} {solid trees : List Tree}

theorem Layout.quiet_of {layout : Layout} (grammatical : parsed.Grammatical)
    (tokens : layout.tokens = Token.tokenize parsed)
    (none : layout.hasCommentOutside outer inner = false) : Quiet parsed outer inner := by
  have same : layout.hasCommentOutside outer inner =
      (parsed.tree.tokens parsed.source).any fun token =>
        token.kind == .comment && outer.contains token.span && !inner.contains token.span := by
    rw [hasCommentOutside, tokens]
    refine any_tokenize grammatical (fun token => rfl) fun token is => ?_
    have comment : token.kind = .comment := by
      simp only [Bool.and_eq_true, beq_iff_eq] at is
      exact is.1.1
    rw [Token.isBlank, comment]
    rfl
  intro token mem comment inside
  rw [same] at none
  simpa [comment, inside] using List.any_eq_false.mp none token mem

/-- What lies in the outer span and not in the inner one has no comments. -/
theorem Quiet.none_in (quiet : Quiet parsed outer inner) (placed : Placed parsed part)
    (within : outer.startByte ≤ part.span.startByte ∧ part.span.endByte ≤ outer.endByte)
    (apart : part.span.endByte ≤ inner.startByte ∨ inner.endByte ≤ part.span.startByte) :
    ∀ token ∈ part.tokens parsed.source, token.kind ≠ .comment := by
  intro token mem comment
  have bounds := placed.sits.token_bounds mem
  have filled := mem_tokens_filled mem
  rw [← placed.tokensIn_eq] at mem
  have inside := quiet token (mem_tokensIn.mp mem).1 comment (by
    simp only [Span.contains, Bool.and_eq_true, decide_eq_true_eq]
    omega)
  simp only [Span.contains, Bool.and_eq_true, decide_eq_true_eq] at inside
  omega

/-- A part beside the one that the inner span lies in is apart from it. -/
theorem apart_beside {source : Text} {start stop : Nat} (lies : Lies source start trees stop)
    (mem : part ∈ trees) (among : around ∈ trees) (other : part ≠ around)
    (holds : around.span.startByte ≤ inner.startByte ∧ inner.endByte ≤ around.span.endByte) :
    part.span.endByte ≤ inner.startByte ∨ inner.endByte ≤ part.span.startByte := by
  rcases Python.Tree.order_of_pairwise lies.bounds.2 mem among with same | before | after
  · exact absurd same other
  · exact .inl (Nat.le_trans before holds.1)
  · exact .inr (Nat.le_trans holds.2 after)

theorem Python.Tree.Row.solid_kept (row : Row solid trees) :
    ∀ tree ∈ solid, tree.isExtra = false := by
  induction row with
  | nil => exact List.forall_mem_nil _
  | extra _ _ ih => exact ih
  | part kept _ ih =>
    intro tree mem
    rcases List.mem_cons.mp mem with rfl | later
    · exact kept
    · exact ih tree later

/-- Of a row without comments only the solid trees have tokens. -/
theorem Python.Tree.Row.tokens_solid {source : Text} (row : Row solid trees)
    (silent : ∀ tree ∈ trees, tree.isExtra = true → tree.tokens source = []) :
    tokensOf source trees = tokensOf source solid := by
  induction row with
  | nil => rfl
  | extra skipped _ ih =>
    rw [tokensOf_cons, silent _ List.mem_cons_self skipped,
      ih fun tree mem => silent tree (List.mem_cons_of_mem _ mem)]
    rfl
  | part kept _ ih =>
    rw [tokensOf_cons, tokensOf_cons, ih fun tree mem => silent tree (List.mem_cons_of_mem _ mem)]

/-- Beside the part that the inner span lies in, the trees of a row without comments outside of that
span have tokens only if they are solid. -/
theorem Quiet.row (quiet : Quiet parsed outer inner) (placed : Placed parsed tree)
    (split : tree.isClosed = false) (row : Row solid tree.children) (among : around ∈ solid)
    (holds : around.span.startByte ≤ inner.startByte ∧ inner.endByte ≤ around.span.endByte)
    (within : outer.startByte ≤ tree.span.startByte ∧ tree.span.endByte ≤ outer.endByte) :
    tree.tokens parsed.source = tokensOf parsed.source solid := by
  have lies := placed.sits.lies split
  rw [Python.Tree.tokens_of_split split]
  refine row.tokens_solid fun extra mem skipped => ?_
  have other : extra ≠ around := by
    rintro rfl
    rw [row.solid_kept _ among] at skipped
    cases skipped
  have bounds := lies.bounds.1 extra mem
  have none := quiet.none_in (placed.child split mem) (by omega)
    (apart_beside lies mem (row.mem around among) other holds)
  refine List.eq_nil_iff_forall_not_mem.mpr fun token own => ?_
  exact none token own ((lies.sits extra mem).extra_comment skipped own)

end Quiet

/-- The parentheses of a call, and the word and the colon of a lambda. -/
def Mark.openParen : Mark := (.openParen, ['('])

@[inherit_doc Mark.openParen]
def Mark.closeParen : Mark := (.closeParen, [')'])

@[inherit_doc Mark.openParen]
def Mark.lambda : Mark := (.name, "lambda".toList)

@[inherit_doc Mark.openParen]
def Mark.colon : Mark := (.colon, [':'])

section Parts

variable {parsed : Parsed} {tree : Tree} {outer : Span} {trees : List Tree} {stage : Stage}

/-- A list is a bracket and a block. -/
theorem list_block {span : Span} {elements : List Node} (placed : Placed parsed tree)
    (made : Node.ofTree parsed tree = .list span elements) :
    ∃ trees, Block parsed trees elements ∧
      (tree.tokens parsed.source).map Token.mark = Mark.openBracket :: marksOf parsed trees ∧
      ∀ part ∈ trees, tree.span.startByte < part.span.startByte ∧
        part.span.endByte ≤ tree.span.endByte := by
  obtain ⟨kind, -, items⟩ := Node.kind_of_list made
  obtain ⟨split, lies, construct⟩ :=
    placed.parts (by rw [kind]; decide) (.inl (by rw [kind]; decide))
  rw [kind] at construct
  obtain ⟨first, trees, whole, opened, listed, front⟩ := construct.of_list
  have child := fun (part : Tree) (mem : part ∈ tree.children) => placed.child split mem
  rw [whole] at child
  rw [whole, Node.ofKept_sign opened] at items
  obtain ⟨inside, apart⟩ := lies.bounds
  rw [whole] at inside apart
  obtain ⟨after, apart⟩ := List.pairwise_cons.mp apart
  have first_sits := (child first List.mem_cons_self).sits
  refine ⟨trees, ⟨listed, fun part mem => child part (List.mem_cons_of_mem _ mem), apart, items⟩,
    ?_, fun part mem => ⟨?_, (inside part (List.mem_cons_of_mem _ mem)).2⟩⟩
  · rw [Python.Tree.tokens_of_split split, whole, tokensOf_cons, List.map_append,
      opened.marks first_sits (by decide) (by decide) (by decide)]
    rfl
  · have width := (opened.tokens first_sits (by decide) (by decide)).2
    have one : byteLength "[".toList = 1 := by decide
    have starts := after part mem
    omega

/-- What follows the only argument: possibly a comma, and the parenthesis. -/
private theorem closing_marks (listing : Listing ")" stage trees .closed)
    (unclosed : stage ≠ .closed) (none : Node.ofKept parsed trees = [])
    (sits : ∀ tree ∈ trees, Sits parsed.source tree) :
    ∃ comma, (comma = [] ∨ (comma = [Mark.comma] ∧ stage = .between)) ∧
      marksOf parsed trees = comma ++ [Mark.closeParen] := by
  induction trees generalizing stage with
  | nil => cases listing; exact absurd rfl unclosed
  | cons tree rest ih =>
    have here := sits tree List.mem_cons_self
    have later := fun tree mem => sits tree (List.mem_cons_of_mem _ mem)
    rw [marksOf_cons]
    cases listing with
    | extra skipped _ listed =>
      rcases Node.extra_cases here skipped with ⟨-, -, kept⟩ | ⟨silent, kept⟩
      · rw [kept] at none
        cases none
      · rw [kept] at none
        rw [silent]
        exact ih listed unclosed none later
    | part kept listed =>
      rw [Node.ofKept, Node.part_kept kept.toIsPart, if_pos rfl] at none
      cases none
    | comma sign listed =>
      rw [Node.ofKept_sign sign] at none
      rw [sign.marks here (by decide) (by decide) (by decide)]
      obtain ⟨comma, empty | ⟨-, is⟩, marks⟩ := ih listed Stage.noConfusion none later
      · rw [marks, empty]
        exact ⟨[Mark.comma], .inr ⟨rfl, rfl⟩, rfl⟩
      · cases is
    | close sign _ listed =>
      have mark := sign.marks here (by decide) (by decide) (by decide)
      cases listed with
      | extra _ unfinished => exact absurd rfl unfinished
      | close _ unfinished => exact absurd rfl unfinished
      | nil =>
        refine ⟨[], .inl rfl, ?_⟩
        rw [mark]
        rfl

/-- Arguments of which only one is kept, which is no comment. -/
private theorem single_marks {node : Node} (listing : Listing ")" .ready trees .closed)
    (only : Node.ofKept parsed trees = [node]) (solid : node.isComment = false)
    (sits : ∀ tree ∈ trees, Sits parsed.source tree) :
    ∃ part ∈ trees, Node.ofTree parsed part = node ∧ ∃ comma, (comma = [] ∨ comma = [Mark.comma]) ∧
      marksOf parsed trees = (part.tokens parsed.source).map Token.mark ++
        (comma ++ [Mark.closeParen]) := by
  induction trees with
  | nil => cases listing
  | cons tree rest ih =>
    have here := sits tree List.mem_cons_self
    have later := fun tree mem => sits tree (List.mem_cons_of_mem _ mem)
    rw [marksOf_cons]
    cases listing with
    | extra skipped _ listed =>
      rcases Node.extra_cases here skipped with ⟨-, -, kept⟩ | ⟨silent, kept⟩
      · rw [kept] at only
        rw [← (List.cons.inj only).1] at solid
        cases solid
      · rw [kept] at only
        obtain ⟨part, mem, facts⟩ := ih listed only later
        rw [silent]
        exact ⟨part, List.mem_cons_of_mem _ mem, facts⟩
    | part kept listed =>
      rw [Node.ofKept, Node.part_kept kept.toIsPart, if_pos rfl] at only
      obtain ⟨made, none⟩ := List.cons.inj only
      obtain ⟨comma, which, marks⟩ := closing_marks listed Stage.noConfusion none later
      exact ⟨tree, List.mem_cons_self, made, comma, which.imp_right And.left, by rw [marks]⟩
    | close sign _ listed =>
      cases listed with
      | extra _ unfinished => exact absurd rfl unfinished
      | close _ unfinished => exact absurd rfl unfinished
      | nil =>
        rw [Node.ofKept_sign sign, Node.ofKept] at only
        cases only

/-- A lambda whose body is a list is its head and the block of the list. -/
theorem lambda_marks {span body : Span} {parameters : Option Span} {elements comments : List Node}
    (placed : Placed parsed tree)
    (made : Node.ofTree parsed tree = .lambda span parameters (.list body elements) comments)
    (within : outer.startByte ≤ tree.span.startByte ∧ tree.span.endByte ≤ outer.endByte)
    (before : tree.span.endByte < byteLength parsed.source) (quiet : Quiet parsed outer body) :
    ∃ (given : Option Tree) (trees : List Tree), given.map Tree.span = parameters ∧
      (∀ part ∈ given, Uncommented parsed part) ∧ Block parsed trees elements ∧
      (∀ part ∈ trees, body.startByte < part.span.startByte ∧ part.span.endByte ≤ body.endByte) ∧
      tree.span.startByte ≤ body.startByte ∧ body.endByte ≤ tree.span.endByte ∧
      (tree.tokens parsed.source).map Token.mark = Mark.lambda :: (marksOf parsed given.toList ++
        Mark.colon :: Mark.openBracket :: marksOf parsed trees) := by
  obtain ⟨word, given, colon, result, is⟩ := Node.lambda_in_row placed made
  have sits := placed.sits_below is.split
  have among := is.row.mem
  have result_mem := among result (by simp)
  have result_span : result.span = body := by rw [← Node.span_of_tree parsed, is.made]; rfl
  have bounds := is.lies.bounds.1
  have inside := bounds result result_mem
  obtain ⟨trees, block, body_marks, within_body⟩ :=
    list_block (placed.child is.split result_mem) is.made
  rw [result_span] at inside within_body
  refine ⟨given, trees, is.named, ?_, block, within_body, inside.1, inside.2, ?_⟩
  · intro part listed
    have mem : part ∈ tree.children := among part (by simp [Option.mem_def.mp listed])
    have own := placed.child is.split mem
    have place := bounds part mem
    have ordered := own.sits.holds.ordered
    have other : part ≠ result := by
      rintro rfl
      have role := is.role
      rw [is.given_role _ listed] at role
      exact absurd role (by decide)
    refine ⟨own, own.divides_start (by omega), own.divides_end (.inl (by omega)), ?_⟩
    refine quiet.none_in own (by omega) (apart_beside is.lies mem result_mem other ?_)
    rw [result_span]
    exact ⟨Nat.le_refl _, Nat.le_refl _⟩
  · have last : result ∈ word :: (given.toList ++ [colon, result]) := by simp
    have tokens := quiet.row placed is.split is.row last
      (by rw [result_span]; exact ⟨Nat.le_refl _, Nat.le_refl _⟩) within
    have word_mark := is.lambda.marks (sits word (among word (by simp))) (by decide) (by decide)
      (by decide +kernel)
    have colon_mark := is.ends.marks (sits colon (among colon (by simp))) (by decide) (by decide)
      (by decide)
    have name : TokenKind.ofLeaf "lambda" "lambda".toList = .name := by decide +kernel
    rw [tokens, ← marksOf, marksOf_cons, marksOf_append, marksOf_cons, marksOf_cons, word_mark,
      colon_mark, body_marks, name]
    exact congrArg (Mark.lambda :: ·) (congrArg (_ ++ ·) (congrArg (Mark.colon :: ·)
      (List.append_nil _)))

/-- An argument of a call that stands alone between the parentheses. -/
structure SoleArgument (parsed : Parsed) (arguments : Tree) (node : Node) (argument last : Tree) :
    Prop where
  split : arguments.isClosed = false
  made : Node.ofTree parsed argument = node
  inside : argument ∈ arguments.children
  closed : IsSign ")" last
  among : last ∈ arguments.children
  final : last.span.endByte = arguments.span.endByte
  before : argument.span.endByte ≤ last.span.startByte
  marks : ∃ comma, (comma = [] ∨ comma = [Mark.comma]) ∧
    (arguments.tokens parsed.source).map Token.mark = Mark.openParen ::
      ((argument.tokens parsed.source).map Token.mark ++ (comma ++ [Mark.closeParen]))

theorem sole_argument {arguments : Tree} {span : Span} {parameters : Option Span} {body : Node}
    {comments : List Node} (placed : Placed parsed arguments)
    (listed : arguments.kind = "argument_list")
    (only : Node.ofKept parsed arguments.children = [.lambda span parameters body comments]) :
    ∃ argument last,
      SoleArgument parsed arguments (.lambda span parameters body comments) argument last := by
  obtain ⟨split, lies, construct⟩ :=
    placed.parts (by rw [listed]; decide) (.inl (by rw [listed]; decide))
  rw [listed] at construct
  have sits := placed.sits_below split
  have sound := placed.sound_below split
  rcases construct.of_arguments with ⟨first, trees, whole, opened, listing⟩ |
    ⟨first, comma, last, row, opened, sign, closed⟩
  · rw [whole, Node.ofKept_sign opened] at only
    rw [whole] at sits sound
    have later := fun part mem => sits part (List.mem_cons_of_mem _ mem)
    obtain ⟨argument, mem, made, comma, which, marks⟩ := single_marks listing only rfl later
    obtain ⟨front, last, ends, closes, -⟩ := listing.tokens (by decide) (by decide)
      Stage.noConfusion later fun part mem => sound part (List.mem_cons_of_mem _ mem)
    have final : arguments.children = first :: front ++ [last] := by rw [whole, ends]; rfl
    have apart := lies.bounds.2
    rw [final] at lies apart
    refine ⟨argument, last, split, made, by rw [whole]; exact List.mem_cons_of_mem _ mem, closes,
      by rw [final]; simp, Node.ends_with lies, ?_, comma, which, ?_⟩
    · rw [ends] at mem
      rcases List.mem_append.mp mem with earlier | here
      · exact (List.pairwise_append.mp apart).2.2 argument (List.mem_cons_of_mem _ earlier) last
          (by simp)
      · obtain rfl := List.mem_singleton.mp here
        have word := (Node.kind_of_lambda made).1
        rw [closes.kind] at word
        exact absurd word (by decide)
    · rw [Python.Tree.tokens_of_split split, whole, ← marksOf, marksOf_cons, marks,
        opened.marks (sits first List.mem_cons_self) (by decide) (by decide) (by decide)]
      rfl
  · have comment := Node.comment_of_signs row (by simp [opened.named, sign.named, closed.named])
      (by rw [only]; exact List.mem_singleton_self _)
    cases comment

/-- The parts of an extended lambda in the tree. -/
structure LambdaTree (parsed : Parsed) (tree : Tree) (parts : LambdaParts)
    (function arguments lambda last : Tree) : Prop where
  split : tree.isClosed = false
  row : Row [function, arguments] tree.children
  called : Node.ofTree parsed function = parts.function
  starts : function.span.startByte = tree.span.startByte
  order : function.span.endByte ≤ arguments.span.startByte
  ends : arguments.span.endByte = tree.span.endByte
  sole : ∃ span, SoleArgument parsed arguments
    (.lambda span parts.parameters (.list parts.body parts.elements) []) lambda last

theorem lambda_tree {parts : LambdaParts} (placed : Placed parsed tree)
    (shape : LambdaParts.ofNode? (Node.ofTree parsed tree) = some parts) :
    ∃ function arguments lambda last,
      LambdaTree parsed tree parts function arguments lambda last := by
  obtain ⟨function, arguments, own, split, row, called, front, ends, listed, given, -⟩ :=
    Node.lambda_row placed shape
  have order : function.span.endByte ≤ arguments.span.startByte := by
    have lies := placed.sits.lies split
    obtain ⟨before, rest, whole, -, rest_row⟩ := row.split
    obtain ⟨extras, tail, rest_whole, -, -⟩ := rest_row.split
    rw [whole, rest_whole] at lies
    have apart := lies.bounds.2
    simp only [List.pairwise_append, List.pairwise_cons] at apart
    exact apart.2.1.1 arguments (by simp)
  obtain ⟨lambda, last, sole⟩ :=
    sole_argument (placed.child split (row.mem arguments (by simp))) listed given
  exact ⟨function, arguments, lambda, last, split, row, called, front, order, ends, own, sole⟩

/-- The tokens of an extended lambda whose comments all lie in its body. -/
structure LambdaMarks (parsed : Parsed) (tree : Tree) (parts : LambdaParts) (function : Tree)
    (given : Option Tree) (trees : List Tree) (comma : List Mark) : Prop where
  callee : function.span = parts.function.span
  parameters : given.map Tree.span = parts.parameters
  uncommented : ∀ part ∈ function :: given.toList, Uncommented parsed part
  block : Block parsed trees parts.elements
  within : ∀ part ∈ trees, parts.body.startByte < part.span.startByte ∧
    part.span.endByte ≤ parts.body.endByte
  body : tree.span.startByte ≤ parts.body.startByte ∧ parts.body.endByte ≤ tree.span.endByte
  trailing : comma = [] ∨ comma = [Mark.comma]
  marks : (tree.tokens parsed.source).map Token.mark =
    (function.tokens parsed.source).map Token.mark ++ Mark.openParen :: Mark.lambda ::
      (marksOf parsed given.toList ++ Mark.colon :: Mark.openBracket ::
        (marksOf parsed trees ++ (comma ++ [Mark.closeParen])))

theorem call_marks {parts : LambdaParts} (placed : Placed parsed tree)
    (shape : LambdaParts.ofNode? (Node.ofTree parsed tree) = some parts)
    (quiet : Quiet parsed tree.span parts.body) :
    ∃ function given trees comma, LambdaMarks parsed tree parts function given trees comma := by
  obtain ⟨function, arguments, lambda, last, call⟩ := lambda_tree placed shape
  have lies := placed.sits.lies call.split
  have function_mem := call.row.mem function (by simp)
  have arguments_mem := call.row.mem arguments (by simp)
  have function_placed := placed.child call.split function_mem
  have arguments_placed := placed.child call.split arguments_mem
  obtain ⟨span, sole⟩ := call.sole
  have lambda_placed := arguments_placed.child sole.split sole.inside
  have last_placed := arguments_placed.child sole.split sole.among
  have width := (sole.closed.tokens last_placed.sits (by decide) (by decide)).2
  have one : byteLength ")".toList = 1 := by decide
  have bounded := placed.sits.holds.bounded
  have arguments_bounds := lies.bounds.1 arguments arguments_mem
  have lambda_bounds := (arguments_placed.sits.lies sole.split).bounds.1 lambda sole.inside
  have final := sole.final
  have before := sole.before
  obtain ⟨given, trees, parameters, uncommented, block, within, first, upto, lambda_marks⟩ :=
    lambda_marks lambda_placed sole.made (by omega) (by omega) quiet
  obtain ⟨comma, trailing, marks⟩ := sole.marks
  have holds : arguments.span.startByte ≤ parts.body.startByte ∧
      parts.body.endByte ≤ arguments.span.endByte := by omega
  have callee : function.span = parts.function.span := by
    rw [← call.called, Node.span_of_tree]
  refine ⟨function, given, trees, comma, callee, parameters, ?_, block, within, by omega, trailing,
    ?_⟩
  · intro part mem
    rcases List.mem_cons.mp mem with rfl | mem
    · have order := call.order
      have ordered := function_placed.sits.holds.ordered
      have lambda_ordered := lambda_placed.sits.holds.ordered
      have bounds := lies.bounds.1 part function_mem
      exact ⟨function_placed, function_placed.divides_start (by omega),
        function_placed.divides_end (.inl (by omega)),
        quiet.none_in function_placed bounds (.inl (by omega))⟩
    · exact uncommented part (Option.mem_toList.mp mem)
  · have solid : arguments ∈ [function, arguments] := by simp
    rw [quiet.row placed call.split call.row solid holds ⟨Nat.le_refl _, Nat.le_refl _⟩, ← marksOf,
      marksOf_cons, marksOf_cons, marks, lambda_marks]
    simp [marksOf, Python.Tree.tokensOf_nil]

end Parts

end LambdaLayout
