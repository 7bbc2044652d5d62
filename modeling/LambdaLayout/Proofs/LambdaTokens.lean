import LambdaLayout.Layout
import LambdaLayout.Proofs.TreeTokens

/-!
The tokens of the constructs that extended lambdas are made of. The parts of a construct are found by
their roles. Put together, the tokens of a call that has the shape of an extended lambda are those
the search for candidates follows.
-/

namespace LambdaLayout

open LambdaLayout.Python (Parsed Label Tree)

/-- A construct whose parts are fixed has them, in their places. Only the word of a lambda has the
kind of such a construct and no parts. -/
theorem Python.Tree.Sits.parts {source : Text} {tree : Tree} (sits : Python.Tree.Sits source tree)
    (listed : Python.Tree.constructs.contains tree.kind = true)
    (other : tree.kind ≠ "lambda" ∨ tree.children ≠ []) :
    tree.isClosed = false ∧
      Python.Tree.Lies source tree.span.startByte tree.children tree.span.endByte ∧
      Python.Tree.Construct source tree.span.startByte tree.kind tree.children := by
  cases sits with
  | @leaf label children _ _ _ closed whole place fits =>
    have word : label.kind = "lambda" := (fits.simple listed).1
    rcases other with other | parts
    · exact absurd word other
    · have empty : children = [] := by simpa [Tree.isClosed, word] using closed
      exact absurd empty parts
  | node split whole place parts construct brackets => exact ⟨split, parts, construct⟩

theorem Python.Tree.Placed.parts {parsed : Parsed} {tree : Tree}
    (placed : Python.Tree.Placed parsed tree)
    (listed : Python.Tree.constructs.contains tree.kind = true)
    (other : tree.kind ≠ "lambda" ∨ tree.children ≠ []) :
    tree.isClosed = false ∧
      Python.Tree.Lies parsed.source tree.span.startByte tree.children tree.span.endByte ∧
      Python.Tree.Construct parsed.source tree.span.startByte tree.kind tree.children :=
  placed.sits.parts listed other

theorem Python.Tree.Placed.sits_below {parsed : Parsed} {tree : Tree}
    (placed : Python.Tree.Placed parsed tree) (split : tree.isClosed = false) :
    ∀ part ∈ tree.children, Python.Tree.Sits parsed.source part :=
  fun _ mem => (placed.child split mem).sits

theorem Python.Tree.Placed.sound_below {parsed : Parsed} {tree : Tree}
    (placed : Python.Tree.Placed parsed tree) (split : tree.isClosed = false) :
    ∀ part ∈ tree.children, part.hasError = false :=
  fun _ mem => (placed.child split mem).sound

namespace Node

open LambdaLayout.Python.Tree
open LambdaLayout.Region (heeded heeded_append heeded_cons heeded_nil)
open LambdaLayout.Region.CallTokens (significant_of_name)

section

variable {parsed : Parsed} {tree : Tree} {trees solid : List Tree}

theorem ofRole_eq (role : String) (trees : List Tree) : ofRole parsed role trees =
    (trees.find? fun tree => tree.label.role == some role).map (ofTree parsed) := by
  induction trees with
  | nil => rw [ofRole]; rfl
  | cons tree rest ih =>
    rw [ofRole]
    split
    · next same => simp only [List.find?_cons, same, Option.map_some]
    · next other => simp only [List.find?_cons, other, ih]

theorem argumentsOf_eq (trees : List Tree) : argumentsOf parsed trees =
    match trees.find? fun tree => tree.label.role == some "arguments" with
    | none => []
    | some tree =>
      if tree.kind == "argument_list" then ofKept parsed tree.children
      else [ofTree parsed tree] := by
  induction trees with
  | nil => rw [argumentsOf]; rfl
  | cons tree rest ih =>
    obtain ⟨label, children⟩ := tree
    rw [argumentsOf]
    split
    · next same =>
      simp only [List.find?_cons, same]
      rfl
    · next other => simp only [List.find?_cons, other, ih]

/-- Parts are found by their roles among the solid trees of a row. -/
theorem find_in_row (row : Row solid trees) (sits : ∀ tree ∈ trees, Sits parsed.source tree)
    (role : String) : (trees.find? fun tree => tree.label.role == some role) =
      solid.find? fun tree => tree.label.role == some role := by
  induction row with
  | nil => rfl
  | @extra tree next solid trees skipped _ ih =>
    have blind := ((sits _ List.mem_cons_self).extra skipped).2.1
    rw [List.find?_cons_of_neg (by simp [blind]),
      ih fun tree mem => sits tree (List.mem_cons_of_mem _ mem)]
  | @part tree solid trees kept _ ih =>
    rw [List.find?_cons, List.find?_cons,
      ih fun tree mem => sits tree (List.mem_cons_of_mem _ mem)]

/-- A name is a leaf with its text. -/
theorem name_tokens {span : Span} {id : Text} (sits : Sits parsed.source tree)
    (made : ofTree parsed tree = .name span id) :
    tree.tokens parsed.source = [tree.token parsed.source] ∧
      (tree.token parsed.source).text = id ∧
      (tree.token parsed.source).kind = TokenKind.ofLeaf "identifier" id ∧
      tree.span = span := by
  obtain ⟨label, children⟩ := tree
  have from_tree := lowered parsed label children
  rw [made] at from_tree
  cases from_tree with
  | name kind =>
    cases sits with
    | leaf closed whole place fits bare =>
      have own : (Python.Tree.node label children).text parsed.source = _ :=
        text_of_leaf whole place
      have width := (Sits.leaf closed whole place fits bare).holds.length
      rw [own] at width
      have positive := Text.byteLength_pos (fits.identifier kind)
      have heard : isSilent (Python.Tree.node label children) = false := by
        have word : (Python.Tree.node label children).kind = "identifier" := kind
        simp only [isSilent, word, Bool.or_eq_false_iff, decide_eq_false_iff_not, Nat.not_le]
        exact ⟨by omega, by decide⟩
      rw [tokens_of_closed closed, heard]
      refine ⟨rfl, rfl, ?_, rfl⟩
      rw [token]
      exact congrArg (TokenKind.ofLeaf · _) kind
    | node split whole place parts construct brackets =>
      rw [kind] at construct
      exact (construct.not_atom (by decide)).elim

/-- The kind of a tree that was lowered to one of the constructs. -/
theorem kind_of_list {span : Span} {elements : List Node}
    (made : ofTree parsed tree = .list span elements) :
    tree.kind = "list" ∧ tree.span = span ∧ ofKept parsed tree.children = elements := by
  obtain ⟨label, children⟩ := tree
  have from_tree := lowered parsed label children
  rw [made] at from_tree
  cases from_tree with
  | list kind => exact ⟨kind, rfl, rfl⟩

theorem kind_of_lambda {span : Span} {parameters : Option Span} {body : Node}
    {comments : List Node} (made : ofTree parsed tree = .lambda span parameters body comments) :
    tree.kind = "lambda" ∧ tree.span = span ∧
      ofRole parsed "body" tree.children = some body ∧
      (tree.children.find? fun child => child.label.role == some "parameters").map Tree.span =
        parameters ∧
      commentsOf parsed (withoutRole "body" tree.children) = comments := by
  obtain ⟨label, children⟩ := tree
  have from_tree := lowered parsed label children
  rw [made] at from_tree
  cases from_tree with
  | lambda kind result => exact ⟨kind, rfl, result, rfl, rfl⟩

theorem kind_of_call {span : Span} {function : Node} {arguments : List Node}
    (made : ofTree parsed tree = .call span function arguments) :
    tree.kind = "call" ∧ tree.span = span ∧
      ofRole parsed "function" tree.children = some function ∧
      argumentsOf parsed tree.children = arguments := by
  obtain ⟨label, children⟩ := tree
  have from_tree := lowered parsed label children
  rw [made] at from_tree
  cases from_tree with
  | call kind called => exact ⟨kind, rfl, called, rfl⟩

theorem kind_of_access {span labelSpan : Span} {object : Node} {label : Text}
    (made : ofTree parsed tree = .access span object label labelSpan) :
    tree.kind = "attribute" ∧ tree.span = span ∧
      ofRole parsed "object" tree.children = some object ∧
      ∃ name, (tree.children.find? fun child => child.label.role == some "attribute") = some name ∧
        parsed.textOf name.span = label ∧ name.span = labelSpan := by
  obtain ⟨label, children⟩ := tree
  have from_tree := lowered parsed label children
  rw [made] at from_tree
  cases from_tree with
  | access kind of named => exact ⟨kind, rfl, of, _, named, rfl, rfl⟩

/-- An access in a tree: an object, a dot and a name, each known by its role. -/
structure AccessRow (parsed : Parsed) (tree : Tree) (object : Node) (label : Text)
    (labelSpan : Span) (inner dot name : Tree) : Prop where
  split : tree.isClosed = false
  lies : Lies parsed.source tree.span.startByte tree.children tree.span.endByte
  row : Row [inner, dot, name] tree.children
  made : ofTree parsed inner = object
  front : inner.span.startByte = tree.span.startByte
  sign : IsSign "." dot
  kind : name.kind = "identifier"
  part : IsPart name
  text : parsed.textOf name.span = label
  place : name.span = labelSpan

theorem access_in_row {span labelSpan : Span} {object : Node} {label : Text}
    (placed : Placed parsed tree)
    (made : ofTree parsed tree = .access span object label labelSpan) :
    ∃ inner dot name, AccessRow parsed tree object label labelSpan inner dot name := by
  obtain ⟨kind, -, found, leaf, named, text, place⟩ := kind_of_access made
  obtain ⟨split, lies, construct⟩ :=
    placed.parts (by rw [kind]; decide) (.inl (by rw [kind]; decide))
  rw [kind] at construct
  obtain ⟨inner, dot, name, row, role, sign, name_role, name_kind, part, front⟩ :=
    construct.of_access
  have sits := placed.sits_below split
  rw [ofRole_eq, find_in_row row sits] at found
  rw [find_in_row row sits] at named
  simp only [List.find?_cons, role, sign.role, name_role] at found named
  obtain rfl : name = leaf := Option.some.inj named
  exact ⟨inner, dot, name, split, lies, row, Option.some.inj found, front, sign, name_kind, part,
    text, place⟩

/-- A lambda in a tree: its word, possibly parameters, a colon and a body, the last two known by
their roles. -/
structure LambdaRow (parsed : Parsed) (tree : Tree) (parameters : Option Span) (body : Node)
    (word : Tree) (given : Option Tree) (colon result : Tree) : Prop where
  split : tree.isClosed = false
  lies : Lies parsed.source tree.span.startByte tree.children tree.span.endByte
  row : Row (word :: (given.toList ++ [colon, result])) tree.children
  lambda : IsSign "lambda" word
  ends : IsSign ":" colon
  made : ofTree parsed result = body
  role : result.label.role = some "body"
  named : given.map Tree.span = parameters
  given_role : ∀ part ∈ given, part.label.role = some "parameters"
  header : Region.Header (tokensOf parsed.source given.toList)

theorem lambda_in_row {span : Span} {parameters : Option Span} {body : Node} {comments : List Node}
    (placed : Placed parsed tree)
    (made : ofTree parsed tree = .lambda span parameters body comments) :
    ∃ word given colon result, LambdaRow parsed tree parameters body word given colon result := by
  obtain ⟨kind, -, found, named, -⟩ := kind_of_lambda made
  have filled : tree.children ≠ [] := by
    intro none
    rw [none, ofRole] at found
    cases found
  obtain ⟨split, lies, construct⟩ := placed.parts (by rw [kind]; decide) (.inr filled)
  rw [kind] at construct
  obtain ⟨word, given, colon, result, row, lambda, ends, role, shape⟩ := construct.of_lambda
  have sits := placed.sits_below split
  rw [ofRole_eq, find_in_row row sits] at found
  rw [find_in_row row sits] at named
  rcases shape with rfl | ⟨held, rfl, held_role, header⟩
  · simp only [List.nil_append, List.find?_cons, lambda.role, ends.role, role] at found named
    exact ⟨word, none, colon, result, split, lies, row, lambda, ends, Option.some.inj found, role,
      named, by rintro part ⟨⟩, .nil⟩
  · simp only [List.cons_append, List.nil_append, List.find?_cons, lambda.role, ends.role, role,
      held_role] at found named
    refine ⟨word, some held, colon, result, split, lies, row, lambda, ends, Option.some.inj found,
      role, named, by rintro part ⟨⟩; exact held_role, ?_⟩
    rw [Option.toList_some, tokensOf_cons, tokensOf_nil, List.append_nil]
    exact header

/-- A list is a bracket at its start, tokens whose brackets match, and a bracket. -/
theorem list_tokens {span : Span} {elements : List Node} (placed : Placed parsed tree)
    (made : ofTree parsed tree = .list span elements) :
    ∃ first inner last, tree.tokens parsed.source = first :: (inner ++ [last]) ∧
      first.kind = .openBracket ∧ Region.Matched inner ∧ last.kind = .closeBracket ∧
      first.span.startByte = span.startByte := by
  obtain ⟨kind, place, -⟩ := kind_of_list made
  obtain ⟨split, lies, construct⟩ :=
    placed.parts (by rw [kind]; decide) (.inl (by rw [kind]; decide))
  rw [kind] at construct
  obtain ⟨first, rest, whole, opened, listed, starts⟩ := construct.of_list
  have sits := placed.sits_below split
  have sound := placed.sound_below split
  rw [whole] at sits sound
  obtain ⟨front, last, ends, closes, tokens, matched⟩ :=
    listed.tokens (by decide) (by decide) Stage.noConfusion
      (fun part mem => sits part (List.mem_cons_of_mem _ mem))
      (fun part mem => sound part (List.mem_cons_of_mem _ mem))
  have here := sits first List.mem_cons_self
  refine ⟨first.token parsed.source, tokensOf parsed.source front, last.token parsed.source,
    ?_, ?_, matched, ?_, starts.trans (congrArg Span.startByte place)⟩
  · rw [tokens_of_split split, whole, tokensOf_cons,
      (opened.tokens here (by decide) (by decide)).1, tokens]
    rfl
  · rw [opened.token_kind here]
    rfl
  · rw [closes.token_kind (sits last (by rw [ends]; simp))]
    rfl

/-- The tokens of a lambda whose body is a list. -/
theorem lambda_tokens {span list : Span} {parameters : Option Span} {elements comments : List Node}
    (placed : Placed parsed tree)
    (made : ofTree parsed tree = .lambda span parameters (.list list elements) comments) :
    ∃ word given colon first inner last,
      heeded (tree.tokens parsed.source) =
        word :: (given ++ colon :: first :: (inner ++ [last])) ∧
      Region.IsKeyword Region.lambdaWord word ∧ Region.Header given ∧ colon.kind = .colon ∧
      first.kind = .openBracket ∧ Region.Matched inner ∧ last.kind = .closeBracket ∧
      first.span.startByte = list.startByte := by
  obtain ⟨word, given, colon, result, is⟩ := lambda_in_row placed made
  have sits := placed.sits_below is.split
  have among := is.row.mem
  have word_sits := sits word (among word (by simp))
  have colon_sits := sits colon (among colon (by simp))
  have result_placed := placed.child is.split (among result (by simp))
  obtain ⟨first, inner, last, tokens, opens, matched, closes, front⟩ :=
    list_tokens result_placed is.made
  have opens_heard : first.isInsignificant = false := by rw [Token.isInsignificant, opens]; rfl
  have closes_heard : last.isInsignificant = false := by rw [Token.isInsignificant, closes]; rfl
  have word_kind : (word.token parsed.source).kind = .name := by
    rw [is.lambda.token_kind word_sits]
    decide +kernel
  have colon_kind : (colon.token parsed.source).kind = .colon := by
    rw [is.ends.token_kind colon_sits]
    rfl
  have colon_heard : (colon.token parsed.source).isInsignificant = false := by
    rw [Token.isInsignificant, colon_kind]
    rfl
  refine ⟨word.token parsed.source, heeded (tokensOf parsed.source given.toList),
    colon.token parsed.source, first, heeded inner, last, ?_, ⟨word_kind, is.lambda.text word_sits⟩,
    is.header.heeded, colon_kind, opens, matched.heeded, closes, front⟩
  rw [tokens_of_split is.split, is.row.heeded sits, tokensOf_cons, tokensOf_append, tokensOf_cons,
    tokensOf_cons, (is.lambda.tokens word_sits (by decide) (by decide)).1,
    (is.ends.tokens colon_sits (by decide) (by decide)).1, tokens]
  simp only [heeded_append, tokensOf_nil, List.append_nil, heeded_nil, List.cons_append,
    List.nil_append, heeded_cons (significant_of_name word_kind), heeded_cons colon_heard,
    heeded_cons opens_heard, heeded_cons closes_heard]

/-- A part of a bracketed list is kept, a comment as a comment, and signs are not. -/
private theorem kept_part {node : Node} (made : ofTree parsed tree = node)
    (solid : node.isComment = false) (kept : isKept tree = true) :
    tree.label.named = true ∧ tree.isExtra = false := by
  have facts : tree.label.named = true ∧ tree.kind ≠ "line_continuation" := by
    simpa [isKept] using kept
  refine ⟨facts.1, ?_⟩
  by_cases comment : tree.kind = "comment"
  · obtain ⟨label, children⟩ := tree
    have word : label.kind = "comment" := comment
    rw [ofTree, word] at made
    rw [← made] at solid
    cases solid
  · simp [isExtra, Tree.isComment, comment, facts.2]

theorem part_kept (part : IsPart tree) : isKept tree = true := by
  have solid := part.solid
  simp only [isExtra, Bool.or_eq_false_iff] at solid
  simp [isKept, part.named, bne, solid.2]

theorem sign_dropped {word : String} (sign : IsSign word tree) : isKept tree = false := by
  simp [isKept, sign.named]

/-- In a list with one element, that element comes first and nothing but signs after it. -/
private theorem only_part {closing : String} {node : Node}
    (listing : Listing closing .ready trees .closed) (only : ofKept parsed trees = [node])
    (solid : node.isComment = false) (sits : ∀ tree ∈ trees, Sits parsed.source tree) :
    ∃ skipped part rest, trees = skipped ++ part :: rest ∧ ofTree parsed part = node ∧
      Listing closing .between rest .closed ∧
      heeded (tokensOf parsed.source trees) =
        heeded (part.tokens parsed.source) ++ heeded (tokensOf parsed.source rest) := by
  induction trees with
  | nil => cases listing
  | cons tree rest ih =>
    rw [ofKept] at only
    cases listing with
    | extra skipped _ listed =>
      cases kept : isKept tree with
      | true =>
        rw [kept, if_pos rfl] at only
        have part := kept_part (List.cons.inj only).1 solid kept
        rw [part.2] at skipped
        cases skipped
      | false =>
        rw [kept, if_neg (by decide)] at only
        obtain ⟨before, part, later, split, made, listed, tokens⟩ :=
          ih listed only fun tree mem => sits tree (List.mem_cons_of_mem _ mem)
        refine ⟨tree :: before, part, later, by rw [split]; rfl, made, listed, ?_⟩
        rw [tokensOf_cons, heeded_append,
          (sits tree List.mem_cons_self).extra_unheeded skipped, tokens]
        rfl
    | part kept listed =>
      rw [part_kept kept.toIsPart, if_pos rfl] at only
      refine ⟨[], tree, rest, rfl, (List.cons.inj only).1, listed, ?_⟩
      rw [tokensOf_cons, heeded_append]
    | close sign _ listed =>
      rw [sign_dropped sign, if_neg (by decide)] at only
      cases listed with
      | nil => rw [ofKept] at only; cases only
      | extra _ unfinished => exact absurd rfl unfinished
      | close _ unfinished => exact absurd rfl unfinished

theorem mem_row (row : Row solid trees) (mem : tree ∈ trees) :
    tree.isExtra = true ∨ tree ∈ solid := by
  induction row with
  | nil => cases mem
  | extra skipped _ ih =>
    rcases List.mem_cons.mp mem with rfl | later
    · exact .inl skipped
    · exact ih later
  | part kept _ ih =>
    rcases List.mem_cons.mp mem with rfl | later
    · exact .inr List.mem_cons_self
    · exact (ih later).imp id (List.mem_cons_of_mem _)

/-- Between signs only comments are kept. -/
theorem comment_of_signs {node : Node} (row : Row solid trees)
    (signs : ∀ tree ∈ solid, tree.label.named = false) (mem : node ∈ ofKept parsed trees) :
    node.isComment = true := by
  obtain ⟨part, among, kept, made⟩ := mem_ofKept mem
  cases comment : node.isComment with
  | true => rfl
  | false =>
    have is_part := kept_part made.symm comment kept
    rcases mem_row row among with extra | inside
    · rw [is_part.2] at extra
      cases extra
    · rw [signs part inside] at is_part
      cases is_part.1

theorem ends_with {start stop : Nat} {front : List Tree}
    (lies : Lies parsed.source start (front ++ [tree]) stop) : tree.span.endByte = stop := by
  obtain ⟨reached, -, -, rest⟩ := lies.split
  cases rest
  rfl

/-- An argument list whose only argument is the given node. -/
theorem arguments_tokens {node : Node} (placed : Placed parsed tree)
    (kind : tree.kind = "argument_list") (only : ofKept parsed tree.children = [node])
    (solid : node.isComment = false) :
    ∃ first part tail last, Placed parsed part ∧ ofTree parsed part = node ∧
      heeded (tree.tokens parsed.source) =
        first :: (heeded (part.tokens parsed.source) ++ (tail ++ [last])) ∧
      first.kind = .openParen ∧ Region.Matched tail ∧ last.kind = .closeParen ∧
      (∃ sign, tree.children.head? = some sign ∧ IsSign "(" sign ∧
        first.span.startByte = sign.span.startByte) ∧
      tree.span.endByte = last.span.startByte + 1 := by
  obtain ⟨split, lies, construct⟩ :=
    placed.parts (by rw [kind]; decide) (.inl (by rw [kind]; decide))
  rw [kind] at construct
  have sits := placed.sits_below split
  have sound := placed.sound_below split
  rcases construct.of_arguments with ⟨first, rest, whole, opened, listed⟩ |
    ⟨first, comma, last, row, opened, sign, closed⟩
  · rw [whole, ofKept, sign_dropped opened, if_neg (by decide)] at only
    rw [whole] at sits sound
    have here := sits first List.mem_cons_self
    obtain ⟨before, part, later, order, made, left, tokens⟩ := only_part listed only solid
      fun tree mem => sits tree (List.mem_cons_of_mem _ mem)
    have among : ∀ tree ∈ later, tree ∈ rest := fun tree mem => by rw [order]; simp [mem]
    obtain ⟨front, last, ends, closes, after, matched⟩ :=
      left.tokens (by decide) (by decide) Stage.noConfusion
        (fun tree mem => sits tree (List.mem_cons_of_mem _ (among tree mem)))
        (fun tree mem => sound tree (List.mem_cons_of_mem _ (among tree mem)))
    have last_sits := sits last (List.mem_cons_of_mem _ (among last (by rw [ends]; simp)))
    have opens : (first.token parsed.source).kind = .openParen := by
      rw [opened.token_kind here]
      rfl
    have shuts : (last.token parsed.source).kind = .closeParen := by
      rw [closes.token_kind last_sits]
      rfl
    have opens_heard : (first.token parsed.source).isInsignificant = false := by
      rw [Token.isInsignificant, opens]; rfl
    have shuts_heard : (last.token parsed.source).isInsignificant = false := by
      rw [Token.isInsignificant, shuts]; rfl
    refine ⟨first.token parsed.source, part, heeded (tokensOf parsed.source front),
      last.token parsed.source, placed.child split (by rw [whole, order]; simp), made, ?_, opens,
      matched.heeded, shuts, ⟨first, by rw [whole]; rfl, opened, rfl⟩, ?_⟩
    · rw [tokens_of_split split, whole, tokensOf_cons, heeded_append, tokens,
        (opened.tokens here (by decide) (by decide)).1, after, heeded_append,
        heeded_cons opens_heard, heeded_cons shuts_heard]
      rfl
    · have final : tree.children = first :: (before ++ part :: front) ++ [last] := by
        rw [whole, order, ends]
        simp
      rw [final] at lies
      rw [← ends_with lies, (closes.tokens last_sits (by decide) (by decide)).2]
      rfl
  · have mem : node ∈ ofKept parsed tree.children := by rw [only]; exact List.mem_cons_self
    have comment := comment_of_signs row (by simp [opened.named, sign.named, closed.named]) mem
    rw [solid] at comment
    cases comment

private theorem punctuation_no_name {text : Text} {kind : TokenKind}
    (found : TokenKind.ofPunctuation? text = some kind) :
    Text.isName text = false ∧ kind ≠ .name := by
  rw [TokenKind.ofPunctuation?.eq_def] at found
  split at found <;> cases found <;> exact ⟨by decide +kernel, TokenKind.noConfusion⟩

/-- A leaf that the tree calls a name is a token of that category only if its text is a name. -/
theorem ofLeaf_identifier (text : Text) :
    TokenKind.ofLeaf "identifier" text = .name ↔ Text.isName text = true := by
  rw [TokenKind.ofLeaf, if_neg (by decide), if_neg (by decide), if_neg (by decide)]
  split
  · next kind found => simp [punctuation_no_name found]
  · cases Text.isName text <;> simp

theorem ofLeaf_identifier_heard (text : Text) :
    (TokenKind.ofLeaf "identifier" text).isInsignificant = false := by
  have solid := Token.ofLeaf_is_solid "identifier" text
  have other : TokenKind.ofLeaf "identifier" text ≠ .comment := by
    rw [TokenKind.ofLeaf, if_neg (by decide), if_neg (by decide), if_neg (by decide)]
    split
    · next found =>
      rw [TokenKind.ofPunctuation?.eq_def] at found
      split at found <;> cases found <;> exact TokenKind.noConfusion
    · split <;> exact TokenKind.noConfusion
  simp [TokenKind.isInsignificant, solid.1, solid.2, other]

theorem made_name (kind : tree.kind = "identifier") :
    ofTree parsed tree = .name tree.span (parsed.textOf tree.span) := by
  obtain ⟨label, children⟩ := tree
  have word : label.kind = "identifier" := kind
  rw [ofTree, word]
  rfl

/-- What may be called to make an extended lambda: the keyword, or a name under it. -/
inductive IsCallee (keyword : Text) : Node → Prop where
  | bare {span : Span} : IsCallee keyword (.name span keyword)
  | labelled {span own labelSpan : Span} {label : Text} :
      IsCallee keyword (.access span (.name own keyword) label labelSpan)

/-- Says that the label of an access counts as a name. -/
def isCallable : Node → Bool
  | .access _ _ label _ => Text.isName label
  | _ => true

/-- The tokens of a callee: the keyword, and possibly a dot and a label. -/
theorem callee_tokens {keyword : Text} {function : Node} (placed : Placed parsed tree)
    (made : ofTree parsed tree = function) (callee : IsCallee keyword function)
    (name : Text.isName keyword = true) :
    ∃ (word : Token) (label : Option (Token × Token)),
      heeded (tree.tokens parsed.source) =
        word :: (match label with | none => [] | some (dot, name) => [dot, name]) ∧
      Region.IsKeyword keyword word ∧ word.span.startByte = function.span.startByte ∧
      (∀ pair ∈ label, pair.1.kind = .dot ∧ Region.IsPlain pair.2 ∧
        pair.2.isInsignificant = false) ∧
      ((∀ pair ∈ label, pair.2.kind = .name) ↔ function.isCallable = true) := by
  have named := (ofLeaf_identifier keyword).mpr name
  cases callee with
  | @bare span =>
    obtain ⟨tokens, text, kind, place⟩ := name_tokens placed.sits made
    rw [named] at kind
    refine ⟨tree.token parsed.source, none, ?_, ⟨kind, text⟩, by subst place; rfl,
      by simp, by simp [isCallable]⟩
    rw [tokens, heeded_cons (significant_of_name kind)]
    rfl
  | @labelled span own labelSpan label =>
    obtain ⟨-, place, -⟩ := kind_of_access made
    obtain ⟨value, dot, leaf, is⟩ := access_in_row placed made
    have sits := placed.sits_below is.split
    have among := is.row.mem
    have leaf_sits := sits leaf (among leaf (by simp))
    have dot_sits := sits dot (among dot (by simp))
    obtain ⟨first, first_text, first_kind, -⟩ :=
      name_tokens (sits value (among value (by simp))) is.made
    obtain ⟨second, second_text, second_kind, -⟩ := name_tokens leaf_sits (made_name is.kind)
    rw [named] at first_kind
    rw [is.text] at second_kind
    have heard : (leaf.token parsed.source).isInsignificant = false := by
      rw [Token.isInsignificant, second_kind]
      exact ofLeaf_identifier_heard label
    have dot_kind : (dot.token parsed.source).kind = .dot := by
      rw [is.sign.token_kind dot_sits]
      rfl
    have dot_heard : (dot.token parsed.source).isInsignificant = false := by
      rw [Token.isInsignificant, dot_kind]
      rfl
    have plain : Region.IsPlain (leaf.token parsed.source) :=
      leaf_sits.leaf_plain (leaf_sits.atom_closed (by rw [is.kind]; decide)) is.part.named
    refine ⟨value.token parsed.source, some (dot.token parsed.source, leaf.token parsed.source),
      ?_, ⟨first_kind, first_text⟩, ?_, ?_, ?_⟩
    · rw [tokens_of_split is.split, is.row.heeded sits, tokensOf_cons, tokensOf_cons, tokensOf_cons,
        tokensOf_nil, first, (is.sign.tokens dot_sits (by decide) (by decide)).1, second]
      simp only [List.append_nil, List.cons_append, List.nil_append, heeded_nil,
        heeded_cons (significant_of_name first_kind), heeded_cons dot_heard, heeded_cons heard]
    · exact is.front.trans (congrArg Span.startByte place)
    · rintro pair ⟨⟩
      exact ⟨dot_kind, plain, heard⟩
    · rw [isCallable, ← ofLeaf_identifier, ← second_kind]
      simp

/-- The shape of an extended lambda. -/
theorem parts_shape {node : Node} {parts : LambdaParts}
    (shape : LambdaParts.ofNode? node = some parts) :
    ∃ span own, node = .call span parts.function
      [.lambda own parts.parameters (.list parts.body parts.elements) []] := by
  rw [LambdaParts.ofNode?.eq_def] at shape
  split at shape
  · cases shape
    exact ⟨_, _, rfl⟩
  · cases shape

/-- A call is what is called and what it is given, a list of arguments or a generator. -/
theorem call_row {span : Span} {function : Node} {given : List Node} (placed : Placed parsed tree)
    (made : ofTree parsed tree = .call span function given) :
    ∃ callee arguments, tree.isClosed = false ∧ Row [callee, arguments] tree.children ∧
      ofTree parsed callee = function ∧ callee.span.startByte = tree.span.startByte ∧
      tree.child? "arguments" = some arguments ∧ IsElement arguments ∧
      (arguments.kind = "argument_list" ∧ ofKept parsed arguments.children = given ∨
        arguments.kind = "generator_expression" ∧ [ofTree parsed arguments] = given) := by
  obtain ⟨kind, -, called, listed⟩ := kind_of_call made
  obtain ⟨split, -, construct⟩ :=
    placed.parts (by rw [kind]; decide) (.inl (by rw [kind]; decide))
  rw [kind] at construct
  obtain ⟨callee, arguments, row, callee_role, role, arguments_kind, front, part⟩ :=
    construct.of_call
  have sits := placed.sits_below split
  have second : ([callee, arguments].find? fun tree => tree.label.role == some "arguments") =
      some arguments := by
    simp [callee_role, role]
  have found : tree.child? "arguments" = some arguments := (find_in_row row sits _).trans second
  rw [ofRole_eq, find_in_row row sits] at called
  rw [argumentsOf_eq, find_in_row row sits, second] at listed
  simp only [List.find?_cons, callee_role] at called listed
  refine ⟨callee, arguments, split, row, Option.some.inj called, front, found, part, ?_⟩
  rcases arguments_kind with is | is
  · exact .inl ⟨is, by rw [← listed, is]; rfl⟩
  · exact .inr ⟨is, by rw [← listed, is]; rfl⟩

/-- An extended lambda has its lambda in a list of arguments, since a generator is no lambda. -/
theorem lambda_row {parts : LambdaParts} (placed : Placed parsed tree)
    (shape : LambdaParts.ofNode? (ofTree parsed tree) = some parts) :
    ∃ callee arguments own, tree.isClosed = false ∧ Row [callee, arguments] tree.children ∧
      ofTree parsed callee = parts.function ∧ callee.span.startByte = tree.span.startByte ∧
      arguments.span.endByte = tree.span.endByte ∧ arguments.kind = "argument_list" ∧
      ofKept parsed arguments.children =
        [.lambda own parts.parameters (.list parts.body parts.elements) []] ∧
      tree.child? "arguments" = some arguments := by
  obtain ⟨span, own, is_call⟩ := parts_shape shape
  obtain ⟨callee, arguments, split, row, called, front, found, -, given⟩ := call_row placed is_call
  have ends : arguments.span.endByte = tree.span.endByte := by
    have lies := placed.sits.lies split
    obtain ⟨before, final⟩ : ∃ before, tree.children = before ++ [arguments] :=
      Row.ends [callee] row
    rw [final] at lies
    exact ends_with lies
  rcases given with ⟨listed, given⟩ | ⟨generator, given⟩
  · exact ⟨callee, arguments, own, split, row, called, front, ends, listed, given, found⟩
  · have lambda := (kind_of_lambda (List.cons.inj given).1).1
    rw [generator] at lambda
    exact absurd lambda (by decide)

/-- What the arguments of a call begin with. -/
def opening? (tree : Tree) : Option Tree :=
  (tree.child? "arguments").bind fun arguments => arguments.children.head?

/-- The tokens of an extended lambda are those that the search follows. -/
theorem call_tokens {keyword : Text} {node : Node} {parts : LambdaParts}
    (placed : Placed parsed tree) (made : ofTree parsed tree = node)
    (shape : LambdaParts.ofNode? node = some parts) (callee : IsCallee keyword parts.function)
    (name : Text.isName keyword = true) :
    ∃ call : Region.CallTokens keyword, heeded (tree.tokens parsed.source) = call.list ∧
      call.word.span.startByte = parts.function.span.startByte ∧
      (∃ sign, opening? tree = some sign ∧ IsSign "(" sign ∧
        call.openParen.span.startByte = sign.span.startByte) ∧
      call.openBracket.span.startByte = parts.body.startByte ∧
      node.span.endByte = call.closeParen.span.startByte + 1 ∧
      (call.Callable ↔ parts.function.isCallable = true) := by
  subst made
  obtain ⟨function, arguments, own, split, row, function_made, -, final, listed, given, found⟩ :=
    lambda_row placed shape
  have among := row.mem
  have given_placed := placed.child split (among arguments (by simp))
  obtain ⟨openParen, part, tail, closeParen, part_placed, part_made, given_tokens, opens, rest,
    closes, ⟨sign, first, is_sign, place⟩, ends⟩ := arguments_tokens given_placed listed given rfl
  obtain ⟨lambda, header, colon, openBracket, inner, closeBracket, lambda_tokens, is_lambda,
    is_header, is_colon, opens_list, matched, closes_list, list_front⟩ :=
      lambda_tokens part_placed part_made
  obtain ⟨word, label, callee_tokens, is_keyword, start, is_label, callable⟩ :=
    callee_tokens (placed.child split (among function (by simp))) function_made callee name
  refine ⟨⟨word, label, openParen, lambda, header, colon, openBracket, inner, closeBracket, tail,
    closeParen, is_keyword, is_label, opens, is_lambda, is_header, is_colon, opens_list, matched,
    closes_list, rest, closes⟩, ?_, start, ⟨sign, ?_, is_sign, place⟩, list_front, ?_, callable⟩
  · rw [tokens_of_split split, row.heeded (placed.sits_below split), tokensOf_cons, tokensOf_cons,
      tokensOf_nil, List.append_nil, heeded_append, callee_tokens, given_tokens, lambda_tokens]
    cases label <;> simp only [Region.CallTokens.list, Region.CallTokens.labelTokens,
      Region.CallTokens.argument, List.cons_append, List.append_assoc, List.nil_append]
  · rw [opening?, found, Option.bind_some, first]
  · rw [span_of_tree, ← final, ends]

end

end Node

end LambdaLayout
