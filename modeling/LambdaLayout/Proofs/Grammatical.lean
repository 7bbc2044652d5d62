import LambdaLayout.Lower
import LambdaLayout.Proofs.Cuts
import LambdaLayout.Proofs.RegionPass
import LambdaLayout.Python.Lexeme

/-!
Trees that follow the grammar of their source. The parts of a node lie in source order, with nothing
but blanks between them, and the last one ends where the node ends; leaves have the text that their
kind asks for, and strings and comments count as leaves. What the grammar does not name is made of
leaves. For the constructs that extended lambdas
are made of the order of the parts is given as well, with comments and line continuations before any
of them. The brackets below a node without repairs match.
-/

namespace LambdaLayout.Python

open LambdaLayout.Text (byteLength Holds)

/-- The position reached after a text. -/
def placeAfter (text : Text) : Position := text.foldl Position.after Position.origin

/-- The span of a text that stands after another one. -/
def spanOver (before text : Text) : Span :=
  ⟨byteLength before, byteLength (before ++ text), placeAfter before, placeAfter (before ++ text)⟩

/-- Blanks, and backslashes that hide a line break. -/
inductive Spacing : Text → Prop where
  | nil : Spacing []
  | blank {c : Char} {rest : Text} (gap : isGap c = true) (spacing : Spacing rest) :
      Spacing (c :: rest)
  | continued {rest : Text} (spacing : Spacing rest) : Spacing ('\\' :: '\n' :: rest)
  | continuedReturn {rest : Text} (spacing : Spacing rest) :
      Spacing ('\\' :: '\r' :: '\n' :: rest)

theorem Spacing.append {left right : Text} (first : Spacing left) (second : Spacing right) :
    Spacing (left ++ right) := by
  induction first with
  | nil => exact second
  | blank gap _ ih => exact .blank gap ih
  | continued _ ih => exact .continued ih
  | continuedReturn _ ih => exact .continuedReturn ih

/-- Only blanks and hidden line breaks stand between the two offsets. -/
def Blank (source : Text) (start stop : Nat) : Prop :=
  ∃ gap, Holds source start gap stop ∧ Spacing gap

namespace Tree

/-- The characters of a tree. -/
def text (source : Text) (tree : Tree) : Text :=
  (Text.slice? source tree.span.startByte tree.span.endByte).getD []

/-- The token of a leaf. Its positions are left open. -/
def token (source : Text) (leaf : Tree) : Token :=
  ⟨TokenKind.ofLeaf leaf.kind (leaf.text source), leaf.text source,
    ⟨leaf.span.startByte, leaf.span.endByte, Position.origin, Position.origin⟩⟩

/-- Says that a leaf makes no token: it is empty or a line continuation. -/
def isSilent (leaf : Tree) : Bool :=
  leaf.span.endByte ≤ leaf.span.startByte || leaf.kind == "line_continuation"

/-- Says that the tree has a token other than a comment. -/
def isHeard (tree : Tree) : Bool := tree.leaves.any fun leaf => !leaf.isSilent && !leaf.isComment

/-- The tokens of a tree, comments included. -/
def tokens (source : Text) (tree : Tree) : List Token :=
  (tree.leaves.filter fun leaf => !leaf.isSilent).map (token source)

/-- The tokens of several trees. -/
def tokensOf (source : Text) (trees : List Tree) : List Token :=
  ((leavesOf trees).filter fun leaf => !leaf.isSilent).map (token source)

/-- Says that the tree counts as a leaf: it has no parts, or is a string or a comment. -/
def isClosed : Tree → Bool
  | node label children => children.isEmpty || label.kind == "string" || label.kind == "comment"

/-- A word or a piece of punctuation of the grammar. -/
structure IsSign (word : String) (tree : Tree) : Prop where
  kind : tree.kind = word
  named : tree.label.named = false
  role : tree.label.role = none
  sound : tree.label.standing = .sound
  leaf : tree.children = []

/-- A part that the grammar names: neither punctuation nor a comment or line continuation, and not
without tokens. -/
structure IsPart (tree : Tree) : Prop where
  named : tree.label.named = true
  solid : tree.isExtra = false
  heard : tree.isHeard = true

/-- What comes last among the tokens of the trees is no comment. -/
def EndsSolid (trees : List Tree) : Prop :=
  ∀ leaf ∈ ((leavesOf trees).filter fun leaf => !leaf.isSilent).getLast?, leaf.isComment = false

/-- A part of a bracketed list. A comment after it is beside it and not the last token in it. -/
structure IsElement (tree : Tree) : Prop extends IsPart tree where
  ends : EndsSolid [tree]

/-- The texts of a line continuation. A backslash alone is one at the end of a source. -/
def IsContinuation (text after : Text) : Prop :=
  text = ['\\', '\n'] ∨ text = ['\\', '\r', '\n'] ∨ text = ['\\', Char.ofNat 0] ∨
    (text = ['\\'] ∧ after = [])

/-- The constructs whose parts the grammar fixes. -/
def constructs : List String :=
  ["call", "argument_list", "lambda", "list", "subscript", "attribute"]

/-- The kinds that have no parts. -/
def atoms : List String := ["identifier", "comment", "line_continuation", "string"]

/-- What the kind of a leaf asks of its text and of what follows. -/
structure LeafFits (label : Label) (text after : Text) : Prop where
  simple : constructs.contains label.kind = true → label.kind = "lambda" ∧ label.named = false
  sign : label.named = false → label.standing = .sound → text = label.kind.toList
  plain : label.named = true → (TokenKind.ofLeaf label.kind text).opens = false ∧
    (TokenKind.ofLeaf label.kind text).closes = false
  fresh : text.head? ≠ some '\n'
  identifier : label.kind = "identifier" → text ≠ []
  extra : label.kind = "comment" ∨ label.kind = "line_continuation" →
    label.named = true ∧ label.role = none
  comment : label.kind = "comment" → text.head? = some '#' ∧ text.all (· != '\n') = true ∧
    (after = [] ∨ after.head? = some '\n')
  continuation : label.kind = "line_continuation" → IsContinuation text after

theorem LeafFits.comment_filled {label : Label} {text after : Text} (fits : LeafFits label text after)
    (kind : label.kind = "comment") : text ≠ [] := by
  rintro rfl
  cases (fits.comment kind).1

/-- The given trees, each after any number of comments and line continuations. -/
inductive Row : List Tree → List Tree → Prop where
  | nil : Row [] []
  | extra {tree next : Tree} {solid trees : List Tree} (skipped : tree.isExtra = true)
      (rest : Row (next :: solid) trees) : Row (next :: solid) (tree :: trees)
  | part {tree : Tree} {solid trees : List Tree} (kept : tree.isExtra = false)
      (rest : Row solid trees) : Row (tree :: solid) (tree :: trees)

/-- How far a bracketed list has been read. -/
inductive Stage where
  /-- A part may follow. -/
  | ready
  /-- A comma must come before the next part. -/
  | between
  /-- The bracket is closed. -/
  | closed
  deriving DecidableEq

/-- The trees of a bracketed list after its opening bracket: parts, commas between them and possibly
after the last one, and the closing bracket. -/
inductive Listing (closing : String) : Stage → List Tree → Stage → Prop where
  | nil {stage : Stage} : Listing closing stage [] stage
  | extra {stage last : Stage} {tree : Tree} {trees : List Tree}
      (skipped : tree.isExtra = true) (unclosed : stage ≠ .closed)
      (rest : Listing closing stage trees last) : Listing closing stage (tree :: trees) last
  | part {last : Stage} {tree : Tree} {trees : List Tree} (kept : IsElement tree)
      (rest : Listing closing .between trees last) : Listing closing .ready (tree :: trees) last
  | comma {last : Stage} {tree : Tree} {trees : List Tree} (sign : IsSign "," tree)
      (rest : Listing closing .ready trees last) : Listing closing .between (tree :: trees) last
  | close {stage last : Stage} {tree : Tree} {trees : List Tree} (sign : IsSign closing tree)
      (unclosed : stage ≠ .closed) (rest : Listing closing .closed trees last) :
      Listing closing stage (tree :: trees) last

/-- The parts of a construct in order. Calls, lists, subscripts and accesses start with their first
part. -/
inductive Construct (source : Text) (start : Nat) (kind : String) : List Tree → Prop where
  /-- A function and its arguments. -/
  | call {function given : Tree} {trees : List Tree} (is : kind = "call")
      (parts : Row [function, given] trees) (called : function.label.role = some "function")
      (role : given.label.role = some "arguments")
      (given_kind : given.kind = "argument_list" ∨ given.kind = "generator_expression")
      (front : function.span.startByte = start) (part : IsElement given) :
      Construct source start kind trees
  /-- Arguments in parentheses. -/
  | arguments {first : Tree} {trees : List Tree} (is : kind = "argument_list")
      (opened : IsSign "(" first) (listed : Listing ")" .ready trees .closed) :
      Construct source start kind (first :: trees)
  /-- Parentheses with a comma and no argument. -/
  | noArguments {first comma last : Tree} {trees : List Tree} (is : kind = "argument_list")
      (parts : Row [first, comma, last] trees) (opened : IsSign "(" first)
      (sign : IsSign "," comma) (closed : IsSign ")" last) : Construct source start kind trees
  /-- A lambda without parameters. -/
  | thunk {word colon result : Tree} {trees : List Tree} (is : kind = "lambda")
      (parts : Row [word, colon, result] trees) (opened : IsSign "lambda" word)
      (ends : IsSign ":" colon) (role : result.label.role = some "body") :
      Construct source start kind trees
  /-- A lambda with parameters. -/
  | lambda {word given colon result : Tree} {trees : List Tree} (is : kind = "lambda")
      (parts : Row [word, given, colon, result] trees) (opened : IsSign "lambda" word)
      (given_role : given.label.role = some "parameters")
      (header : Region.Header (tokens source given)) (ends : IsSign ":" colon)
      (role : result.label.role = some "body") : Construct source start kind trees
  /-- A list. -/
  | list {first : Tree} {trees : List Tree} (is : kind = "list") (opened : IsSign "[" first)
      (listed : Listing "]" .ready trees .closed) (front : first.span.startByte = start) :
      Construct source start kind (first :: trees)
  /-- A value and items in brackets. -/
  | subscript {value first : Tree} {front trees : List Tree} (is : kind = "subscript")
      (parts : Row [value, first] front) (role : value.label.role = some "value")
      (opened : IsSign "[" first) (listed : Listing "]" .ready trees .closed)
      (starts : value.span.startByte = start) : Construct source start kind (front ++ trees)
  /-- An object, a dot and a name. -/
  | access {object dot name : Tree} {trees : List Tree} (is : kind = "attribute")
      (parts : Row [object, dot, name] trees) (role : object.label.role = some "object")
      (sign : IsSign "." dot) (name_role : name.label.role = some "attribute")
      (name_kind : name.kind = "identifier") (part : IsPart name)
      (front : object.span.startByte = start) : Construct source start kind trees
  /-- Any other construct. -/
  | other {trees : List Tree} (unlisted : (constructs ++ atoms).contains kind = false) :
      Construct source start kind trees

namespace Construct

variable {source : Text} {start : Nat} {trees : List Tree}

/-- Each of the constructs is known by its kind. -/
theorem of_call (construct : Construct source start "call" trees) :
    ∃ function given, Row [function, given] trees ∧
      function.label.role = some "function" ∧ given.label.role = some "arguments" ∧
      (given.kind = "argument_list" ∨ given.kind = "generator_expression") ∧
      function.span.startByte = start ∧ IsElement given := by
  cases construct with
  | call is parts called role kind front part =>
    exact ⟨_, _, parts, called, role, kind, front, part⟩
  | other unlisted => exact absurd unlisted (by decide)
  | arguments is | noArguments is | thunk is | lambda is | list is | subscript is | access is =>
    exact absurd is (by decide)

theorem of_arguments (construct : Construct source start "argument_list" trees) :
    (∃ first rest, trees = first :: rest ∧ IsSign "(" first ∧ Listing ")" .ready rest .closed) ∨
      ∃ first comma last, Row [first, comma, last] trees ∧ IsSign "(" first ∧ IsSign "," comma ∧
        IsSign ")" last := by
  cases construct with
  | arguments is opened listed => exact .inl ⟨_, _, rfl, opened, listed⟩
  | noArguments is parts opened sign closed => exact .inr ⟨_, _, _, parts, opened, sign, closed⟩
  | other unlisted => exact absurd unlisted (by decide)
  | call is | thunk is | lambda is | list is | subscript is | access is =>
    exact absurd is (by decide)

/-- A lambda has its word, possibly parameters, a colon and a body. -/
theorem of_lambda (construct : Construct source start "lambda" trees) :
    ∃ word given colon result, Row (word :: (given ++ [colon, result])) trees ∧
      IsSign "lambda" word ∧ IsSign ":" colon ∧ result.label.role = some "body" ∧
      (given = [] ∨ ∃ parameters, given = [parameters] ∧
        parameters.label.role = some "parameters" ∧
        Region.Header (tokens source parameters)) := by
  cases construct with
  | thunk is parts opened ends role => exact ⟨_, [], _, _, parts, opened, ends, role, .inl rfl⟩
  | lambda is parts opened given header ends role =>
    exact ⟨_, [_], _, _, parts, opened, ends, role, .inr ⟨_, rfl, given, header⟩⟩
  | other unlisted => exact absurd unlisted (by decide)
  | call is | arguments is | noArguments is | list is | subscript is | access is =>
    exact absurd is (by decide)

theorem of_list (construct : Construct source start "list" trees) :
    ∃ first rest, trees = first :: rest ∧ IsSign "[" first ∧
      Listing "]" .ready rest .closed ∧ first.span.startByte = start := by
  cases construct with
  | list is opened listed front => exact ⟨_, _, rfl, opened, listed, front⟩
  | other unlisted => exact absurd unlisted (by decide)
  | call is | arguments is | noArguments is | thunk is | lambda is | subscript is | access is =>
    exact absurd is (by decide)

theorem of_subscript (construct : Construct source start "subscript" trees) :
    ∃ value first front rest, trees = front ++ rest ∧ Row [value, first] front ∧
      value.label.role = some "value" ∧ IsSign "[" first ∧
      Listing "]" .ready rest .closed ∧ value.span.startByte = start := by
  cases construct with
  | subscript is parts role opened listed starts =>
    exact ⟨_, _, _, _, rfl, parts, role, opened, listed, starts⟩
  | other unlisted => exact absurd unlisted (by decide)
  | call is | arguments is | noArguments is | thunk is | lambda is | list is | access is =>
    exact absurd is (by decide)

theorem of_access (construct : Construct source start "attribute" trees) :
    ∃ object dot name, Row [object, dot, name] trees ∧ object.label.role = some "object" ∧
      IsSign "." dot ∧ name.label.role = some "attribute" ∧ name.kind = "identifier" ∧
      IsPart name ∧ object.span.startByte = start := by
  cases construct with
  | access is parts role sign label kind part front =>
    exact ⟨_, _, _, parts, role, sign, label, kind, part, front⟩
  | other unlisted => exact absurd unlisted (by decide)
  | call is | arguments is | noArguments is | thunk is | lambda is | list is | subscript is =>
    exact absurd is (by decide)

/-- No construct is an atom. -/
theorem not_atom {kind : String} (construct : Construct source start kind trees)
    (atom : atoms.contains kind = true) : False := by
  cases construct with
  | other unlisted =>
    simp only [List.contains_eq_mem, List.mem_append, decide_eq_false_iff_not, not_or] at unlisted
    simp [List.contains_eq_mem, unlisted.2] at atom
  | call is | arguments is | noArguments is | thunk is | lambda is | list is | subscript is
  | access is => rw [is] at atom; exact absurd atom (by decide)

end Construct

mutual

/-- The tree follows the grammar where it stands in the source. -/
inductive Sits (source : Text) : Tree → Prop where
  | leaf {label : Label} {children : List Tree} {before content after : Text}
      (closed : isClosed (node label children) = true)
      (whole : source = before ++ content ++ after) (place : label.span = spanOver before content)
      (fits : LeafFits label content after) (bare : label.kind ≠ "string" → children = []) :
      Sits source (node label children)
  | node {label : Label} {children : List Tree} {before content after : Text}
      (split : isClosed (node label children) = false)
      (whole : source = before ++ content ++ after) (place : label.span = spanOver before content)
      (parts : Lies source label.span.startByte children label.span.endByte)
      (construct : Construct source label.span.startByte label.kind children)
      (brackets : anyError children = false → Region.Matched (tokensOf source children))
      (unnamed : label.named = false → constructs.contains label.kind = false ∧
        ∀ part ∈ children, isClosed part = true) :
      Sits source (node label children)

/-- The trees lie one after the other, from one offset to another. -/
inductive Lies (source : Text) : Nat → List Tree → Nat → Prop where
  | nil {offset : Nat} : Lies source offset [] offset
  | cons {start stop : Nat} {tree : Tree} {trees : List Tree}
      (gap : Blank source start tree.span.startByte) (sits : Sits source tree)
      (rest : Lies source tree.span.endByte trees stop) : Lies source start (tree :: trees) stop

end

end Tree

/-- The source has a tree that follows the grammar and covers all its tokens. A source without any
has an empty tree. -/
def Parsed.Grammatical (parsed : Parsed) : Prop :=
  ∃ label children stop, parsed.tree = .node label children ∧ label.kind = "module" ∧
    (children = [] → label.span.endByte ≤ label.span.startByte) ∧
    Tree.Lies parsed.source 0 children stop

/-- What is asked of a parser: it keeps the source it is given, and the tree of a source in which it
finds no errors follows the grammar. Nothing is asked of the trees of other sources. -/
structure Lawful (parse : Text → Parsed) : Prop where
  keeps : ∀ source, (parse source).source = source
  grammatical : ∀ source, (parse source).hasErrors = false → (parse source).Grammatical

end LambdaLayout.Python
