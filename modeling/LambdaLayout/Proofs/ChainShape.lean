import LambdaLayout.Proofs.ChainClauses
import LambdaLayout.Proofs.Unplaced

/-!
Chains without comments. What makes a node a chain is then seen from the node alone: the tokens are
asked only for the bracket of each clause, which is always there, and for comments, of which there
are none. So neither the places of a node nor the tokens around it have a say in what its clauses
are.
-/

namespace LambdaLayout

open LambdaLayout.Python (Parsed Tree)
open LambdaLayout.Python.Tree (Placed)
open LambdaLayout.Node (bare bareAll)
open LambdaLayout.Layout (Block)
open LambdaLayout.Reformat (Mark)
open LambdaLayout.Text (byteLength)

/-- No comment lies between two offsets. -/
def Clear (parsed : Parsed) (start stop : Nat) : Prop :=
  ∀ token ∈ tokensIn parsed start stop, token.kind ≠ .comment

/-- A tree without comments that ends before the source does. -/
structure Calm (parsed : Parsed) (tree : Tree) : Prop where
  placed : Placed parsed tree
  clear : Clear parsed tree.span.startByte tree.span.endByte
  before : tree.span.endByte < byteLength parsed.source

section Clear

variable {parsed : Parsed} {tree part : Tree} {trees : List Tree} {items : List Node}
  {lower upper start stop : Nat}

theorem Clear.within (clear : Clear parsed lower upper) (from_ : lower ≤ start)
    (upto : stop ≤ upper) : Clear parsed start stop := by
  intro token mem
  obtain ⟨among, starts, stops⟩ := mem_tokensIn.mp mem
  exact clear token (mem_tokensIn.mpr
    ⟨among, Nat.le_trans from_ starts, Nat.le_trans stops upto⟩)

theorem hasCommentIn_clear (grammatical : parsed.Grammatical) :
    Chain.hasCommentIn (Token.tokenize parsed) ⟨start, stop⟩ = false ↔ Clear parsed start stop := by
  rw [Chain.hasCommentIn_eq grammatical, List.any_eq_false]
  constructor
  · intro none token mem comment
    obtain ⟨among, starts, stops⟩ := mem_tokensIn.mp mem
    exact none token among (by simp [comment, Extent.contains, Span.extent, starts, stops])
  · intro clear token among is
    rw [Bool.and_eq_true, beq_iff_eq, Extent.contains, Bool.and_eq_true] at is
    obtain ⟨comment, starts, stops⟩ := is
    exact clear token
      (mem_tokensIn.mpr ⟨among, of_decide_eq_true starts, of_decide_eq_true stops⟩) comment

/-- A tree without comments is none itself. -/
theorem Clear.no_comment (clear : Clear parsed lower upper) (placed : Placed parsed tree)
    (from_ : lower ≤ tree.span.startByte) (upto : tree.span.endByte ≤ upper) :
    tree.kind ≠ "comment" := by
  intro kind
  obtain ⟨tokens, mark, -⟩ := placed.sits.comment_tokens kind
  refine clear.within from_ upto (tree.token parsed.source) ?_ (congrArg Prod.fst mark)
  rw [placed.tokensIn_eq, tokens]
  exact List.mem_singleton_self _

theorem Calm.child (calm : Calm parsed tree) (split : tree.isClosed = false)
    (mem : part ∈ tree.children) : Calm parsed part := by
  obtain ⟨starts, stops⟩ := (calm.placed.sits.lies split).bounds.1 part mem
  exact ⟨calm.placed.child split mem, calm.clear.within starts stops,
    Nat.lt_of_le_of_lt stops calm.before⟩

theorem Calm.divides_end (calm : Calm parsed tree) : Divides parsed tree.span.endByte :=
  calm.placed.divides_end (.inl calm.before)

/-- The items of a block without comments are trees without comments. -/
theorem Clear.calm_items (clear : Clear parsed lower upper) (block : Block parsed trees items)
    (bounds : ∀ tree ∈ trees, lower ≤ tree.span.startByte ∧ tree.span.endByte ≤ upper) :
    ∀ item ∈ items, item.isComment = false ∧
      ∃ tree, Calm parsed tree ∧ Node.ofTree parsed tree = item := by
  intro item mem
  obtain ⟨tree, among, rfl, kind⟩ := block.of_item mem
  obtain ⟨from_, upto⟩ := bounds tree among
  have placed := block.placed tree among
  have part := (kind.resolve_left (clear.no_comment placed from_ upto)).toIsPart
  exact ⟨Node.part_is_solid part, tree,
    ⟨placed, clear.within from_ upto, block.bounded among part⟩, rfl⟩

end Clear

namespace Chain

mutual

/-- The keyword at the end of a subscript's value, whether nothing follows it there, and the bodies
of the clauses before it, in a source without comments. -/
def keyedBy (bare : Bool) : Node → Option ((Text × Bool) × List (List Node))
  | .name _ id => if starters.contains id then some ((id, bare), []) else none
  | .access _ object label _ =>
    if continuations.contains label then (bodiesOf object).map fun earlier => ((label, bare), earlier)
    else keyedBy false object
  | .subscript _ value _ => keyedBy false value
  | .call _ function _ => keyedBy false function
  | _ => none

/-- The bodies of the clauses of a chain in a source without comments. -/
def bodiesOf : Node → Option (List (List Node))
  | .subscript _ value items =>
    (keyedBy true value).bind fun found =>
      if headAllowed found.1.1 found.1.2 then some (found.2 ++ [items]) else none
  | _ => none

end

mutual

/-- The bodies of a chain do not depend on places. -/
theorem keyedBy_bare (alone : Bool) : ∀ node : Node, keyedBy alone (bare node) =
    (keyedBy alone node).map fun found => (found.1, found.2.map bareAll)
  | .name _ id => by
    simp only [bare, keyedBy]
    split <;> rfl
  | .access _ object label _ => by
    simp only [bare, keyedBy]
    split
    · rw [bodiesOf_bare object, Option.map_map, Option.map_map]
      rfl
    · exact keyedBy_bare false object
  | .subscript _ value _ => by
    simp only [bare, keyedBy]
    exact keyedBy_bare false value
  | .call _ function _ => by
    simp only [bare, keyedBy]
    exact keyedBy_bare false function
  | .module _ _ | .lambda _ _ _ _ | .list _ _ | .comment _ _ | .other _ _ _ => by
    simp only [bare, keyedBy, Option.map_none]

@[inherit_doc keyedBy_bare]
theorem bodiesOf_bare : ∀ node : Node, bodiesOf (bare node) = (bodiesOf node).map (List.map bareAll)
  | .subscript _ value items => by
    simp only [bare, bodiesOf, keyedBy_bare true value]
    cases keyedBy true value with
    | none => rfl
    | some found =>
      simp only [Option.map_some, Option.bind_some]
      split
      · simp
      · rfl
  | .name _ _ | .access _ _ _ _ | .call _ _ _ | .module _ _ | .lambda _ _ _ _ | .list _ _
  | .comment _ _ | .other _ _ _ => by
    simp only [bare, bodiesOf, Option.map_none]

end

variable {parsed : Parsed} {tree inner first : Tree} {before extras trees : List Tree}
  {value : Node} {items : List Node} {head : Head} {earlier : List Clause}

/-- Without comments, whether a head makes a clause is up to its keyword. -/
theorem clause_clear (grammatical : parsed.Grammatical) (calm : Calm parsed tree)
    (parts : SubscriptParts parsed tree value items before inner extras first trees)
    (reached : Reached parsed inner.span.startByte head earlier)
    (upto : head.start ≤ inner.span.endByte) :
    ∃ row, clause? (Token.tokenize parsed) head value items =
      if headAllowed head.keyword head.bare then
        some ⟨⟨head.start, value.span.endByte⟩, head.row, items, row⟩ else none := by
  have inside : ∀ part ∈ before ++ inner :: (extras ++ first :: trees), Calm parsed part :=
    fun part mem => calm.child parts.split (by rw [parts.whole]; exact mem)
  have solid : ∀ part ∈ before ++ inner :: (extras ++ first :: trees), part.kind ≠ "comment" :=
    fun part mem => (inside part mem).clear.no_comment (inside part mem).placed (Nat.le_refl _)
      (Nat.le_refl _)
  have place : value.span.endByte = inner.span.endByte := by
    rw [← parts.made, Node.span_of_tree]
  obtain ⟨bracket, opens⟩ := openBracket_found grammatical calm.divides_end
    (parts.tokens_after calm.placed fun part mem => solid part (by simp [mem]))
  have loose : hasStuckComment (Token.tokenize parsed) head items bracket.span.startByte = false := by
    rw [hasStuckComment, Bool.or_eq_false_iff]
    constructor
    · refine List.any_eq_false.mpr fun item mem is => ?_
      have kept : item ∈ Node.ofKept parsed (before ++ (extras ++ trees)) := by
        rw [Node.ofKept_append, Node.ofKept_append, ← parts.items]
        exact mem
      obtain ⟨part, among, -, rfl⟩ := Node.mem_ofKept kept
      exact solid part (by simp at among ⊢; tauto)
        (Node.comment_of_tree (Bool.and_eq_true_iff.mp is).1)
    · cases reached with
      | opening first => rw [first, Option.any_none]
      | after previous linked ordered =>
        rw [previous, Option.any_some, hasCommentIn_clear grammatical]
        have onward := linked.ordered
        have starts := parts.starts
        have stops := (calm.placed.sits.lies parts.split).bounds.1 inner (by rw [parts.whole]; simp)
        exact calm.clear.within (by omega) (by omega)
  refine ⟨bracket.span.start.row, ?_⟩
  rw [clause?, place, opens]
  simp only [bind, Option.bind, loose]
  cases headAllowed head.keyword head.bare <;> rfl

mutual

/-- The keyword of a value without comments does not depend on the tokens. -/
theorem head_clear {alone : Bool} (grammatical : parsed.Grammatical) (tree : Tree)
    (calm : Calm parsed tree) :
    (headOf (Token.tokenize parsed) alone (Node.ofTree parsed tree)).map (fun found =>
      ((found.1.keyword, found.1.bare), found.2.map Clause.body)) =
        keyedBy alone (Node.ofTree parsed tree) := by
  cases made : Node.ofTree parsed tree with
  | name span id =>
    rw [headOf, keyedBy]
    split <;> rfl
  | access span object label labelSpan =>
    obtain ⟨inner, name, split, mem, inner_made, -⟩ := access_parts calm.placed made
    have smaller := Python.Tree.sizeOf_part mem
    rw [headOf, keyedBy, ← inner_made]
    split
    · rw [← chain_clear grammatical inner (calm.child split mem)]
      cases ofNode? (Token.tokenize parsed) (Node.ofTree parsed inner) <;> rfl
    · exact head_clear grammatical inner (calm.child split mem)
  | subscript span value items =>
    obtain ⟨front, inner, extras, first, trees, parts⟩ := subscript_parts calm.placed made
    have mem : inner ∈ tree.children := by rw [parts.whole]; simp
    have smaller := Python.Tree.sizeOf_part mem
    rw [headOf, keyedBy, ← parts.made]
    exact head_clear grammatical inner (calm.child parts.split mem)
  | call span function arguments =>
    obtain ⟨inner, given, split, row, inner_made, -⟩ := Node.call_row calm.placed made
    have mem := row.mem inner (by simp)
    have smaller := Python.Tree.sizeOf_part mem
    rw [headOf, keyedBy, ← inner_made]
    exact head_clear grammatical inner (calm.child split mem)
  | module | lambda | list | comment | other => rfl
termination_by sizeOf tree

/-- The bodies of a chain without comments do not depend on the tokens. -/
theorem chain_clear (grammatical : parsed.Grammatical) (tree : Tree) (calm : Calm parsed tree) :
    (ofNode? (Token.tokenize parsed) (Node.ofTree parsed tree)).map (List.map Clause.body) =
      bodiesOf (Node.ofTree parsed tree) := by
  cases made : Node.ofTree parsed tree with
  | subscript span value items =>
    obtain ⟨front, inner, extras, first, trees, parts⟩ := subscript_parts calm.placed made
    have mem : inner ∈ tree.children := by rw [parts.whole]; simp
    have smaller := Python.Tree.sizeOf_part mem
    have inner_calm := calm.child parts.split mem
    rw [ofNode?, bodiesOf, ← parts.made, ← head_clear grammatical inner inner_calm]
    cases reached : headOf (Token.tokenize parsed) true (Node.ofTree parsed inner) with
    | none => rfl
    | some pair =>
      obtain ⟨reaches, upto, -⟩ := head_reached grammatical inner inner_calm.placed
        inner_calm.before pair.1 pair.2 reached
      obtain ⟨row, own⟩ := clause_clear grammatical calm parts reaches upto
      rw [← parts.made] at own
      simp only [Option.bind_eq_bind, Option.bind_some, Option.map_some, own]
      cases headAllowed pair.1.keyword pair.1.bare with
      | true => simp
      | false => rfl
  | module | call | access | name | lambda | list | comment | other => rfl
termination_by sizeOf tree

end

end Chain

end LambdaLayout
