import LambdaLayout.Proofs.TreeExtents

/-!
The extents of the nodes of a syntax tree. A tree that is in place is lowered to a node that is in
place, down to its smallest parts: the parts of each node lie in its span, one after the other, and
what a name, a comment or the label of an access says is the text of its span. The comments in the
head of a lambda are no parts of it, but they too say what the source has in their spans.
-/

namespace LambdaLayout

open LambdaLayout.Python (Parsed Label Tree Leads InRoles)
open LambdaLayout.Python.Tree (Nested)
open LambdaLayout.Text (Holds)

namespace Node

/-- The node covers a piece of the source, in which its parts lie one after the other. -/
structure InPlace (source : Text) (node : Node) : Prop where
  piece : ∃ text, Holds source node.span.startByte text node.span.endByte
  frames : node.span.Frames (node.children.map span)

/-- The words of the node are those of the source. The comments in the head of a lambda say what the
source has in their spans. -/
def Quotes (parsed : Parsed) : Node → Prop
  | name span id => Holds parsed.source span.startByte id span.endByte
  | comment span text => Holds parsed.source span.startByte text span.endByte
  | access _ _ label span => Holds parsed.source span.startByte label span.endByte
  | lambda _ _ _ comments => ∀ node ∈ comments, ∃ span, node = .comment span (parsed.textOf span)
  | _ => True

section Lowering

variable {parsed : Parsed} {label : Label} {tree : Tree} {parts trees : List Tree}

theorem textOf_piece {span : Span}
    (piece : ∃ text, Holds parsed.source span.startByte text span.endByte) :
    Holds parsed.source span.startByte (parsed.textOf span) span.endByte := by
  obtain ⟨text, held⟩ := piece
  rw [Parsed.textOf, Text.slice?_iff.mpr held]
  exact held

theorem ofKept_spans (trees : List Tree) :
    ((ofKept parsed trees).map span).Sublist (trees.map Tree.span) := by
  induction trees with
  | nil => rw [ofKept]; exact .slnil
  | cons tree rest ih =>
    rw [ofKept]
    split
    · rw [List.map_cons, List.map_cons, span_of_tree]
      exact ih.cons_cons _
    · exact ih.cons _

mutual

theorem commentsIn_quote (tree : Tree) :
    ∀ node ∈ commentsIn parsed tree, ∃ span, node = .comment span (parsed.textOf span) := by
  obtain ⟨label, children⟩ := tree
  rw [commentsIn]
  split
  · exact List.forall_mem_singleton.mpr ⟨_, rfl⟩
  · exact commentsOf_quote children

theorem commentsOf_quote (trees : List Tree) :
    ∀ node ∈ commentsOf parsed trees, ∃ span, node = .comment span (parsed.textOf span) := by
  cases trees with
  | nil => rw [commentsOf]; nofun
  | cons tree rest =>
    rw [commentsOf]
    intro node mem
    rcases List.mem_append.mp mem with here | later
    · exact commentsIn_quote tree node here
    · exact commentsOf_quote rest node later

end

/-- The arguments of a call lie in one of its parts. -/
theorem argumentsOf_frames {given : Tree} (placed : given.InPlace parsed.source)
    (found : (trees.find? fun tree => tree.label.role == some "arguments") = some given) :
    given.span.Frames ((argumentsOf parsed trees).map span) := by
  rw [argumentsOf_eq, found]
  dsimp only
  split
  · next listed =>
    cases placed with
    | string kind => exact absurd (kind.symm.trans (eq_of_beq listed)) (by decide)
    | node _ frames => exact frames.sublist (ofKept_spans _)
  · rw [List.map_singleton, span_of_tree]
    exact ⟨List.forall_mem_singleton.mpr (Span.contains_refl _), List.pairwise_singleton _ _⟩

/-- The part in a role, with the parts before it, none of which has the role. -/
theorem ofRole_found {role : String} {node : Node} (found : ofRole parsed role parts = some node) :
    ∃ before part after, parts = before ++ part :: after ∧ part.label.role = some role ∧
      (∀ tree ∈ before, tree.label.role ≠ some role) ∧ node = ofTree parsed part := by
  rw [ofRole_eq, Option.map_eq_some_iff] at found
  obtain ⟨part, found, same⟩ := found
  obtain ⟨is, before, after, split, others⟩ := List.find?_eq_some_iff_append.mp found
  exact ⟨before, part, after, split, eq_of_beq is, fun tree mem => by simpa using others tree mem,
    same.symm⟩

/-- What is called ends before the arguments start. -/
theorem arguments_after {before after : List Tree} {function given : Tree}
    (roles : InRoles "call" parts) (frames : label.span.Frames (parts.map Tree.span))
    (split : parts = before ++ function :: after) (called : function.label.role = some "function")
    (others : ∀ tree ∈ before, tree.label.role ≠ some "function") (mem : given ∈ parts)
    (role : given.label.role = some "arguments") :
    function.span.endByte ≤ given.span.startByte := by
  have order := List.pairwise_map.mp frames.apart
  rw [split, List.mem_append, List.mem_cons] at mem
  rcases mem with early | rfl | late
  · have follows := roles.call rfl before function after split called others given early
    simp [role] at follows
  · exact absurd (Option.some.inj (called.symm.trans role)) (by decide)
  · rw [split, List.pairwise_append, List.pairwise_cons] at order
    exact order.2.1.1 given late

theorem call_frames {function : Node} (roles : InRoles "call" parts)
    (frames : label.span.Frames (parts.map Tree.span))
    (below : ∀ part ∈ parts, part.InPlace parsed.source)
    (called : ofRole parsed "function" parts = some function) :
    label.span.Frames ((function :: argumentsOf parsed parts).map span) := by
  obtain ⟨before, part, after, split, role, others, rfl⟩ := ofRole_found called
  have here : label.span.contains part.span = true :=
    frames.inside _ (List.mem_map_of_mem (by rw [split]; simp))
  rw [List.map_cons, span_of_tree]
  cases found : parts.find? fun tree => tree.label.role == some "arguments" with
  | none =>
    rw [argumentsOf_eq, found]
    exact ⟨List.forall_mem_singleton.mpr here, List.pairwise_singleton _ _⟩
  | some given =>
    have mem := List.mem_of_find?_eq_some found
    have inner := argumentsOf_frames (below given mem) found
    have outer := frames.inside _ (List.mem_map_of_mem mem)
    have after := arguments_after roles frames split role others mem
      (by simpa using List.find?_some found)
    refine ⟨List.forall_mem_cons.mpr ⟨here, fun own listed => ?_⟩,
      List.pairwise_cons.mpr ⟨fun own listed => ?_, inner.apart⟩⟩
    · exact Span.contains_trans outer (inner.inside own listed)
    · exact Nat.le_trans after (Span.contains_iff.mp (inner.inside own listed)).1

theorem ofKept_none (none : ∀ tree ∈ trees, isKept tree = false) : ofKept parsed trees = [] := by
  refine List.eq_nil_iff_forall_not_mem.mpr fun node mem => ?_
  obtain ⟨tree, among, kept, -⟩ := mem_ofKept mem
  rw [none tree among] at kept
  cases kept

theorem subscript_frames {value : Node} (roles : InRoles "subscript" parts)
    (frames : label.span.Frames (parts.map Tree.span))
    (of : ofRole parsed "value" parts = some value) :
    label.span.Frames ((value :: ofOthers parsed "value" parts).map span) := by
  obtain ⟨before, part, after, split, role, others, rfl⟩ := ofRole_found of
  have items : ofOthers parsed "value" parts = ofKept parsed after := by
    rw [split, ofOthers_split others role,
      ofKept_none (roles.subscript rfl before part after split role others), List.nil_append]
  refine frames.sublist ?_
  rw [items, List.map_cons, span_of_tree, split, List.map_append, List.map_cons]
  exact ((ofKept_spans after).cons_cons _).trans (List.sublist_append_right _ _)

theorem role_frames {role : String} {node : Node}
    (frames : label.span.Frames (parts.map Tree.span))
    (found : ofRole parsed role parts = some node) : label.span.Frames ([node].map span) := by
  obtain ⟨part, mem, -, rfl⟩ := ofRole_some found
  rw [List.map_singleton, span_of_tree]
  exact frames.sublist (List.singleton_sublist.mpr (List.mem_map_of_mem mem))

/-- The node of a tree that is in place is in place, and its words are those of the source. -/
theorem lowered_here (placed : tree.InPlace parsed.source) :
    (ofTree parsed tree).InPlace parsed.source ∧ (ofTree parsed tree).Quotes parsed := by
  have piece : ∃ text, Holds parsed.source (ofTree parsed tree).span.startByte text
      (ofTree parsed tree).span.endByte := by
    rw [span_of_tree]
    exact placed.piece
  suffices facts : (ofTree parsed tree).span.Frames ((ofTree parsed tree).children.map span) ∧
      (ofTree parsed tree).Quotes parsed from ⟨⟨piece, facts.1⟩, facts.2⟩
  obtain ⟨label, parts⟩ := tree
  have made := lowered parsed label parts
  revert made piece
  generalize ofTree parsed (.node label parts) = node
  intro piece made
  have own : Holds parsed.source label.span.startByte (parsed.textOf label.span)
      label.span.endByte := textOf_piece placed.piece
  cases placed with
  | string kind =>
    cases made with
    | string => exact ⟨⟨nofun, .nil⟩, trivial⟩
    | other unquoted => exact absurd kind unquoted.1
    | module is | call is | access is | name is | lambda is | list is | subscript is | comment is =>
      exact absurd (kind.symm.trans is) (by decide)
  | node _ frames roles below =>
    cases made with
    | module | list | other => exact ⟨frames.sublist (ofKept_spans parts), trivial⟩
    | call kind called =>
      exact ⟨call_frames (kind ▸ roles) frames below called, trivial⟩
    | access kind from_ named =>
      exact ⟨role_frames frames from_,
        textOf_piece (below _ (List.mem_of_find?_eq_some named)).piece⟩
    | name => exact ⟨⟨nofun, .nil⟩, own⟩
    | lambda kind result => exact ⟨role_frames frames result, commentsOf_quote _⟩
    | subscript kind of => exact ⟨subscript_frames (kind ▸ roles) frames of, trivial⟩
    | comment => exact ⟨⟨nofun, .nil⟩, own⟩
    | string => exact ⟨⟨nofun, .nil⟩, trivial⟩

/-- Every node below a tree that is in place is in place, and its words are those of the source. -/
theorem lowered_below : ∀ tree : Tree, tree.InPlace parsed.source →
    ∀ node ∈ (ofTree parsed tree).preorder, node.InPlace parsed.source ∧ node.Quotes parsed
  | .node label parts, placed => by
    intro node mem
    rw [preorder_eq] at mem
    rcases List.mem_cons.mp mem with rfl | below
    · exact lowered_here placed
    · obtain ⟨child, among, inside⟩ := mem_preorderOf below
      obtain ⟨open_, part, own, facts⟩ := mem_children among
      cases placed with
      | string kind => simp [Tree.isClosed, kind] at open_
      | node _ _ _ deeper =>
        rcases facts with rfl | ⟨kind, inner, listed, rfl⟩
        · exact lowered_below part (deeper part own) node inside
        · have smaller := Python.Tree.sizeOf_part own
          refine lowered_below inner ?_ node inside
          obtain ⟨_, _⟩ := part
          cases deeper _ own with
          | string other => exact absurd (kind.symm.trans other) (by decide)
          | node _ _ _ deepest => exact deepest inner listed
termination_by tree => sizeOf tree
decreasing_by
  · exact Python.Tree.sizeOf_part own
  · exact Nat.lt_trans (Python.Tree.sizeOf_part listed) (Python.Tree.sizeOf_part own)

end Lowering

end Node

end LambdaLayout
