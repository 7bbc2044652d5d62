import LambdaLayout.Pattern
import LambdaLayout.Proofs.NodeExtents

/-!
The order in which a search goes through a tree. A place of a node is the list of indices that leads
to it from the root, so that two places may hold equal nodes and still count twice. A search visits
each place once, in lexicographic order, and keeps the nodes that fit. In a tree that is in place this
is the order in which the nodes start, and of two nodes that are found one lies in the other or they
lie apart.
-/

namespace LambdaLayout

open LambdaLayout.Python (Parsed)
open LambdaLayout.Python.Tree (Nested order_of_pairwise)

namespace Node

/-- The node at a place below this one. -/
def at? (node : Node) : List Nat → Option Node
  | [] => some node
  | index :: place => node.children[index]?.bind fun part => part.at? place

/-- The node at a place below one of several nodes that are counted from an index on. -/
def HeldFrom (index : Nat) (nodes : List Node) (place : List Nat) (found : Node) : Prop :=
  ∃ offset node inner, nodes[offset]? = some node ∧ place = (index + offset) :: inner ∧
    node.at? inner = some found

/-- The visits come in the order of their places, each place once, and are those that hold. -/
structure Walks (held : List Nat → Node → Prop) (visits : List (List Nat × Node)) : Prop where
  ordered : (visits.map Prod.fst).Pairwise (· < ·)
  reached : ∀ place node, (place, node) ∈ visits ↔ held place node

section Walk

variable {held : List Nat → Node → Prop} {visits others : List (List Nat × Node)} {node : Node}
  {nodes : List Node} {index : Nat}

theorem sizeOf_child {child : Node} (mem : child ∈ node.children) :
    sizeOf child < sizeOf node := by
  cases node with
  | name | comment => cases mem
  | access | lambda =>
    cases List.mem_singleton.mp mem
    simp
    omega
  | call | subscript =>
    rcases List.mem_cons.mp mem with rfl | mem
    · simp
      omega
    · have smaller := List.sizeOf_lt_of_mem mem
      simp
      omega
  | module | list | other =>
    have smaller := List.sizeOf_lt_of_mem mem
    simp [children] at smaller ⊢
    omega

/-- What holds of a node whenever it holds of its parts holds of every node. -/
theorem of_children {motive : Node → Prop}
    (step : ∀ node, (∀ child ∈ node.children, motive child) → motive node) (node : Node) :
    motive node := by
  refine step node fun child mem => ?_
  have smaller := sizeOf_child mem
  exact of_children step child
termination_by sizeOf node

theorem preorderOf_eq (nodes : List Node) : preorderOf nodes = nodes.flatMap preorder := by
  induction nodes with
  | nil => rw [preorderOf, List.flatMap_nil]
  | cons node rest ih => rw [preorderOf, List.flatMap_cons, ih]

theorem Walks.filter (walks : Walks held visits) (keep : Node → Bool) :
    Walks (fun place node => held place node ∧ keep node = true)
      (visits.filter fun visit => keep visit.2) where
  ordered := walks.ordered.sublist (List.filter_sublist.map _)
  reached place node := by rw [List.mem_filter, walks.reached]

theorem heldFrom_cons {place : List Nat} {found : Node} :
    HeldFrom index (node :: nodes) place found ↔
      (∃ inner, place = index :: inner ∧ node.at? inner = some found) ∨
        HeldFrom (index + 1) nodes place found := by
  constructor
  · rintro ⟨offset, part, inner, at_, rfl, held⟩
    cases offset with
    | zero =>
      cases at_
      exact .inl ⟨inner, rfl, held⟩
    | succ offset => exact .inr ⟨offset, part, inner, at_, by rw [Nat.add_right_comm]; rfl, held⟩
  · rintro (⟨inner, rfl, held⟩ | ⟨offset, part, inner, at_, rfl, held⟩)
    · exact ⟨0, node, inner, rfl, rfl, held⟩
    · exact ⟨offset + 1, part, inner, at_, by rw [Nat.add_right_comm]; rfl, held⟩

/-- A walk through the first of several nodes goes on with a walk through the others. -/
theorem Walks.cons (first : Walks (fun place found => node.at? place = some found) visits)
    (rest : Walks (HeldFrom (index + 1) nodes) others) :
    Walks (HeldFrom index (node :: nodes))
      (visits.map (fun visit => (index :: visit.1, visit.2)) ++ others) where
  ordered := by
    rw [List.map_append, List.map_map, List.pairwise_append]
    refine ⟨?_, rest.ordered, ?_⟩
    · rw [List.pairwise_map]
      exact (List.pairwise_map.mp first.ordered).imp fun before => List.Lex.cons before
    · intro left among right later
      obtain ⟨visit, -, rfl⟩ := List.mem_map.mp among
      obtain ⟨⟨place, found⟩, mem, rfl⟩ := List.mem_map.mp later
      obtain ⟨offset, part, inner, -, rfl, -⟩ := (rest.reached place found).mp mem
      exact List.Lex.rel (by omega)
  reached place found := by
    rw [List.mem_append, rest.reached, heldFrom_cons, List.mem_map]
    refine or_congr ⟨?_, ?_⟩ .rfl
    · rintro ⟨⟨inner, held⟩, mem, ⟨⟩⟩
      exact ⟨inner, rfl, (first.reached _ _).mp mem⟩
    · rintro ⟨inner, rfl, held⟩
      exact ⟨(inner, found), (first.reached _ _).mpr held, rfl⟩

theorem walks_nodes (index : Nat)
    (each : ∀ node ∈ nodes, ∃ visits, node.preorder = visits.map Prod.snd ∧
      Walks (fun place found => node.at? place = some found) visits) :
    ∃ visits, preorderOf nodes = visits.map Prod.snd ∧ Walks (HeldFrom index nodes) visits := by
  induction nodes generalizing index with
  | nil => exact ⟨[], rfl, .nil, fun place found => ⟨nofun, by rintro ⟨_, _, _, ⟨⟩, _⟩⟩⟩
  | cons node rest ih =>
    obtain ⟨first, order, walks⟩ := each node List.mem_cons_self
    obtain ⟨others, later, more⟩ :=
      ih (index + 1) fun node mem => each node (List.mem_cons_of_mem _ mem)
    refine ⟨_, ?_, walks.cons more⟩
    rw [preorderOf, order, later, List.map_append, List.map_map]
    rfl

/-- The nodes of a tree in preorder are those at its places, in the order of the places. -/
theorem preorder_walks (root : Node) : ∃ visits, root.preorder = visits.map Prod.snd ∧
    Walks (fun place found => root.at? place = some found) visits := by
  induction root using of_children with
  | step node ih =>
    obtain ⟨below, order, walks⟩ := walks_nodes 0 ih
    refine ⟨([], node) :: below, by rw [preorder_eq, order]; rfl, ?_, fun place found => ?_⟩
    · rw [List.map_cons, List.pairwise_cons]
      refine ⟨fun place mem => ?_, walks.ordered⟩
      obtain ⟨⟨place, found⟩, among, rfl⟩ := List.mem_map.mp mem
      obtain ⟨offset, part, inner, -, rfl, -⟩ := (walks.reached place found).mp among
      exact .nil
    · rw [List.mem_cons, walks.reached]
      cases place with
      | nil => simp [HeldFrom, at?, eq_comm]
      | cons offset inner => simp [HeldFrom, at?, Option.bind_eq_some_iff]

end Walk

section Extents

variable {source : Text} {root : Node}

/-- In a tree that is in place, everything lies in the root. -/
theorem preorder_inside (root : Node) (placed : ∀ node ∈ root.preorder, node.InPlace source) :
    ∀ inner ∈ root.preorder, root.span.contains inner.span = true := by
  induction root using of_children with
  | step node ih =>
    rw [preorder_eq, List.forall_mem_cons] at placed ⊢
    refine ⟨Span.contains_refl _, fun inner mem => ?_⟩
    rw [preorderOf_eq, List.mem_flatMap] at mem
    obtain ⟨child, among, below⟩ := mem
    have here := placed.1.frames.inside _ (List.mem_map_of_mem among)
    refine Span.contains_trans here (ih child among (fun inner deep => ?_) inner below)
    rw [preorderOf_eq] at placed
    exact placed.2 inner (List.mem_flatMap.mpr ⟨child, among, deep⟩)

/-- In a tree that is in place, what comes later in preorder lies in what came before or after it. -/
theorem preorder_opens (root : Node) (placed : ∀ node ∈ root.preorder, node.InPlace source) :
    root.preorder.Pairwise fun left right =>
      left.span.contains right.span = true ∨ left.span.endByte ≤ right.span.startByte := by
  induction root using of_children with
  | step node ih =>
    have inside := preorder_inside node placed
    rw [preorder_eq, List.forall_mem_cons] at placed inside
    rw [preorder_eq, List.pairwise_cons]
    refine ⟨fun inner mem => .inl (inside.2 inner mem), ?_⟩
    rw [preorderOf_eq] at placed ⊢
    have below : ∀ child ∈ node.children, ∀ inner ∈ child.preorder, inner.InPlace source :=
      fun child among inner deep => placed.2 inner (List.mem_flatMap.mpr ⟨child, among, deep⟩)
    refine List.pairwise_flatMap.mpr ⟨fun child among => ih child among (below child among), ?_⟩
    refine (List.pairwise_map.mp placed.1.frames.apart).imp_of_mem ?_
    intro first second one two apart left early right late
    have before := preorder_inside first (below first one) left early
    have after := preorder_inside second (below second two) right late
    rw [Span.contains_iff] at before after
    exact .inr (by omega)

/-- In a tree that is in place, the nodes start in preorder. -/
theorem preorder_starts (placed : ∀ node ∈ root.preorder, node.InPlace source) :
    root.preorder.Pairwise fun left right => left.span.startByte ≤ right.span.startByte := by
  refine (preorder_opens root placed).imp_of_mem fun {left right} mem _ opens => ?_
  rcases opens with inside | after
  · exact (Span.contains_iff.mp inside).1
  · obtain ⟨text, held⟩ := (placed left mem).piece
    exact Nat.le_trans held.ordered after

/-- In a tree that is in place, of any two nodes one lies in the other or they lie apart. -/
theorem preorder_nested (placed : ∀ node ∈ root.preorder, node.InPlace source) {first second : Node}
    (one : first ∈ root.preorder) (two : second ∈ root.preorder) :
    Nested first.span second.span := by
  rcases order_of_pairwise (preorder_opens root placed) one two with rfl | opens | opens
  · exact .inr (.inr (.inl ⟨Nat.le_refl _, Nat.le_refl _⟩))
  · rcases opens with inside | after
    · exact .inr (.inr (.inl (Span.contains_iff.mp inside)))
    · exact .inl after
  · rcases opens with inside | after
    · exact .inr (.inr (.inr (Span.contains_iff.mp inside)))
    · exact .inr (.inl after)

end Extents

/-- The nodes that fit are listed, each once for each place that holds it, in the order of the
places. -/
def ListsFitting (root : Node) (pattern : Pattern) (found : List Node) : Prop :=
  ∃ visits, found = visits.map Prod.snd ∧
    Walks (fun place node => root.at? place = some node ∧ pattern.fits node = true) visits

theorem findIn_lists (root : Node) (pattern : Pattern) :
    root.ListsFitting pattern (pattern.findIn root) := by
  obtain ⟨visits, order, walks⟩ := preorder_walks root
  refine ⟨_, ?_, walks.filter pattern.fits⟩
  rw [Pattern.findIn, order, List.filter_map]
  rfl

/-- The tree of every source is in place. The nodes of a tree that is in place are in place too, with
the words of the source, and a search among them lists each node that fits once, in the order in which
they start. Of any two nodes that are found one lies in the other or they lie apart. -/
theorem lower_keeps_extents :
    (∀ source, (Python.parse source).tree.InPlace source) ∧
    ∀ parsed : Parsed, parsed.tree.InPlace parsed.source →
      (∀ node ∈ (lower parsed).preorder, node.InPlace parsed.source ∧ node.Quotes parsed) ∧
      ∀ pattern : Pattern,
        let found := pattern.findIn (lower parsed)
        (lower parsed).ListsFitting pattern found ∧
          (found.Pairwise fun left right => left.span.startByte ≤ right.span.startByte) ∧
          ∀ first ∈ found, ∀ second ∈ found, Nested first.span second.span := by
  refine ⟨Python.parse_inPlace, fun parsed whole => ?_⟩
  have below := lowered_below parsed.tree whole
  have placed : ∀ node ∈ (lower parsed).preorder, node.InPlace parsed.source :=
    fun node mem => (below node mem).1
  refine ⟨below, fun pattern => ⟨findIn_lists _ pattern, ?_, fun first one second two => ?_⟩⟩
  · exact (preorder_starts placed).sublist List.filter_sublist
  · exact preorder_nested placed (List.mem_filter.mp one).1 (List.mem_filter.mp two).1

/-- A call in the arguments of another one, before a comment, is found after it. -/
theorem lower_keeps_extents_arguments :
    let parsed := Python.parse "f(g(a.b),  # c\n  lambda: x)\n".toList
    let found := (Pattern.call .any).findIn (lower parsed)
    parsed.tree.InPlace parsed.source ∧
      found.map (fun node => (node.span.startByte, node.span.endByte)) = [(0, 27), (2, 8)] ∧
      (lower parsed).ListsFitting (.call .any) found ∧
      (∀ node ∈ (lower parsed).preorder, node.InPlace parsed.source ∧ node.Quotes parsed) ∧
      ∀ first ∈ found, ∀ second ∈ found, Nested first.span second.span := by
  intro parsed found
  have whole := lower_keeps_extents.1 "f(g(a.b),  # c\n  lambda: x)\n".toList
  obtain ⟨below, search⟩ := lower_keeps_extents.2 parsed whole
  obtain ⟨lists, -, nested⟩ := search (.call .any)
  exact ⟨whole, by decide +kernel, lists, below, nested⟩

end Node

end LambdaLayout
