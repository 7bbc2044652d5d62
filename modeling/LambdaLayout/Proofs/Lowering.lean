import LambdaLayout.Proofs.Places

/-!
Nodes and the trees they come from. Lowering has one case for each construct, and every node below a
lowered tree is itself a lowered tree, which has its place in the source.
-/

namespace LambdaLayout

open LambdaLayout.Python (Parsed Label Tree)

namespace Node

/-- All that lowering can make of a tree. -/
inductive Lowered (parsed : Parsed) (label : Label) (children : List Tree) : Node → Prop where
  | module (kind : label.kind = "module") :
      Lowered parsed label children (.module label.span (ofKept parsed children))
  | call {function : Node} (kind : label.kind = "call")
      (called : ofRole parsed "function" children = some function) :
      Lowered parsed label children (.call label.span function (argumentsOf parsed children))
  | access {object : Node} {name : Tree} (kind : label.kind = "attribute")
      (from_ : ofRole parsed "object" children = some object)
      (named : children.find? (fun child => child.label.role == some "attribute") = some name) :
      Lowered parsed label children
        (.access label.span object (parsed.textOf name.span) name.span)
  | name (kind : label.kind = "identifier") :
      Lowered parsed label children (.name label.span (parsed.textOf label.span))
  | lambda {body : Node} (kind : label.kind = "lambda")
      (result : ofRole parsed "body" children = some body) :
      Lowered parsed label children
        (.lambda label.span
          ((children.find? fun child => child.label.role == some "parameters").map Tree.span) body
          (commentsOf parsed (withoutRole "body" children)))
  | list (kind : label.kind = "list") :
      Lowered parsed label children (.list label.span (ofKept parsed children))
  | subscript {value : Node} (kind : label.kind = "subscript")
      (of : ofRole parsed "value" children = some value) :
      Lowered parsed label children
        (.subscript label.span value (ofOthers parsed "value" children))
  | comment (kind : label.kind = "comment") :
      Lowered parsed label children (.comment label.span (parsed.textOf label.span))
  | string (kind : label.kind = "string") :
      Lowered parsed label children (.other label.span label.kind [])
  | other (open_ : label.kind ≠ "string" ∧ label.kind ≠ "comment") :
      Lowered parsed label children (.other label.span label.kind (ofKept parsed children))

theorem lowered (parsed : Parsed) (label : Label) (children : List Tree) :
    Lowered parsed label children (ofTree parsed (.node label children)) := by
  rw [ofTree]
  split
  · next kind => exact .module kind
  · next kind =>
    split
    · next called => exact .call kind called
    · exact .other (by simp [kind])
  · next kind =>
    dsimp only
    split
    · next object named => exact .access kind object named
    · exact .other (by simp [kind])
  · next kind => exact .name kind
  · next kind =>
    split
    · next result => exact .lambda kind result
    · exact .other (by simp [kind])
  · next kind => exact .list kind
  · next kind =>
    split
    · next of => exact .subscript kind of
    · exact .other (by simp [kind])
  · next kind => exact .comment kind
  · next kind => exact .string kind
  · next comment string => exact .other ⟨string, comment⟩

/-- A node covers the text of its tree. -/
theorem span_of_tree (parsed : Parsed) (tree : Tree) : (ofTree parsed tree).span = tree.span := by
  obtain ⟨label, children⟩ := tree
  have made := lowered parsed label children
  revert made
  generalize ofTree parsed (.node label children) = node
  intro made
  cases made <;> rfl

section Members

variable {parsed : Parsed} {role : String} {trees : List Tree} {node : Node}

theorem mem_ofKept (mem : node ∈ ofKept parsed trees) :
    ∃ tree ∈ trees, isKept tree = true ∧ node = ofTree parsed tree := by
  induction trees with
  | nil => rw [ofKept] at mem; cases mem
  | cons tree rest ih =>
    rw [ofKept] at mem
    split at mem
    · next kept =>
      rcases List.mem_cons.mp mem with same | later
      · exact ⟨tree, List.mem_cons_self, kept, same⟩
      · obtain ⟨found, mem, facts⟩ := ih later
        exact ⟨found, List.mem_cons_of_mem _ mem, facts⟩
    · obtain ⟨found, mem, facts⟩ := ih mem
      exact ⟨found, List.mem_cons_of_mem _ mem, facts⟩

theorem ofRole_some (found : ofRole parsed role trees = some node) :
    ∃ tree ∈ trees, tree.label.role = some role ∧ node = ofTree parsed tree := by
  induction trees with
  | nil => rw [ofRole] at found; cases found
  | cons tree rest ih =>
    rw [ofRole] at found
    split at found
    · next same =>
      exact ⟨tree, List.mem_cons_self, by simpa using same, (Option.some.inj found).symm⟩
    · obtain ⟨other, mem, facts⟩ := ih found
      exact ⟨other, List.mem_cons_of_mem _ mem, facts⟩

theorem mem_ofOthers (mem : node ∈ ofOthers parsed role trees) :
    ∃ tree ∈ trees, node = ofTree parsed tree := by
  induction trees with
  | nil => rw [ofOthers] at mem; cases mem
  | cons tree rest ih =>
    rw [ofOthers] at mem
    split at mem
    · obtain ⟨found, mem, -, same⟩ := mem_ofKept mem
      exact ⟨found, List.mem_cons_of_mem _ mem, same⟩
    · split at mem
      · rcases List.mem_cons.mp mem with same | later
        · exact ⟨tree, List.mem_cons_self, same⟩
        · obtain ⟨found, mem, same⟩ := ih later
          exact ⟨found, List.mem_cons_of_mem _ mem, same⟩
      · obtain ⟨found, mem, same⟩ := ih mem
        exact ⟨found, List.mem_cons_of_mem _ mem, same⟩

theorem mem_argumentsOf (mem : node ∈ argumentsOf parsed trees) :
    ∃ tree ∈ trees, node = ofTree parsed tree ∨
      (tree.kind = "argument_list" ∧ ∃ part ∈ tree.children, node = ofTree parsed part) := by
  induction trees with
  | nil => rw [argumentsOf] at mem; cases mem
  | cons tree rest ih =>
    obtain ⟨label, children⟩ := tree
    rw [argumentsOf] at mem
    split at mem
    · split at mem
      · next kind =>
        obtain ⟨part, inside, -, same⟩ := mem_ofKept mem
        exact ⟨_, List.mem_cons_self, .inr ⟨eq_of_beq kind, part, inside, same⟩⟩
      · exact ⟨_, List.mem_cons_self, .inl (List.mem_singleton.mp mem)⟩
    · obtain ⟨found, mem, facts⟩ := ih mem
      exact ⟨found, List.mem_cons_of_mem _ mem, facts⟩

/-- The node comes from a part of the trees, or from a part of an argument list among them. -/
def ComesFrom (parsed : Parsed) (trees : List Tree) (node : Node) : Prop :=
  ∃ part ∈ trees, node = ofTree parsed part ∨
    (part.kind = "argument_list" ∧ ∃ inner ∈ part.children, node = ofTree parsed inner)

private theorem comes_from_kept (mem : node ∈ ofKept parsed trees) :
    ComesFrom parsed trees node := by
  obtain ⟨part, inside, -, same⟩ := mem_ofKept mem
  exact ⟨part, inside, .inl same⟩

private theorem comes_from_role (found : ofRole parsed role trees = some node) :
    ComesFrom parsed trees node := by
  obtain ⟨part, inside, -, same⟩ := ofRole_some found
  exact ⟨part, inside, .inl same⟩

private theorem comes_from_lowered {label : Label} {whole : Node}
    (made : Lowered parsed label trees whole) (mem : node ∈ whole.children) :
    label.kind ≠ "string" ∧ label.kind ≠ "comment" ∧ ComesFrom parsed trees node := by
  cases made with
  | module kind => exact ⟨by simp [kind], by simp [kind], comes_from_kept mem⟩
  | call kind called =>
    refine ⟨by simp [kind], by simp [kind], ?_⟩
    rcases List.mem_cons.mp mem with rfl | given
    · exact comes_from_role called
    · exact mem_argumentsOf given
  | access kind of named =>
    rw [List.mem_singleton.mp mem]
    exact ⟨by simp [kind], by simp [kind], comes_from_role of⟩
  | name kind => cases mem
  | lambda kind result =>
    rw [List.mem_singleton.mp mem]
    exact ⟨by simp [kind], by simp [kind], comes_from_role result⟩
  | list kind => exact ⟨by simp [kind], by simp [kind], comes_from_kept mem⟩
  | subscript kind of =>
    refine ⟨by simp [kind], by simp [kind], ?_⟩
    rcases List.mem_cons.mp mem with rfl | item
    · exact comes_from_role of
    · obtain ⟨part, inside, same⟩ := mem_ofOthers item
      exact ⟨part, inside, .inl same⟩
  | comment kind => cases mem
  | string kind => cases mem
  | other unquoted => exact ⟨unquoted.1, unquoted.2, comes_from_kept mem⟩

/-- The parts of a lowered tree come from the parts of the tree. Strings and comments have none. -/
theorem mem_children {tree : Tree} (mem : node ∈ (ofTree parsed tree).children) :
    tree.isClosed = false ∧ ComesFrom parsed tree.children node := by
  obtain ⟨label, children⟩ := tree
  obtain ⟨string, comment, part, inside, facts⟩ :=
    comes_from_lowered (lowered parsed label children) mem
  have filled : children.isEmpty = false := by
    cases children with
    | nil => cases inside
    | cons => rfl
  exact ⟨by simp [Tree.isClosed, filled, string, comment], part, inside, facts⟩

end Members

theorem preorder_eq (node : Node) : node.preorder = node :: preorderOf node.children := by
  cases node with
  | access span object label labelSpan => simp [preorder, children, preorderOf]
  | lambda span parameters body comments => simp [preorder, children, preorderOf]
  | _ => simp [preorder, children, preorderOf]

theorem mem_preorderOf {nodes : List Node} {node : Node} (mem : node ∈ preorderOf nodes) :
    ∃ other ∈ nodes, node ∈ other.preorder := by
  induction nodes with
  | nil => rw [preorderOf] at mem; cases mem
  | cons first rest ih =>
    rw [preorderOf] at mem
    rcases List.mem_append.mp mem with here | later
    · exact ⟨first, List.mem_cons_self, here⟩
    · obtain ⟨other, mem, inside⟩ := ih later
      exact ⟨other, List.mem_cons_of_mem _ mem, inside⟩

end Node

namespace Node

/-- The node comes from a tree that has its place in the source. -/
def Stands (parsed : Parsed) (node : Node) : Prop :=
  ∃ tree, Python.Tree.Placed parsed tree ∧ node = ofTree parsed tree

private theorem stands_below {parsed : Parsed} {tree : Tree}
    (placed : Python.Tree.Placed parsed tree) {node : Node}
    (mem : node ∈ (ofTree parsed tree).preorder) : Stands parsed node := by
  rw [preorder_eq] at mem
  rcases List.mem_cons.mp mem with rfl | below
  · exact ⟨tree, placed, rfl⟩
  · obtain ⟨child, among, inside⟩ := mem_preorderOf below
    obtain ⟨split, part, own, facts⟩ := mem_children among
    have smaller := Python.Tree.sizeOf_part own
    rcases facts with rfl | ⟨kind, inner, deeper, rfl⟩
    · exact stands_below (placed.child split own) inside
    · have smallest := Python.Tree.sizeOf_part deeper
      exact stands_below ((placed.child split own).argument kind deeper) inside
termination_by sizeOf tree

/-- What is inside a node that comes from a placed tree comes from one too. -/
theorem Stands.below {parsed : Parsed} {node inner : Node} (stands : Stands parsed node)
    (mem : inner ∈ node.preorder) : Stands parsed inner := by
  obtain ⟨tree, placed, rfl⟩ := stands
  exact stands_below placed mem

/-- Every node of a source that follows the grammar, except the whole, comes from a placed tree. -/
theorem stands_of_mem {parsed : Parsed} (grammatical : parsed.Grammatical)
    (sound : parsed.hasErrors = false) {node : Node} (mem : node ∈ (lower parsed).preorder) :
    node = lower parsed ∨ Stands parsed node := by
  rw [preorder_eq] at mem
  rcases List.mem_cons.mp mem with whole | below
  · exact .inl whole
  · right
    obtain ⟨child, among, inside⟩ := mem_preorderOf below
    obtain ⟨-, part, own, facts⟩ := mem_children among
    have placed := Python.Tree.placed_part grammatical sound own
    rcases facts with rfl | ⟨kind, inner, deeper, rfl⟩
    · exact stands_below placed inside
    · exact stands_below (placed.argument kind deeper) inside

/-- The whole of a grammatical source is a module. -/
theorem lower_is_module {parsed : Parsed} (grammatical : parsed.Grammatical) :
    ∃ span statements, lower parsed = .module span statements := by
  obtain ⟨label, children, stop, tree, kind, -, -⟩ := grammatical
  rw [lower, tree, ofTree, kind]
  exact ⟨_, _, rfl⟩

end Node

end LambdaLayout
