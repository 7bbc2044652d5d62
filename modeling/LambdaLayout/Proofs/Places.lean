import LambdaLayout.Proofs.TokenStream

/-!
The places of trees in a source. A tree that has its place keeps its leaves together: those before it
end before it starts, and those after it start after it ends, so the source may be cut where the tree
starts and where it ends. Of two such trees one lies inside the other, or they lie apart.
-/

namespace LambdaLayout

namespace Python.Tree

section Spread

variable {source : Text} {start stop : Nat} {tree : Tree} {trees left right : List Tree}

theorem Spread.ordered (spread : Spread source start trees stop) : start ≤ stop := by
  induction spread with
  | nil => exact Nat.le_refl _
  | cons gap sits closed _ ih =>
    exact Nat.le_trans gap.ordered (Nat.le_trans sits.holds.ordered ih)

/-- Leaves that are spread over a stretch lie in it. -/
theorem Spread.bounds (spread : Spread source start trees stop) :
    ∀ leaf ∈ trees, start ≤ leaf.span.startByte ∧ leaf.span.startByte ≤ leaf.span.endByte ∧
      leaf.span.endByte ≤ stop := by
  induction spread with
  | nil => simp
  | cons gap sits closed rest ih =>
    intro leaf mem
    rcases List.mem_cons.mp mem with rfl | later
    · exact ⟨gap.ordered, sits.holds.ordered, rest.ordered⟩
    · obtain ⟨first, own, last⟩ := ih leaf later
      exact ⟨Nat.le_trans gap.ordered (Nat.le_trans sits.holds.ordered first), own, last⟩

theorem Lies.sits (lies : Lies source start trees stop) : ∀ tree ∈ trees, Sits source tree := by
  induction trees generalizing start with
  | nil => simp
  | cons first rest ih =>
    cases lies with
    | cons gap sits later =>
      intro tree mem
      rcases List.mem_cons.mp mem with rfl | mem
      · exact sits
      · exact ih later tree mem

theorem Lies.split (lies : Lies source start (left ++ tree :: right) stop) :
    ∃ reached, Lies source start left reached ∧ Blank source reached tree.span.startByte ∧
      Lies source tree.span.endByte right stop := by
  induction left generalizing start with
  | nil =>
    cases lies with
    | cons gap sits later => exact ⟨start, .nil, gap, later⟩
  | cons first rest ih =>
    cases lies with
    | cons gap sits later =>
      obtain ⟨reached, before, between, after⟩ := ih later
      exact ⟨reached, .cons gap sits before, between, after⟩

theorem leavesOf_append (left right : List Tree) :
    leavesOf (left ++ right) = leavesOf left ++ leavesOf right := by
  induction left with
  | nil => rfl
  | cons tree rest ih => rw [List.cons_append, leavesOf, leavesOf, ih, List.append_assoc]

end Spread

/-- The offset parts the leaves of the source. Between it and the leaves before it there are only
blanks, and the same holds for those after it. -/
structure Cut (parsed : Parsed) (offset : Nat) (left right : List Tree) : Prop where
  whole : parsed.tree.leaves = left ++ right
  before : ∃ reached, Spread parsed.source 0 left reached ∧ Blank parsed.source reached offset
  after : ∃ stop, Spread parsed.source offset right stop

/-- Leaves that come next are added to those before a cut. -/
theorem spread_on {source : Text} {start stop : Nat} {left middle : List Tree}
    (before : ∃ reached, Spread source 0 left reached ∧ Blank source reached start)
    (next : Spread source start middle stop) (boundary : Text.Boundary source stop) :
    ∃ reached, Spread source 0 (left ++ middle) reached ∧ Blank source reached stop := by
  obtain ⟨reached, spread, gap⟩ := before
  cases middle with
  | nil =>
    cases next
    exact ⟨reached, by rw [List.append_nil]; exact spread, gap⟩
  | cons leaf rest =>
    exact ⟨stop, spread.append (next.after_blank gap (List.cons_ne_nil _ _)), .here boundary⟩

theorem Spread.boundary {source : Text} {start stop : Nat} {leaves : List Tree}
    (spread : Spread source start leaves stop) (boundary : Text.Boundary source start) :
    Text.Boundary source stop := by
  induction spread with
  | nil => exact boundary
  | cons gap sits closed _ ih => exact ih sits.holds.boundaries.2

/-- A tree, or one of its parts, or a part of one of these. -/
inductive Below : Tree → Tree → Prop where
  | here {tree : Tree} : Below tree tree
  | step {tree part inner : Tree} (split : tree.isClosed = false) (mem : part ∈ tree.children)
      (rest : Below part inner) : Below tree inner

theorem Below.trans {tree part inner : Tree} (first : Below tree part) (second : Below part inner) :
    Below tree inner := by
  induction first with
  | here => exact second
  | step split mem _ ih => exact .step split mem (ih second)

/-- The parts of a tree lie in it, one after the other. -/
theorem Lies.bounds {source : Text} {start stop : Nat} {trees : List Tree}
    (lies : Lies source start trees stop) :
    (∀ tree ∈ trees, start ≤ tree.span.startByte ∧ tree.span.endByte ≤ stop) ∧
      trees.Pairwise fun left right => left.span.endByte ≤ right.span.startByte := by
  induction trees generalizing start with
  | nil => simp
  | cons first rest ih =>
    cases lies with
    | cons gap sits later =>
      obtain ⟨inside, apart⟩ := ih later
      have before := gap.ordered
      have own := sits.holds.ordered
      have reach := later.spread.ordered
      refine ⟨?_, List.pairwise_cons.mpr ⟨fun tree mem => (inside tree mem).1, apart⟩⟩
      intro tree mem
      rcases List.mem_cons.mp mem with rfl | mem
      · exact ⟨before, reach⟩
      · obtain ⟨from_, upto⟩ := inside tree mem
        exact ⟨by omega, upto⟩

theorem Sits.lies {source : Text} {tree : Tree} (sits : Sits source tree)
    (split : tree.isClosed = false) :
    Lies source tree.span.startByte tree.children tree.span.endByte := by
  cases sits with
  | leaf closed => rw [closed] at split; cases split
  | node _ _ _ parts construct brackets => exact parts

theorem Below.bounds {source : Text} {tree inner : Tree} (below : Below tree inner)
    (sits : Sits source tree) :
    tree.span.startByte ≤ inner.span.startByte ∧ inner.span.endByte ≤ tree.span.endByte := by
  induction below with
  | here => exact ⟨Nat.le_refl _, Nat.le_refl _⟩
  | step split mem _ ih =>
    have lies := sits.lies split
    obtain ⟨from_, upto⟩ := lies.bounds.1 _ mem
    obtain ⟨start, stop⟩ := ih (lies.sits _ mem)
    exact ⟨Nat.le_trans from_ start, Nat.le_trans stop upto⟩

/-- One span lies in the other, or they lie apart. -/
def Nested (left right : Span) : Prop :=
  left.endByte ≤ right.startByte ∨ right.endByte ≤ left.startByte ∨
    (left.startByte ≤ right.startByte ∧ right.endByte ≤ left.endByte) ∨
    (right.startByte ≤ left.startByte ∧ left.endByte ≤ right.endByte)

theorem order_of_pairwise {α : Type} {list : List α} {before : α → α → Prop}
    (ordered : list.Pairwise before) {first second : α} (one : first ∈ list) (two : second ∈ list) :
    first = second ∨ before first second ∨ before second first := by
  induction ordered with
  | nil => cases one
  | cons ahead _ ih =>
    rcases List.mem_cons.mp one with rfl | left
    · rcases List.mem_cons.mp two with rfl | right
      · exact .inl rfl
      · exact .inr (.inl (ahead _ right))
    · rcases List.mem_cons.mp two with rfl | right
      · exact .inr (.inr (ahead _ left))
      · exact ih left right

/-- Trees below two that lie side by side lie apart. -/
private theorem nested_of_lies {source : Text} {start stop : Nat} {trees : List Tree}
    {first second left right : Tree} (lies : Lies source start trees stop) (one : first ∈ trees)
    (two : second ∈ trees) (inner : Below first left) (other : Below second right)
    (same : first = second → Nested left.span right.span) : Nested left.span right.span := by
  obtain ⟨left_from, left_upto⟩ := inner.bounds (lies.sits first one)
  obtain ⟨right_from, right_upto⟩ := other.bounds (lies.sits second two)
  rcases order_of_pairwise lies.bounds.2 one two with equal | before | after
  · exact same equal
  · exact .inl (by omega)
  · exact .inr (.inl (by omega))

theorem Below.nested {source : Text} {tree left right : Tree} (sits : Sits source tree)
    (first : Below tree left) (second : Below tree right) : Nested left.span right.span := by
  induction first with
  | here => exact .inr (.inr (.inl (second.bounds sits)))
  | step split mem inner ih =>
    cases second with
    | here => exact .inr (.inr (.inr ((Below.step split mem inner).bounds sits)))
    | step _ among other =>
      refine nested_of_lies (sits.lies split) mem among inner other ?_
      rintro rfl
      exact ih ((sits.lies split).sits _ mem) other

/-- The tree stands in the tree of the source, follows the grammar and holds no repair. The source
may be cut where it starts and where it ends. -/
structure Placed (parsed : Parsed) (tree : Tree) : Prop where
  sits : Sits parsed.source tree
  sound : tree.hasError = false
  below : ∃ part ∈ parsed.tree.children, Below part tree
  cuts : ∃ left right, Cut parsed tree.span.startByte left (tree.leaves ++ right) ∧
    Cut parsed tree.span.endByte (left ++ tree.leaves) right

theorem sound_of_mem {trees : List Tree} {tree : Tree} (sound : anyError trees = false)
    (mem : tree ∈ trees) : tree.hasError = false := by
  induction trees with
  | nil => cases mem
  | cons first rest ih =>
    rw [anyError, Bool.or_eq_false_iff] at sound
    rcases List.mem_cons.mp mem with rfl | later
    · exact sound.1
    · exact ih sound.2 later

/-- Trees that lie side by side between two cuts may be cut apart. -/
private theorem cuts_of_lies {parsed : Parsed} {start stop : Nat} {trees left right : List Tree}
    {tree : Tree} (lies : Lies parsed.source start trees stop)
    (first : Cut parsed start left (leavesOf trees ++ right))
    (last : Cut parsed stop (left ++ leavesOf trees) right) (mem : tree ∈ trees) :
    ∃ left right, Cut parsed tree.span.startByte left (tree.leaves ++ right) ∧
      Cut parsed tree.span.endByte (left ++ tree.leaves) right := by
  obtain ⟨front, back, split⟩ := List.append_of_mem mem
  have here := (lies.sits tree mem).holds.boundaries
  have own := (lies.sits tree mem).spread
  rw [split] at lies first
  obtain ⟨reached, before, gap, after⟩ := lies.split
  have boundary := gap.boundaries.1
  have earlier := spread_on first.before before.spread boundary
  obtain ⟨stop, later⟩ := last.after
  have later := after.spread.append later
  have whole := first.whole
  rw [leavesOf_append, leavesOf] at whole
  have until_start : ∃ reached, Spread parsed.source 0 (left ++ leavesOf front) reached ∧
      Blank parsed.source reached tree.span.startByte := by
    obtain ⟨at_, spread, blank⟩ := earlier
    exact ⟨at_, spread, blank.append gap⟩
  exact ⟨left ++ leavesOf front, leavesOf back ++ right,
    ⟨by simp [whole], until_start, _, own.append later⟩,
    ⟨by simp [whole], spread_on until_start own here.2, _, later⟩⟩

theorem Placed.child {parsed : Parsed} {tree part : Tree} (placed : Placed parsed tree)
    (split : tree.isClosed = false) (mem : part ∈ tree.children) : Placed parsed part := by
  obtain ⟨sits, sound, ⟨top, among, below⟩, left, right, first, last⟩ := placed
  have lies := sits.lies split
  obtain ⟨label, children⟩ := tree
  rw [leaves_of_split split] at first last
  rw [hasError, Bool.or_eq_false_iff] at sound
  exact ⟨lies.sits part mem, sound_of_mem sound.2 mem,
    ⟨top, among, below.trans (.step split mem .here)⟩, cuts_of_lies lies first last mem⟩

/-- The parts of the whole tree are placed. -/
theorem placed_part {parsed : Parsed} {part : Tree} (grammatical : parsed.Grammatical)
    (sound : parsed.hasErrors = false) (mem : part ∈ parsed.tree.children) :
    Placed parsed part := by
  have among := mem
  obtain ⟨label, children, stop, tree, kind, -, lies⟩ := grammatical
  rw [tree] at mem
  rw [Parsed.hasErrors, tree, hasError, Bool.or_eq_false_iff] at sound
  have split : isClosed (node label children) = false := by
    cases children with
    | nil => cases mem
    | cons => simp [isClosed, kind]
  have whole : parsed.tree.leaves = leavesOf children := by rw [tree, leaves_of_split split]
  have origin : Text.Boundary parsed.source 0 := ⟨[], parsed.source, rfl, rfl⟩
  have first : Cut parsed 0 [] (leavesOf children ++ []) :=
    ⟨by simp [whole], ⟨0, .nil, .here origin⟩, stop, by rw [List.append_nil]; exact lies.spread⟩
  have last : Cut parsed stop ([] ++ leavesOf children) [] :=
    ⟨by simp [whole], ⟨stop, lies.spread, .here (lies.spread.boundary origin)⟩, stop, .nil⟩
  exact ⟨lies.sits part mem, sound_of_mem sound.2 mem, ⟨part, among, .here⟩,
    cuts_of_lies lies first last mem⟩

/-- Of two placed trees one lies in the other, or they lie apart. -/
theorem Placed.nested {parsed : Parsed} {left right : Tree} (grammatical : parsed.Grammatical)
    (first : Placed parsed left) (second : Placed parsed right) : Nested left.span right.span := by
  obtain ⟨one, among, inner⟩ := first.below
  obtain ⟨two, mem, other⟩ := second.below
  obtain ⟨label, children, stop, tree, -, -, lies⟩ := grammatical
  rw [tree] at among mem
  refine nested_of_lies lies among mem inner other ?_
  rintro rfl
  exact inner.nested (lies.sits _ among) other

theorem sizeOf_part {tree part : Tree} (mem : part ∈ tree.children) : sizeOf part < sizeOf tree := by
  obtain ⟨label, parts⟩ := tree
  have smaller : sizeOf part < sizeOf parts := List.sizeOf_lt_of_mem mem
  rw [node.sizeOf_spec]
  omega

theorem Placed.argument {parsed : Parsed} {part inner : Tree} (placed : Placed parsed part)
    (kind : part.kind = "argument_list") (mem : inner ∈ part.children) : Placed parsed inner := by
  refine placed.child ?_ mem
  obtain ⟨label, children⟩ := part
  have named : label.kind = "argument_list" := kind
  cases children with
  | nil => cases mem
  | cons => simp [isClosed, named]

end Python.Tree

end LambdaLayout
