import LambdaLayout.Extract
import LambdaLayout.Proofs.TokensKept
import Mathlib.Data.List.Lex

/-!
A walk through a tree with a cursor that knows three moves: to the first child, to the next sibling
and to the parent. The walk enters a node only if it holds a repair, and otherwise, or when there is
nothing to enter, it climbs until a next sibling is found. It finds the repairs of the tree, each
once and in order, and there are none exactly if the root holds none.

A visit is a node together with the way back to the root, so visits of equal nodes at two places
differ. What carries the walk is the list of the visits still to come: every step takes the visit at
hand and some visits without repairs off its front.
-/

namespace LambdaLayout.Python

namespace Tree

/-- One level of the way from a node to the root: the label of the parent, and the siblings of the
node, those before it with the nearest first, and those after it. -/
structure Level where
  label : Label
  before : List Tree
  after : List Tree

/-- The parent, with a node put in the place that the level leaves open. -/
def Level.close (level : Level) (node : Tree) : Tree :=
  .node level.label (level.before.reverse ++ node :: level.after)

/-- A node of a tree, with the levels from it to the root. -/
structure Visit where
  node : Tree
  levels : List Level

namespace Visit

/-- The tree that the visited node belongs to. -/
def root (visit : Visit) : Tree :=
  visit.levels.foldl (fun node level => level.close node) visit.node

/-- The place of the visited node: on each level from the root on, how many siblings come before. -/
def place (visit : Visit) : List Nat :=
  (visit.levels.map fun level => level.before.length).reverse

/-- The visit of the first child. -/
def firstChild? : Visit → Option Visit
  | ⟨.node label (child :: rest), levels⟩ => some ⟨child, ⟨label, [], rest⟩ :: levels⟩
  | ⟨.node _ [], _⟩ => none

/-- The visit of the next sibling. -/
def nextSibling? : Visit → Option Visit
  | ⟨node, ⟨label, before, next :: after⟩ :: levels⟩ =>
    some ⟨next, ⟨label, node :: before, after⟩ :: levels⟩
  | _ => none

/-- The visit of the parent. -/
def parent? : Visit → Option Visit
  | ⟨node, level :: levels⟩ => some ⟨level.close node, levels⟩
  | ⟨_, []⟩ => none

/-- A parent is one level nearer to the root. -/
theorem parent?_levels {visit parent : Visit} (up : visit.parent? = some parent) :
    parent.levels.length < visit.levels.length := by
  obtain ⟨node, _ | ⟨level, levels⟩⟩ := visit
  · cases up
  · cases up
    exact Nat.lt_succ_self _

/-- The next sibling of the node, or of the nearest node above it that has one. -/
def climb? (visit : Visit) : Option Visit :=
  match visit.nextSibling? with
  | some next => some next
  | none =>
    match _ : visit.parent? with
    | none => none
    | some parent => climb? parent
termination_by visit.levels.length
decreasing_by exact parent?_levels ‹_›

/-- Where a walk goes from a visit: into the node if it holds a repair and has children, and else to
what follows it. -/
def onward? (visit : Visit) : Option Visit :=
  match if visit.node.hasError then visit.firstChild? else none with
  | some child => some child
  | none => visit.climb?

end Visit

mutual

/-- The visits of a node and of everything below it, each node before its children. -/
def visits (levels : List Level) : Tree → List Visit
  | .node label children =>
    ⟨.node label children, levels⟩ :: visitsFrom label [] levels children

/-- The visits of siblings that come after others, and of everything below them. -/
def visitsFrom (label : Label) (before : List Tree) (levels : List Level) :
    List Tree → List Visit
  | [] => []
  | tree :: rest =>
    visits (⟨label, before, rest⟩ :: levels) tree ++
      visitsFrom label (tree :: before) levels rest

end

/-- The visits that come after a node and everything below it. -/
def visitsAfter (node : Tree) : List Level → List Visit
  | [] => []
  | level :: levels =>
    visitsFrom level.label (node :: level.before) levels level.after ++
      visitsAfter (level.close node) levels

/-- The visits that are still to come at a visit, itself included. -/
def Visit.ahead (visit : Visit) : List Visit :=
  visits visit.levels visit.node ++ visitsAfter visit.node visit.levels

section Step

variable {visit child : Visit}

/-- After the step to the first child, the visit left behind is the only one that is done. -/
theorem ahead_firstChild (down : visit.firstChild? = some child) :
    visit.ahead = visit :: child.ahead := by
  obtain ⟨⟨label, _ | ⟨first, rest⟩⟩, levels⟩ := visit
  · cases down
  · cases down
    simp [Visit.ahead, visits, visitsFrom, visitsAfter, Level.close]

/-- Climbing leads to the first of the visits that come after a node and everything below it. -/
theorem visitsAfter_eq (visit : Visit) :
    visitsAfter visit.node visit.levels = visit.climb?.elim [] Visit.ahead := by
  fun_induction Visit.climb? visit with
  | case1 visit next sibling =>
    obtain ⟨node, _ | ⟨⟨label, before, _ | ⟨tree, after⟩⟩, levels⟩⟩ := visit
    · cases sibling
    · cases sibling
    · cases sibling
      simp [Visit.ahead, visitsFrom, visitsAfter, Level.close]
  | case2 visit alone top =>
    obtain ⟨node, _ | ⟨level, levels⟩⟩ := visit
    · rfl
    · cases top
  | case3 visit alone parent up ih =>
    obtain ⟨node, _ | ⟨⟨label, before, _ | ⟨tree, after⟩⟩, levels⟩⟩ := visit
    · cases up
    · cases up
      rw [← ih, visitsAfter, visitsFrom, List.nil_append]
    · cases alone

end Step

section Repairs

mutual

/-- A node holds a repair exactly if one of the visits of it and of what is below it is at a
repair. -/
theorem any_visits (levels : List Level) : ∀ tree : Tree,
    (visits levels tree).any (fun visit => visit.node.isRepair) = tree.hasError
  | .node label children => by
    rw [visits, List.any_cons, any_visitsFrom, hasError]
    rfl

theorem any_visitsFrom (label : Label) (before : List Tree) (levels : List Level) :
    ∀ trees : List Tree,
      (visitsFrom label before levels trees).any (fun visit => visit.node.isRepair) =
        anyError trees
  | [] => rfl
  | tree :: rest => by
    rw [visitsFrom, List.any_append, any_visits, any_visitsFrom, anyError]

end

/-- Below a node without repairs nothing is found. -/
theorem filter_visits {levels : List Level} {tree : Tree} (sound : tree.hasError = false) :
    (visits levels tree).filter (fun visit => visit.node.isRepair) = [] := by
  rw [← any_visits levels, List.any_eq_false] at sound
  exact List.filter_eq_nil_iff.mpr sound

mutual

/-- The repairs of a tree are the nodes of the visits that are at a repair. -/
theorem repairs_eq (levels : List Level) : ∀ tree : Tree,
    tree.repairs =
      ((visits levels tree).filter fun visit => visit.node.isRepair).map Visit.node
  | .node label children => by
    cases sound : hasError (.node label children) with
    | false => rw [repairs_of_sound sound, filter_visits sound, List.map_nil]
    | true =>
      rw [repairs, sound, if_pos rfl, repairsOf_eq label [] levels children, visits,
        List.filter_cons]
      show (if isRepair (.node label children) then _ else _) = _
      split <;> rfl

theorem repairsOf_eq (label : Label) (before : List Tree) (levels : List Level) :
    ∀ trees : List Tree, repairsOf trees =
      ((visitsFrom label before levels trees).filter fun visit => visit.node.isRepair).map
        Visit.node
  | [] => rfl
  | tree :: rest => by
    rw [repairsOf, visitsFrom, List.filter_append, List.map_append, repairs_eq, repairsOf_eq]

end

end Repairs

section Walk

/-- A walk that does not enter a node leaves no repair behind below it. -/
theorem visitsFrom_unentered {label : Label} {children : List Tree} {levels : List Level}
    (unentered : (if (node label children).hasError then
      Visit.firstChild? ⟨node label children, levels⟩ else none) = none) :
    ∀ other ∈ visitsFrom label [] levels children, other.node.isRepair = false := by
  cases sound : (node label children).hasError with
  | false =>
    rw [hasError, Bool.or_eq_false_iff, ← any_visitsFrom label [] levels] at sound
    simpa using sound.2
  | true =>
    rw [sound, if_pos rfl] at unentered
    cases children with
    | nil => exact nofun
    | cons => cases unentered

/-- What one step does: it takes the visit at hand off those to come, and some others that are at no
repair. -/
theorem ahead_onward (visit : Visit) : ∃ skipped,
    visit.ahead = visit :: (skipped ++ visit.onward?.elim [] Visit.ahead) ∧
      ∀ other ∈ skipped, other.node.isRepair = false := by
  rw [Visit.onward?]
  split
  · next child entered =>
    split at entered
    · exact ⟨[], ahead_firstChild entered, nofun⟩
    · cases entered
  · next unentered =>
    obtain ⟨⟨label, children⟩, levels⟩ := visit
    refine ⟨visitsFrom label [] levels children, ?_, visitsFrom_unentered unentered⟩
    rw [← visitsAfter_eq]
    rfl

/-- A step leaves less to come. -/
theorem ahead_shorter {visit next : Visit} (step : visit.onward? = some next) :
    next.ahead.length < visit.ahead.length := by
  obtain ⟨skipped, ahead, -⟩ := ahead_onward visit
  rw [ahead, step, List.length_cons, List.length_append]
  exact Nat.lt_succ_of_le (Nat.le_add_left _ _)

end Walk

/-- The repairs that a walk finds from a visit on. -/
def Visit.walk (visit : Visit) : List Visit :=
  let here := if visit.node.isRepair then [visit] else []
  match _ : visit.onward? with
  | none => here
  | some next => here ++ walk next
termination_by visit.ahead.length
decreasing_by exact ahead_shorter ‹_›

section Run

/-- Of the repairs to come, a step deals with the one at hand, if any, and leaves the others. -/
theorem repairs_onward (visit : Visit) :
    visit.ahead.filter (fun other => other.node.isRepair) =
      (if visit.node.isRepair then [visit] else []) ++
        (visit.onward?.elim [] Visit.ahead).filter fun other => other.node.isRepair := by
  obtain ⟨skipped, ahead, clean⟩ := ahead_onward visit
  have none : skipped.filter (fun other => other.node.isRepair) = [] :=
    List.filter_eq_nil_iff.mpr fun other mem => by simp [clean other mem]
  rw [ahead, List.filter_cons, List.filter_append, none, List.nil_append]
  split <;> rfl

/-- A walk finds those of the visits to come that are at a repair. -/
theorem walk_eq (visit : Visit) :
    visit.walk = visit.ahead.filter fun other => other.node.isRepair := by
  fun_induction Visit.walk visit with
  | case1 visit here stop =>
    rw [repairs_onward, stop]
    exact (List.append_nil _).symm
  | case2 visit here next step ih =>
    rw [repairs_onward, step, ih]
    rfl

end Run

section Places

/-- The repairs of a tree are listed, each of them once, a node before what is below it and siblings
in their order. -/
structure ListsRepairs (tree : Tree) (found : List Visit) : Prop where
  ordered : (found.map Visit.place).Pairwise (· < ·)
  exact : ∀ visit, visit ∈ found ↔ visit.root = tree ∧ visit.node.isRepair = true

/-- The visits belong to one tree, they are at or below the children of the node at a place from an
index on, and they come in the order of their places. -/
structure Descends (tree : Tree) (above : List Nat) (first : Nat) (found : List Visit) : Prop where
  belongs : ∀ visit ∈ found, visit.root = tree
  below : ∀ visit ∈ found, ∃ index rest, first ≤ index ∧ visit.place = above ++ index :: rest
  ordered : (found.map Visit.place).Pairwise (· < ·)

variable {tree : Tree} {above : List Nat} {first : Nat} {visit : Visit}
  {inner others : List Visit}

/-- A child and what is below it start with the index of the child. -/
theorem Descends.starts (place : visit.place = above ++ [first])
    (below : Descends tree visit.place 0 inner) :
    ∀ other ∈ visit :: inner, ∃ rest, other.place = above ++ first :: rest := by
  refine List.forall_mem_cons.mpr ⟨⟨[], place⟩, fun other mem => ?_⟩
  obtain ⟨index, rest, -, deeper⟩ := below.below other mem
  exact ⟨index :: rest, by rw [deeper, place, List.append_assoc]; rfl⟩

/-- A child is visited before what is below it, and that before the next child. -/
theorem Descends.cons (belongs : visit.root = tree) (place : visit.place = above ++ [first])
    (below : Descends tree visit.place 0 inner) (next : Descends tree above (first + 1) others) :
    Descends tree above first (visit :: inner ++ others) where
  belongs :=
    List.forall_mem_append.mpr ⟨List.forall_mem_cons.mpr ⟨belongs, below.belongs⟩, next.belongs⟩
  below := by
    refine List.forall_mem_append.mpr ⟨fun other mem => ?_, fun other mem => ?_⟩
    · obtain ⟨rest, starts⟩ := below.starts place other mem
      exact ⟨first, rest, Nat.le_refl _, starts⟩
    · obtain ⟨index, rest, later, beside⟩ := next.below other mem
      exact ⟨index, rest, Nat.le_of_succ_le later, beside⟩
  ordered := by
    rw [List.map_append, List.pairwise_append]
    refine ⟨List.pairwise_cons.mpr ⟨?_, below.ordered⟩, next.ordered, ?_⟩
    · intro deeper mem
      obtain ⟨other, among, rfl⟩ := List.mem_map.mp mem
      obtain ⟨index, rest, -, deeper⟩ := below.below other among
      have longer : visit.place ++ [] < visit.place ++ index :: rest :=
        List.Lex.append_left _ .nil _
      rwa [List.append_nil, ← deeper] at longer
    · intro left one right two
      obtain ⟨other, among, rfl⟩ := List.mem_map.mp one
      obtain ⟨later, follows, rfl⟩ := List.mem_map.mp two
      obtain ⟨rest, starts⟩ := below.starts place other among
      obtain ⟨index, tail, apart, beside⟩ := next.below later follows
      rw [starts, beside]
      exact List.Lex.append_left _ (.rel (Nat.lt_of_succ_le apart)) _

/-- The visits of siblings and of what is below them descend from the parent. -/
theorem visitsFrom_descend (label : Label) (before : List Tree) (levels : List Level) :
    ∀ trees : List Tree,
      Descends (Visit.root ⟨node label (before.reverse ++ trees), levels⟩)
        (Visit.place ⟨node label (before.reverse ++ trees), levels⟩) before.length
        (visitsFrom label before levels trees)
  | [] => ⟨nofun, nofun, .nil⟩
  | node inner children :: rest => by
    have below := visitsFrom_descend inner [] (⟨label, before, rest⟩ :: levels) children
    have next := visitsFrom_descend label (node inner children :: before) levels rest
    rw [List.reverse_cons, List.append_assoc] at next
    rw [visitsFrom, visits]
    exact .cons rfl (by simp [Visit.place]) below next

end Places

section Whole

variable {tree : Tree} {visit : Visit} {levels : List Level}

theorem mem_visits_self (visit : Visit) : visit ∈ visits visit.levels visit.node := by
  obtain ⟨⟨label, children⟩, levels⟩ := visit
  exact List.mem_cons_self

/-- What is visited from one of the visits of siblings on is visited among the siblings. -/
theorem visitsFrom_trans (label : Label) (before : List Tree) (levels : List Level) :
    ∀ trees : List Tree, visit ∈ visitsFrom label before levels trees →
      visits visit.levels visit.node ⊆ visitsFrom label before levels trees
  | [], mem => nomatch mem
  | node inner children :: rest, mem => by
    rw [visitsFrom, visits, List.cons_append, List.mem_cons, List.mem_append] at mem
    rw [visitsFrom]
    rcases mem with rfl | below | later
    · exact List.subset_append_left _ _
    · have deeper := visitsFrom_trans inner [] (⟨label, before, rest⟩ :: levels) children below
      exact List.subset_append_of_subset_left _ (List.subset_cons_of_subset _ deeper)
    · exact List.subset_append_of_subset_right _
        (visitsFrom_trans label (node inner children :: before) levels rest later)

theorem visits_trans (mem : visit ∈ visits levels tree) :
    visits visit.levels visit.node ⊆ visits levels tree := by
  obtain ⟨label, children⟩ := tree
  rcases List.mem_cons.mp mem with rfl | below
  · exact List.Subset.refl _
  · exact List.subset_cons_of_subset _ (visitsFrom_trans label [] levels children below)

/-- What is visited after some siblings is visited among all of them. -/
theorem visitsFrom_append {label : Label} {before front rest : List Tree}
    (mem : visit ∈ visitsFrom label (front.reverse ++ before) levels rest) :
    visit ∈ visitsFrom label before levels (front ++ rest) := by
  induction front generalizing before with
  | nil => exact mem
  | cons tree front ih =>
    rw [List.reverse_cons, List.append_assoc] at mem
    exact List.mem_append_right _ (ih mem)

/-- A node is among the children of its parent. -/
theorem mem_visits_close (node : Tree) (level : Level) (levels : List Level) :
    ⟨node, level :: levels⟩ ∈ visits levels (level.close node) := by
  refine List.mem_cons_of_mem _ (visitsFrom_append ?_)
  rw [List.reverse_reverse, List.append_nil]
  exact List.mem_append_left _ (mem_visits_self ⟨node, level :: levels⟩)

/-- Every visit of a node of a tree is among the visits of the tree. -/
theorem mem_visits_root (node : Tree) (levels : List Level) :
    ⟨node, levels⟩ ∈ visits [] (Visit.root ⟨node, levels⟩) := by
  induction levels generalizing node with
  | nil => exact mem_visits_self ⟨node, []⟩
  | cons level levels ih =>
    exact visits_trans (ih (level.close node)) (mem_visits_close node level levels)

/-- The visits of a tree are those of its nodes. -/
theorem mem_visits_iff : visit ∈ visits [] tree ↔ visit.root = tree := by
  constructor
  · intro mem
    obtain ⟨label, children⟩ := tree
    rcases List.mem_cons.mp mem with rfl | below
    · rfl
    · exact (visitsFrom_descend label [] [] children).belongs visit below
  · rintro rfl
    exact mem_visits_root visit.node visit.levels

/-- The visits of a tree come in the order of their places. -/
theorem visits_ordered (tree : Tree) : ((visits [] tree).map Visit.place).Pairwise (· < ·) := by
  obtain ⟨label, children⟩ := tree
  have descends := visitsFrom_descend label [] [] children
  refine List.pairwise_cons.mpr ⟨fun place mem => ?_, descends.ordered⟩
  obtain ⟨visit, among, rfl⟩ := List.mem_map.mp mem
  obtain ⟨index, rest, -, place⟩ := descends.below visit among
  rw [place]
  exact .nil

/-- A node holds a repair if it is one or a node below it is. -/
theorem hasError_iff (tree : Tree) : tree.hasError = true ↔
    ∃ visit : Visit, visit.root = tree ∧ visit.node.isRepair = true := by
  simp only [← any_visits [], List.any_eq_true, mem_visits_iff]

/-- A walk from the root of a tree finds those of its visits that are at a repair. -/
theorem walk_root (tree : Tree) : Visit.walk ⟨tree, []⟩ =
    (visits [] tree).filter fun visit => visit.node.isRepair := by
  have ahead : Visit.ahead ⟨tree, []⟩ = visits [] tree := List.append_nil _
  rw [walk_eq, ahead]

/-- A walk from the root of a tree lists its repairs. -/
theorem walk_lists (tree : Tree) : ListsRepairs tree (Visit.walk ⟨tree, []⟩) := by
  rw [walk_root]
  refine ⟨(visits_ordered tree).sublist (List.filter_sublist.map _), fun visit => ?_⟩
  rw [List.mem_filter, mem_visits_iff]

end Whole

end Tree

namespace Parsed

/-- The complaints about a source that a walk through its tree finds. There is no walk if the root
holds no repair. -/
def walked (parsed : Parsed) : List Complaint :=
  if parsed.hasErrors then
    (Tree.Visit.walk ⟨parsed.tree, []⟩).map fun visit => Complaint.ofTree visit.node
  else []

/-- The complaints are about the repairs that a walk from the root finds. -/
theorem errors_eq_map (parsed : Parsed) : parsed.errors =
    (Tree.Visit.walk ⟨parsed.tree, []⟩).map fun visit => Complaint.ofTree visit.node := by
  rw [errors, Tree.repairs_eq [], Tree.walk_root, List.map_map]
  rfl

/-- Where there is no walk, there are no complaints. -/
theorem errors_eq_walked (parsed : Parsed) : parsed.errors = parsed.walked := by
  rw [walked]
  cases sound : parsed.hasErrors with
  | false => exact errors_of_sound sound
  | true => exact errors_eq_map parsed

/-- There are complaints about a source exactly if the root of its tree holds a repair. -/
theorem errors_eq_nil_iff (parsed : Parsed) : parsed.errors = [] ↔ parsed.hasErrors = false :=
  ⟨sound_of_errors, errors_of_sound⟩

theorem broken_of_errors {parsed : Parsed} {complaint : Complaint} {rest : List Complaint}
    (complaints : parsed.errors = complaint :: rest) : parsed.hasErrors = true := by
  rw [← Bool.not_eq_false, ← errors_eq_nil_iff, complaints]
  exact List.cons_ne_nil _ _

end Parsed

end LambdaLayout.Python

namespace LambdaLayout

namespace Reformat

/-- A comparison of tokens does not say that a text is unreadable. -/
theorem firstDifference_parsable (index line column : Nat) (before after : List Mark) :
    firstDifference index before after ≠ some (.unparsable line column) := by
  fun_induction firstDifference index before after with
  | case1 index before left right ih => exact ih
  | case2 | case3 =>
    intro same
    cases same

theorem compareMarks_parsable (line column : Nat) (before after : List Mark) :
    compareMarks before after ≠ some (.unparsable line column) := by
  rw [compareMarks]
  split
  · next mismatch found =>
    rw [← found]
    exact firstDifference_parsable 0 line column before after
  · split <;> intro same <;> cases same

/-- A text is refused as unreadable exactly if it does not follow the grammar. -/
theorem mismatch_unparsable_iff {parse : Text → Python.Parsed} (tokens : List Token)
    (output : Text) :
    (∃ line column, mismatch? tokens output parse = some (.unparsable line column)) ↔
      (parse output).hasErrors = true := by
  rw [mismatch?]
  cases complaints : (parse output).errors with
  | nil =>
    simp [compareMarks_parsable, Python.Parsed.sound_of_errors complaints]
  | cons complaint rest =>
    exact ⟨fun _ => Python.Parsed.broken_of_errors complaints, fun _ => ⟨_, _, rfl⟩⟩

end Reformat

namespace Extract

/-- A search in a statement does not say that a source is unreadable. -/
theorem onlyMatch_parsable (pattern : Pattern) (identifier reason : Text) (statement : Node) :
    onlyMatch pattern identifier statement ≠ .error (.unparsable reason) := by
  rw [onlyMatch]
  split <;> intro same <;> cases same

/-- The refusal of a pattern does not say that a source is unreadable. -/
theorem ofText_parsable (text reason : Text) :
    Pattern.ofText text ≠ .error (.unparsable reason) := by
  rw [Pattern.ofText]
  split <;> intro same <;> cases same

/-- A source is refused as unreadable exactly if there is a pattern to search it for and, dedented,
it does not follow the grammar. -/
theorem call_unparsable_iff {parse : Text → Python.Parsed} (source keyword identifier : Text) :
    (∃ reason, call source keyword identifier parse = .error (.unparsable reason)) ↔
      (∃ pattern, Pattern.singleCall keyword identifier = .ok pattern) ∧
        (parse (Text.dedent source)).hasErrors = true := by
  rw [call]
  cases compiled : Pattern.singleCall keyword identifier with
  | error failure =>
    refine ⟨fun ⟨reason, failed⟩ => ?_, nofun⟩
    cases failed
    exact absurd compiled (ofText_parsable _ _)
  | ok pattern =>
    simp only [bind, Except.bind]
    cases complaints : (parse (Text.dedent source)).errors with
    | nil =>
      have sound := Python.Parsed.sound_of_errors complaints
      refine ⟨fun ⟨reason, failed⟩ => ?_, fun ⟨_, broken⟩ => ?_⟩
      · simp only [List.head?_nil] at failed
        split at failed
        · cases failed
        · exact absurd failed (onlyMatch_parsable _ _ _ _)
      · rw [sound] at broken
        cases broken
    | cons complaint rest =>
      have broken := Python.Parsed.broken_of_errors complaints
      exact ⟨fun _ => ⟨⟨pattern, rfl⟩, broken⟩, fun _ => ⟨_, rfl⟩⟩

end Extract

namespace Python.Parsed

open LambdaLayout.Python.Tree (Visit ListsRepairs)

/-- A node holds a repair if it is one or a node below it is. The complaints about a source are what
a walk finds that enters only nodes that hold a repair: they are about the repairs of the tree, each
once and in order. There are none exactly if the root holds no repair, and so a text that was
laid out, and a source that is searched, are refused as unreadable exactly if it holds one. -/
theorem errors_list_repairs :
    (∀ tree : Tree, tree.hasError = true ↔
      ∃ visit : Visit, visit.root = tree ∧ visit.node.isRepair = true) ∧
    (∀ parsed : Parsed, parsed.errors = parsed.walked ∧
      (∃ found, parsed.errors = found.map (fun visit => Complaint.ofTree visit.node) ∧
        ListsRepairs parsed.tree found) ∧
      (parsed.errors = [] ↔ parsed.hasErrors = false)) ∧
    (∀ tokens output,
      (∃ line column, Reformat.mismatch? tokens output = some (.unparsable line column)) ↔
        (parse output).hasErrors = true) ∧
    ∀ source keyword identifier,
      (∃ reason, Extract.call source keyword identifier = .error (.unparsable reason)) ↔
        (∃ pattern, Pattern.singleCall keyword identifier = .ok pattern) ∧
          (parse (Text.dedent source)).hasErrors = true := by
  refine ⟨Tree.hasError_iff, fun parsed => ?_, Reformat.mismatch_unparsable_iff,
    Extract.call_unparsable_iff⟩
  exact ⟨parsed.errors_eq_walked, ⟨_, parsed.errors_eq_map, Tree.walk_lists parsed.tree⟩,
    parsed.errors_eq_nil_iff⟩

/-- A missing token below a node that could not be read comes after it; a node without repairs adds
nothing. -/
example :
    let name := Tree.leaf "identifier" true default
    let missing := Tree.node ⟨")", false, none, .missing, default⟩ []
    let whole := Tree.node ⟨"ERROR", true, none, .unreadable, default⟩ [name, missing, name]
    (errors ⟨[], whole⟩).map Complaint.message = ["syntax error", "missing )"] := by
  decide

end Python.Parsed

end LambdaLayout
