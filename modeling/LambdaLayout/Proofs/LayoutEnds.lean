import LambdaLayout.Proofs.ChainClauses
import LambdaLayout.Proofs.Outermost
import LambdaLayout.Proofs.PathMatches
import LambdaLayout.Proofs.SearchOrder
import Mathlib.Data.List.Count
import Mathlib.Data.List.MinMax
import Mathlib.Logic.Relation
import Mathlib.Order.Nat

/-!
Laying out comes to an end. The functions that lay out a source ask each other for the layout of
parts of a node and of stretches of source, and a stretch asks for the calls inside it, wherever in
the tree these are. One number goes down with everything that is asked for: first the number of
calls strictly inside the stretch, and as long as that stays the same the size of the node. It
suffices that the parts of each node lie in its span. A call that has no layout is copied as a
stretch with its own span, and from there the call itself is never asked for again.
-/

namespace LambdaLayout

open LambdaLayout.Span (contains_iff)

/-- The spans of the parts of a node. The label of an access is one of them. -/
def Node.partSpans : Node → List Span
  | .access _ object _ labelSpan => [object.span, labelSpan]
  | node => node.children.map Node.span

/-- The parts of the node lie in its span. -/
def Node.Encloses (node : Node) : Prop := ∀ part ∈ node.partSpans, node.span.contains part = true

instance (node : Node) : Decidable node.Encloses :=
  inferInstanceAs (Decidable (∀ part ∈ node.partSpans, node.span.contains part = true))

/-- The inner range lies in the outer one and is not the whole of it. -/
def Extent.Surrounds (outer inner : Extent) : Prop := outer.contains inner = true ∧ inner ≠ outer

namespace Extent

variable {first second third : Extent}

theorem contains_iff : first.contains second = true ↔
    first.start ≤ second.start ∧ second.stop ≤ first.stop := by
  simp [contains]

theorem contains_trans (one : first.contains second = true) (two : second.contains third = true) :
    first.contains third = true := by
  rw [contains_iff] at *
  omega

theorem Surrounds.inside (one : first.contains second = true) (two : second.Surrounds third) :
    first.Surrounds third := by
  refine ⟨contains_trans one two.1, fun same => two.2 ?_⟩
  subst same
  have back := two.1
  rw [contains_iff] at one back
  obtain ⟨_, _⟩ := second
  obtain ⟨_, _⟩ := third
  simp only [mk.injEq] at *
  omega

theorem Surrounds.within (one : first.Surrounds second) (two : second.contains third = true) :
    first.Surrounds third := by
  refine ⟨contains_trans one.1 two, fun same => one.2 ?_⟩
  subst same
  have around := one.1
  rw [contains_iff] at two around
  obtain ⟨_, _⟩ := second
  obtain ⟨_, _⟩ := third
  simp only [mk.injEq] at *
  omega

/-- A range inside another one is shorter. The ends of either need not be in order. -/
theorem Surrounds.shorter (inside : first.Surrounds second) :
    (second.stop - second.start : Int) < first.stop - first.start := by
  obtain ⟨contains, other⟩ := inside
  rw [contains_iff] at contains
  obtain ⟨_, _⟩ := first
  obtain ⟨_, _⟩ := second
  simp only [mk.injEq, ne_eq, not_and] at *
  omega

end Extent

namespace Node

variable {root node inner : Node}

theorem encloses_child (encloses : node.Encloses) {child : Node} (mem : child ∈ node.children) :
    node.span.contains child.span = true := by
  refine encloses child.span ?_
  cases node with
  | access span object label labelSpan =>
    rw [List.mem_singleton.mp mem]
    exact List.mem_cons_self
  | _ => exact List.mem_map_of_mem mem

/-- The nodes below the parts of a node. -/
def beneath (node : Node) : List Node := preorderOf node.children

theorem mem_beneath : inner ∈ node.beneath ↔ ∃ child ∈ node.children, inner ∈ child.preorder := by
  rw [beneath, preorderOf_eq, List.mem_flatMap]

theorem preorder_cons (node : Node) : node.preorder = node :: node.beneath := preorder_eq node

/-- What is below a node of a tree is in the tree. -/
theorem preorder_trans (mem : node ∈ root.preorder) :
    ∀ other ∈ node.preorder, other ∈ root.preorder := by
  induction root using of_children with
  | step root ih =>
    rw [preorder_cons] at mem
    rcases List.mem_cons.mp mem with rfl | deeper
    · exact fun other => id
    · obtain ⟨child, among, inside⟩ := mem_beneath.mp deeper
      intro other found
      rw [preorder_cons]
      have below := ih child among inside other found
      exact List.mem_cons_of_mem _ (mem_beneath.mpr ⟨child, among, below⟩)

theorem sizeOf_pos (node : Node) : 0 < sizeOf node := by
  cases node <;> simp +arith

theorem sizeOf_preorder (mem : inner ∈ node.preorder) : sizeOf inner ≤ sizeOf node := by
  induction node using of_children with
  | step node ih =>
    rw [preorder_cons] at mem
    rcases List.mem_cons.mp mem with rfl | deeper
    · exact Nat.le_refl _
    · obtain ⟨child, among, inside⟩ := mem_beneath.mp deeper
      exact Nat.le_trans (ih child among inside) (Nat.le_of_lt (sizeOf_child among))

theorem sizeOf_beneath (mem : inner ∈ node.beneath) : sizeOf inner < sizeOf node := by
  obtain ⟨child, among, inside⟩ := mem_beneath.mp mem
  exact Nat.lt_of_le_of_lt (sizeOf_preorder inside) (sizeOf_child among)

/-- What is below a node lies in its span. -/
theorem preorder_within (encloses : ∀ inner ∈ node.preorder, inner.Encloses) :
    ∀ inner ∈ node.preorder, node.span.contains inner.span = true := by
  induction node using of_children with
  | step node ih =>
    rw [preorder_cons, List.forall_mem_cons] at *
    refine ⟨Span.contains_refl _, fun inner mem => ?_⟩
    obtain ⟨child, among, inside⟩ := mem_beneath.mp mem
    have here := encloses_child encloses.1 among
    refine Span.contains_trans here (ih child among (fun other found => ?_) inner inside)
    exact encloses.2 other (mem_beneath.mpr ⟨child, among, found⟩)

end Node

namespace Chain

variable {tokens : List Token} {node : Node}

/-- The head of the clause lies in the span of the node, and the body is beneath the node. -/
structure ClauseIn (node : Node) (clause : Clause) : Prop where
  head : node.span.extent.contains clause.head = true
  body : ∀ item ∈ clause.body, item ∈ node.beneath

theorem ClauseIn.of_child {child : Node} {clause : Clause} (inside : ClauseIn child clause)
    (mem : child ∈ node.children) (within : node.span.contains child.span = true) :
    ClauseIn node clause := by
  have around : node.span.extent.contains child.span.extent = true := within
  refine ⟨Extent.contains_trans around inside.head, fun item listed => ?_⟩
  refine Node.mem_beneath.mpr ⟨child, mem, ?_⟩
  rw [Node.preorder_cons]
  exact List.mem_cons_of_mem _ (inside.body item listed)

/-- The keyword that is found starts in the node's span, and the clauses before it lie there. -/
structure HeadIn (node : Node) (head : Head) (earlier : List Clause) : Prop where
  start : node.span.startByte ≤ head.start
  clauses : ∀ clause ∈ earlier, ClauseIn node clause

/-- The clauses of a chain lie in its node, and so does what is found for a value. -/
theorem found_in (node : Node) (encloses : ∀ inner ∈ node.preorder, inner.Encloses) :
    (∀ bare head earlier, headOf tokens bare node = some (head, earlier) →
      HeadIn node head earlier) ∧
    ∀ clauses, ofNode? tokens node = some clauses → ∀ clause ∈ clauses, ClauseIn node clause := by
  induction node using Node.of_children with
  | step node ih =>
    rw [Node.preorder_cons, List.forall_mem_cons] at encloses
    obtain ⟨own, below⟩ := encloses
    have child_in : ∀ child ∈ node.children, node.span.contains child.span = true :=
      fun child => Node.encloses_child own
    have part := fun child mem => ih child mem fun inner found =>
      below inner (Node.mem_beneath.mpr ⟨child, mem, found⟩)
    -- What is found in a part is found in the node.
    have deeper : ∀ child ∈ node.children, ∀ bare head earlier,
        headOf tokens bare child = some (head, earlier) → HeadIn node head earlier := by
      intro child mem bare head earlier found
      obtain ⟨start, clauses⟩ := (part child mem).1 bare head earlier found
      have within := child_in child mem
      exact ⟨Nat.le_trans (contains_iff.mp within).1 start,
        fun clause listed => (clauses clause listed).of_child mem within⟩
    cases node with
    | name span id =>
      refine ⟨fun bare head earlier found => ?_, fun clauses found => by cases found⟩
      rw [headOf] at found
      split at found
      · cases found
        exact ⟨Nat.le_refl _, List.forall_mem_nil _⟩
      · cases found
    | access span object label labelSpan =>
      refine ⟨fun bare head earlier found => ?_, fun clauses found => by cases found⟩
      have here : object ∈ (Node.access span object label labelSpan).children :=
        List.mem_singleton_self object
      rw [headOf] at found
      split at found
      · cases chain : ofNode? tokens object with
        | none => simp [chain] at found
        | some clauses =>
          simp only [chain, bind, Option.bind, pure, Option.some.injEq, Prod.mk.injEq] at found
          obtain ⟨rfl, rfl⟩ := found
          have inside := own labelSpan (by simp [Node.partSpans])
          exact ⟨(contains_iff.mp inside).1, fun clause listed =>
            ((part object here).2 clauses chain clause listed).of_child here (child_in object here)⟩
      · exact deeper object here _ _ _ found
    | subscript span value items =>
      have here : value ∈ (Node.subscript span value items).children := List.mem_cons_self
      refine ⟨fun bare head earlier found => ?_, fun clauses found => ?_⟩
      · rw [headOf] at found
        exact deeper value here _ _ _ found
      · obtain ⟨head, earlier, clause, reached, last, rfl⟩ := chain_found found
        have inside := deeper value here _ _ _ reached
        have within := contains_iff.mp (child_in value here)
        obtain ⟨bracket, -, rfl, -⟩ := clause_found last
        refine List.forall_mem_append.mpr ⟨inside.clauses, List.forall_mem_singleton.mpr ⟨?_, ?_⟩⟩
        · exact Extent.contains_iff.mpr ⟨inside.start, within.2⟩
        · exact fun item listed =>
            Node.mem_beneath.mpr ⟨item, List.mem_cons_of_mem _ listed, item.mem_preorder⟩
    | call span function arguments =>
      refine ⟨fun bare head earlier found => ?_, fun clauses found => by cases found⟩
      rw [headOf] at found
      exact deeper function List.mem_cons_self _ _ _ found
    | module | lambda | list | comment | other =>
      refine ⟨fun bare head earlier found => ?_, fun clauses found => ?_⟩
      all_goals cases found

end Chain

namespace Layout

/-- What one of the functions can be asked for: a layout of something, or, in search of a chain, the
clauses of a node or the keyword at the end of a value. -/
inductive Request where
  /-- An extended lambda at an indentation. -/
  | call (node : Node) (base : Text)
  /-- A copied range. The row and the indentation are for the calls that start in that row. -/
  | range (extent : Extent) (row : Nat) (indent : Text)
  /-- The items between the brackets of a block. -/
  | block (items : List Node) (openRow : Nat) (base : Text)
  /-- One item of a block. -/
  | element (item : Node) (indent : Text)
  /-- The clauses of a chain. -/
  | clauses (node : Node)
  /-- The keyword at the end of a subscript's value. -/
  | keyword (value : Node)

/-- The indentation for a call in a range. -/
def nestedBase (layout : Layout) (row : Nat) (indent : Text) (call : Node) : Text :=
  if call.span.start.row == row then indent else layout.lineIndent call.span.startByte

/-- To answer the first request, the second one may be made. -/
inductive Asks (layout : Layout) : Request → Request → Prop
  | body {call : Node} {base : Text} {parts : LambdaParts}
      (shape : LambdaParts.ofNode? call = some parts) :
      Asks layout (.call call base) (.block parts.elements parts.body.start.row base)
  | nested {extent : Extent} {row : Nat} {indent : Text} {call : Node}
      (found : call ∈ layout.outermostCalls extent true) :
      Asks layout (.range extent row indent) (.call call (layout.nestedBase row indent call))
  | fallback {extent : Extent} {row : Nat} {indent : Text} {call : Node}
      (found : call ∈ layout.outermostCalls extent true) :
      Asks layout (.range extent row indent)
        (.range call.span.extent call.span.start.row (layout.nestedBase row indent call))
  | item {items : List Node} {openRow : Nat} {base : Text} {item : Node} (mem : item ∈ items)
      (own : item.isComment = false) :
      Asks layout (.block items openRow base) (.element item (base ++ indentation))
  | chain {item : Node} {indent : Text} : Asks layout (.element item indent) (.clauses item)
  | head {item : Node} {indent : Text} {clauses : List Clause} {clause : Clause}
      (chain : Chain.ofNode? layout.tokens item = some clauses) (mem : clause ∈ clauses) :
      Asks layout (.element item indent) (.range clause.head clause.headRow indent)
  | clause {item : Node} {indent : Text} {clauses : List Clause} {clause : Clause}
      (chain : Chain.ofNode? layout.tokens item = some clauses) (mem : clause ∈ clauses) :
      Asks layout (.element item indent) (.block clause.body clause.openRow indent)
  | confirmed {item : Node} {indent : Text} (plain : Chain.ofNode? layout.tokens item = none)
      (confirmed : layout.isConfirmed item = true) :
      Asks layout (.element item indent) (.call item indent)
  | copy {item : Node} {indent : Text} (plain : Chain.ofNode? layout.tokens item = none) :
      Asks layout (.element item indent) (.range item.span.extent item.span.start.row indent)
  | last {span : Span} {value : Node} {items : List Node} :
      Asks layout (.clauses (.subscript span value items)) (.keyword value)
  | earlier {span : Span} {object : Node} {label : Text} {labelSpan : Span}
      (continues : label ∈ Chain.continuations) :
      Asks layout (.keyword (.access span object label labelSpan)) (.clauses object)
  | object {span : Span} {object : Node} {label : Text} {labelSpan : Span}
      (plain : label ∉ Chain.continuations) :
      Asks layout (.keyword (.access span object label labelSpan)) (.keyword object)
  | value {span : Span} {value : Node} {items : List Node} :
      Asks layout (.keyword (.subscript span value items)) (.keyword value)
  | function {span : Span} {function : Node} {arguments : List Node} :
      Asks layout (.keyword (.call span function arguments)) (.keyword function)

/-- The attempt was not given up for want of depth. -/
def Ends {α : Type} (attempt : Except Refusal α) : Prop := attempt ≠ .error .tooDeep

section Ends

variable {layout : Layout} {indent text : Text} {offset row : Nat}

theorem Ends.ok {α : Type} (value : α) : Ends (.ok value) := nofun

theorem Ends.unfit {α : Type} : Ends (.error .unfit : Except Refusal α) := nofun

theorem Ends.bind {α β : Type} {first : Except Refusal α} {next : α → Except Refusal β}
    (ends : Ends first) (later : ∀ value, Ends (next value)) : Ends (first >>= next) := by
  cases first with
  | error refusal => exact fun deep => ends (by cases deep; rfl)
  | ok value => exact later value

theorem Ends.orElse {first : Attempt} {next : Unit → Attempt} (ends : Ends first)
    (later : Ends (next ())) : Ends (first.orElse next) := by
  rcases first with (_ | _) | text
  · exact later
  · exact absurd rfl ends
  · exact .ok text

theorem textOf_ends (extent : Extent) : Ends (layout.textOf extent) := by
  rw [textOf]
  split
  · exact .ok _
  · exact .unfit

theorem replaceCalls_ends {nested : Node → Attempt} {calls : List Node}
    (ends : ∀ call ∈ calls, Ends (nested call)) : Ends (replaceCalls nested offset text calls) := by
  induction calls with
  | nil => exact .ok text
  | cons call rest ih =>
    rw [List.forall_mem_cons] at ends
    rw [replaceCalls]
    refine (ih ends.2).bind fun text => ends.1.bind fun replacement => ?_
    dsimp only
    split
    · exact .ok _
    · exact .unfit

theorem itemLines_ends {element : Node → Attempt} {items : List Node}
    (ends : ∀ item ∈ items, item.isComment = false → Ends (element item)) :
    Ends (itemLines element indent row items) := by
  induction items generalizing row with
  | nil => exact .ok []
  | cons item rest ih =>
    rw [List.forall_mem_cons] at ends
    cases item with
    | comment span own => exact (ih ends.2).bind fun after => .ok _
    | _ => exact (ends.1 rfl).bind fun own => (ih ends.2).bind fun after => .ok _

theorem clauseTexts_ends {clause : Clause → Attempt} {clauses : List Clause}
    (ends : ∀ part ∈ clauses, Ends (clause part)) : Ends (clauseTexts clause clauses) := by
  induction clauses with
  | nil => exact .ok []
  | cons first rest ih =>
    rw [List.forall_mem_cons] at ends
    cases rest with
    | nil => exact ends.1
    | cons next rest => exact ends.1.bind fun own => (ih ends.2).bind fun after => .ok _

end Ends

namespace Request

/-- The request is answered at the depth. The clauses of a chain and its keywords are found without
counting. -/
def Answered (layout : Layout) (depth : Nat) : Request → Prop
  | call node base => Ends (callText layout depth node base)
  | range extent row indent => Ends (rangeText layout depth extent row indent)
  | block items openRow base => Ends (blockText layout depth items openRow base)
  | element item indent => Ends (elementText layout depth item indent)
  | clauses _ | keyword _ => True

end Request

section Answered

variable {layout : Layout} {request : Request} {depth : Nat}

/-- A request is answered as soon as each one that it makes is. -/
theorem answered_of_asks
    (answered : ∀ other, Asks layout request other → other.Answered layout depth) :
    request.Answered layout (depth + 1) := by
  cases request with
  | call node base =>
    rw [Request.Answered, callText]
    split
    · exact .unfit
    next parts shape =>
    split
    · exact .unfit
    split
    · exact .unfit
    have block : Ends (blockText layout depth _ _ _) := answered _ (.body shape)
    have read : Ends (parts.parameters.mapM fun span => layout.textOf span.extent) := by
      cases parts.parameters with
      | none => exact .ok none
      | some span => exact (textOf_ends span.extent).bind fun text => .ok _
    exact (textOf_ends _).bind fun callee => read.bind fun parameters =>
      block.bind fun block => .ok _
  | range extent row indent =>
    rw [Request.Answered, rangeText]
    split
    · exact .unfit
    refine (textOf_ends _).bind fun text => replaceCalls_ends fun call found => ?_
    have once : Ends (callText layout depth _ _) := answered _ (.nested found)
    have again : Ends (rangeText layout depth _ _ _) := answered _ (.fallback found)
    exact once.orElse again
  | block items openRow base =>
    rw [Request.Answered, blockText]
    have lines := fun item mem own => answered _ (@Asks.item layout items openRow base item mem own)
    exact (itemLines_ends lines).bind fun lines => .ok _
  | element item indent =>
    rw [Request.Answered, elementText]
    split
    · next clauses chain =>
      refine clauseTexts_ends fun part mem => ?_
      have head : Ends (rangeText layout depth _ _ _) := answered _ (.head chain mem)
      have body : Ends (blockText layout depth _ _ _) := answered _ (.clause chain mem)
      exact head.bind fun head => body.bind fun body => .ok _
    · next plain =>
      have copy : Ends (rangeText layout depth _ _ _) := answered _ (.copy plain)
      split
      · next confirmed =>
        have once : Ends (callText layout depth _ _) := answered _ (.confirmed plain confirmed)
        exact once.orElse copy
      · exact copy
  | clauses | keyword => exact trivial

end Answered

/-- The layout belongs to the tree: the parts of each node lie in its span, and the calls are nodes
of the tree. -/
structure Fits (root : Node) (layout : Layout) : Prop where
  encloses : ∀ node ∈ root.preorder, node.Encloses
  taken : ∀ call ∈ layout.calls, call ∈ root.preorder

theorem isWithin_strict {extent : Extent} {call : Node} :
    isWithin extent true call = true ↔ extent.Surrounds call.span.extent := by
  simp [isWithin, Extent.Surrounds]

namespace Request

/-- The nodes that a request is about. -/
def nodes : Request → List Node
  | call node _ | element node _ | clauses node | keyword node => [node]
  | range _ _ _ => []
  | block items _ _ => items

/-- The ranges that a request is about. -/
def extents : Request → List Extent
  | range extent _ _ => [extent]
  | call node _ | element node _ | clauses node | keyword node => [node.span.extent]
  | block items _ _ => items.map fun item => item.span.extent

/-- The request is about nodes of the tree. A range may be any one. -/
def Within (root : Node) (request : Request) : Prop := ∀ node ∈ request.nodes, node ∈ root.preorder

end Request

/-- What the later request is about lies in what the earlier one is about. -/
def Narrows (earlier later : Request) : Prop :=
  ∀ inner ∈ later.extents, ∃ outer ∈ earlier.extents, outer.contains inner = true

section Asks

variable {root : Node} {layout : Layout} {earlier later : Request}

theorem Fits.below (fits : Fits root layout) {node : Node} (mem : node ∈ root.preorder) :
    ∀ inner ∈ node.preorder, inner.Encloses :=
  fun inner found => fits.encloses inner (Node.preorder_trans mem inner found)

/-- The items of the body of an extended lambda are beneath it. -/
theorem parts_beneath {call : Node} {parts : LambdaParts}
    (shape : LambdaParts.ofNode? call = some parts) :
    ∀ item ∈ parts.elements, item ∈ call.beneath := by
  unfold LambdaParts.ofNode? at shape
  split at shape
  · next span function lambdaSpan parameters body elements =>
    obtain rfl := Option.some.inj shape
    intro item listed
    have below : item ∈ (Node.list body elements).beneath :=
      Node.mem_beneath.mpr ⟨item, listed, item.mem_preorder⟩
    refine Node.mem_beneath.mpr ⟨_, List.mem_cons_of_mem _ (List.mem_singleton_self _), ?_⟩
    rw [Node.preorder_cons]
    refine List.mem_cons_of_mem _ (Node.mem_beneath.mpr ⟨_, List.mem_singleton_self _, ?_⟩)
    rw [Node.preorder_cons]
    exact List.mem_cons_of_mem _ below
  · cases shape

theorem Fits.beneath (fits : Fits root layout) {node item : Node} (mem : node ∈ root.preorder)
    (below : item ∈ node.beneath) :
    item ∈ root.preorder ∧ node.span.extent.contains item.span.extent = true := by
  have inside : item ∈ node.preorder := Node.preorder_cons node ▸ List.mem_cons_of_mem _ below
  exact ⟨Node.preorder_trans mem item inside, Node.preorder_within (fits.below mem) item inside⟩

theorem Fits.found (fits : Fits root layout) {extent : Extent} {call : Node}
    (found : call ∈ layout.outermostCalls extent true) :
    call ∈ root.preorder ∧ extent.Surrounds call.span.extent := by
  obtain ⟨among, within⟩ := mem_outermostFrom found
  exact ⟨fits.taken call among, isWithin_strict.mp within⟩

/-- A request that is made for nodes of the tree is about nodes of the tree, and stays inside. -/
theorem Fits.narrows (fits : Fits root layout) (asks : Asks layout earlier later)
    (within : earlier.Within root) : later.Within root ∧ Narrows earlier later := by
  -- A part of a node has its place in the tree and in the node.
  have part : ∀ {node child : Node}, node ∈ root.preorder → child ∈ node.children →
      child ∈ root.preorder ∧ node.span.extent.contains child.span.extent = true :=
    fun mem among => fits.beneath mem (Node.mem_beneath.mpr ⟨_, among, Node.mem_preorder _⟩)
  have block : ∀ {node : Node} {items : List Node}, node ∈ root.preorder →
      (∀ item ∈ items, item ∈ node.beneath) → (∀ item ∈ items, item ∈ root.preorder) ∧
        ∀ inner ∈ items.map fun item => item.span.extent,
          ∃ outer ∈ [node.span.extent], outer.contains inner = true := by
    intro node items mem below
    have beneath := fun item listed => fits.beneath mem (below item listed)
    refine ⟨fun item listed => (beneath item listed).1, List.forall_mem_map.mpr ?_⟩
    exact fun item listed => ⟨_, List.mem_singleton_self _, (beneath item listed).2⟩
  have same : ∀ extent : Extent, extent.contains extent = true := by simp [Extent.contains]
  simp only [Request.Within] at within ⊢
  cases asks with
  | body shape => exact block (within _ (List.mem_singleton_self _)) (parts_beneath shape)
  | nested found | fallback found =>
    obtain ⟨mem, inside⟩ := fits.found found
    exact ⟨by simp [Request.nodes, mem], List.forall_mem_singleton.mpr
      ⟨_, List.mem_singleton_self _, inside.1⟩⟩
  | item listed own =>
    exact ⟨List.forall_mem_singleton.mpr (within _ listed), List.forall_mem_singleton.mpr
      ⟨_, List.mem_map_of_mem listed, same _⟩⟩
  | head chain listed =>
    have mem := within _ (List.mem_singleton_self _)
    have inside := (Chain.found_in _ (fits.below mem)).2 _ chain _ listed
    exact ⟨List.forall_mem_nil _, List.forall_mem_singleton.mpr
      ⟨_, List.mem_singleton_self _, inside.head⟩⟩
  | clause chain listed =>
    have mem := within _ (List.mem_singleton_self _)
    exact block mem ((Chain.found_in _ (fits.below mem)).2 _ chain _ listed).body
  | chain | confirmed plain confirmed =>
    exact ⟨within, List.forall_mem_singleton.mpr ⟨_, List.mem_singleton_self _, same _⟩⟩
  | copy plain =>
    exact ⟨List.forall_mem_nil _, List.forall_mem_singleton.mpr
      ⟨_, List.mem_singleton_self _, same _⟩⟩
  | last | earlier continues | object plain | value | function =>
    obtain ⟨mem, inside⟩ := part (within _ (List.mem_singleton_self _)) List.mem_cons_self
    exact ⟨List.forall_mem_singleton.mpr mem, List.forall_mem_singleton.mpr
      ⟨_, List.mem_singleton_self _, inside⟩⟩

end Asks

/-- The number of calls that lie in the range and are not the whole of it. -/
def callsInside (layout : Layout) (extent : Extent) : Nat :=
  layout.calls.countP (isWithin extent true)

/-- A number for a node of the tree. One more call strictly inside it outweighs any size. -/
noncomputable def weight (root : Node) (layout : Layout) (node : Node) : Nat :=
  layout.callsInside node.span.extent * (3 * sizeOf root) + 3 * sizeOf node

/-- The number that goes down from each request to those that it makes. -/
noncomputable def Request.rank (root : Node) (layout : Layout) : Request → Nat
  | range extent _ _ => layout.callsInside extent * (3 * sizeOf root)
  | element item _ => weight root layout item
  | call node _ => weight root layout node - 1
  | block items _ _ => (items.map fun item => weight root layout item + 1).foldr max ⊥
  | clauses node | keyword node => sizeOf node

section Rank

variable {root : Node} {layout : Layout} {earlier later : Request} {node item : Node}
  {outer inner : Extent}

theorem callsInside_mono (contains : outer.contains inner = true) :
    layout.callsInside inner ≤ layout.callsInside outer :=
  List.countP_mono_left fun _ _ within =>
    isWithin_strict.mpr ((isWithin_strict.mp within).inside contains)

/-- A call that lies strictly inside a range is one of the calls strictly inside it, and none of
those strictly inside itself. -/
theorem callsInside_lt {call : Node} (mem : call ∈ layout.calls)
    (inside : outer.Surrounds call.span.extent) :
    layout.callsInside call.span.extent < layout.callsInside outer := by
  have both : layout.callsInside call.span.extent =
      (layout.calls.filter (isWithin outer true)).countP (isWithin call.span.extent true) := by
    rw [callsInside, List.countP_filter]
    refine List.countP_congr fun other _ => ?_
    rw [Bool.and_eq_true]
    refine ⟨fun within => ⟨within, ?_⟩, And.left⟩
    exact isWithin_strict.mpr ((isWithin_strict.mp within).inside inside.1)
  have all : layout.callsInside outer = (layout.calls.filter (isWithin outer true)).length :=
    List.countP_eq_length_filter
  rw [both, all, List.countP_lt_length_iff]
  refine ⟨call, List.mem_filter.mpr ⟨mem, isWithin_strict.mpr inside⟩, ?_⟩
  exact Bool.eq_false_iff.mpr fun within => (isWithin_strict.mp within).2 rfl

theorem Fits.weight_beneath (fits : Fits root layout) (mem : node ∈ root.preorder)
    (below : item ∈ node.beneath) : weight root layout item + 3 ≤ weight root layout node := by
  have fewer := Nat.mul_le_mul_right (3 * sizeOf root)
    (@callsInside_mono layout _ _ (fits.beneath mem below).2)
  have smaller := Node.sizeOf_beneath below
  unfold weight
  omega

/-- A call that is found in a range weighs less than the range has calls strictly inside. -/
theorem Fits.weight_found (fits : Fits root layout) {call : Node}
    (found : call ∈ layout.outermostCalls outer true) :
    weight root layout call ≤ layout.callsInside outer * (3 * sizeOf root) := by
  obtain ⟨mem, inside⟩ := fits.found found
  have fewer := callsInside_lt (mem_outermostFrom found).1 inside
  have size := Node.sizeOf_preorder mem
  calc weight root layout call
      ≤ layout.callsInside call.span.extent * (3 * sizeOf root) + 3 * sizeOf root := by
        unfold weight
        omega
    _ = (layout.callsInside call.span.extent + 1) * (3 * sizeOf root) := (Nat.succ_mul _ _).symm
    _ ≤ layout.callsInside outer * (3 * sizeOf root) := Nat.mul_le_mul_right _ fewer

theorem Fits.block_rank (fits : Fits root layout) (mem : node ∈ root.preorder) {items : List Node}
    (below : ∀ item ∈ items, item ∈ node.beneath) (openRow : Nat) (base : Text) :
    (Request.block items openRow base).rank root layout + 2 ≤ weight root layout node := by
  have size := Node.sizeOf_pos node
  have each :
      (Request.block items openRow base).rank root layout ≤ weight root layout node - 2 := by
    refine List.max_le_of_forall_le _ _ (List.forall_mem_map.mpr fun item listed => ?_)
    have lighter := fits.weight_beneath mem (below item listed)
    omega
  unfold weight at *
  omega

/-- Each request that is made has a lower rank. -/
theorem Fits.lowers (fits : Fits root layout) (asks : Asks layout earlier later)
    (within : earlier.Within root) : later.rank root layout < earlier.rank root layout := by
  have light : ∀ node, layout.callsInside node.span.extent * (3 * sizeOf root) + 3 ≤
      weight root layout node := by
    intro node
    have size := Node.sizeOf_pos node
    unfold weight
    omega
  simp only [Request.Within] at within
  cases asks with
  | @body call base parts shape =>
    have mem := within _ (List.mem_singleton_self _)
    have block := fits.block_rank mem (parts_beneath shape) parts.body.start.row base
    simp only [Request.rank] at block ⊢
    omega
  | @nested extent row indent call found =>
    have inside := fits.weight_found found
    have own := light call
    simp only [Request.rank]
    omega
  | @fallback extent row indent call found =>
    have inside := fits.weight_found found
    have own := light call
    simp only [Request.rank, Span.extent] at *
    omega
  | @item items openRow base item listed own =>
    have among : weight root layout item + 1 ∈ items.map fun item => weight root layout item + 1 :=
      List.mem_map_of_mem listed
    exact List.le_max_of_le among (Nat.le_refl _)
  | @chain item indent =>
    have size := Node.sizeOf_pos item
    simp only [Request.rank, weight]
    omega
  | @head item indent clauses clause chain listed =>
    have mem := within _ (List.mem_singleton_self _)
    have inside := (Chain.found_in _ (fits.below mem)).2 _ chain _ listed
    have fewer := Nat.mul_le_mul_right (3 * sizeOf root) (@callsInside_mono layout _ _ inside.head)
    have own := light item
    simp only [Request.rank]
    omega
  | @clause item indent clauses clause chain listed =>
    have mem := within _ (List.mem_singleton_self _)
    have inside := (Chain.found_in _ (fits.below mem)).2 _ chain _ listed
    have block := fits.block_rank mem inside.body clause.openRow indent
    simp only [Request.rank] at block ⊢
    omega
  | @confirmed item indent plain confirmed =>
    have own := light item
    simp only [Request.rank]
    omega
  | @copy item indent plain =>
    have own := light item
    simp only [Request.rank]
    omega
  | last | earlier continues | object plain | value | function =>
    exact Node.sizeOf_child List.mem_cons_self

/-- A depth above the rank of a request suffices to answer it. -/
theorem Fits.answered (fits : Fits root layout) {depth : Nat} {request : Request}
    (within : request.Within root) (low : request.rank root layout < depth) :
    request.Answered layout depth := by
  induction depth generalizing request with
  | zero => exact absurd low (Nat.not_lt_zero _)
  | succ depth ih =>
    refine answered_of_asks fun other asks => ?_
    have lower := fits.lowers asks within
    exact ih (fits.narrows asks within).1 (by omega)

theorem weight_bounded (mem : node ∈ root.preorder) :
    weight root layout node ≤ layout.calls.length * (3 * sizeOf root) + 3 * sizeOf root := by
  have size := Node.sizeOf_preorder mem
  have fewer := Nat.mul_le_mul_right (3 * sizeOf root)
    (List.countP_le_length (p := isWithin node.span.extent true) (l := layout.calls))
  unfold weight callsInside
  omega

/-- The ranks of the requests for nodes of the tree are bounded. -/
theorem rank_bounded {request : Request} (within : request.Within root) : request.rank root layout ≤
      layout.calls.length * (3 * sizeOf root) + 3 * sizeOf root + 1 := by
  cases request with
  | call node base =>
    have bounded := @weight_bounded root layout _ (within node (List.mem_singleton_self _))
    simp only [Request.rank]
    omega
  | range extent row indent =>
    have fewer := Nat.mul_le_mul_right (3 * sizeOf root)
      (List.countP_le_length (p := isWithin extent true) (l := layout.calls))
    simp only [Request.rank, callsInside]
    omega
  | block items openRow base =>
    refine List.max_le_of_forall_le _ _ (List.forall_mem_map.mpr fun item listed => ?_)
    exact Nat.succ_le_succ (weight_bounded (within item listed))
  | element item indent =>
    exact Nat.le_succ_of_le (weight_bounded (within item (List.mem_singleton_self _)))
  | clauses node | keyword node =>
    have size := Node.sizeOf_preorder (within node (List.mem_singleton_self _))
    simp only [Request.rank]
    omega

/-- Whatever is asked for on behalf of a range, unless it is about nothing, lies strictly inside. -/
theorem Fits.surrounds (fits : Fits root layout) {extent : Extent} {row : Nat} {indent : Text}
    (asked : Relation.TransGen (Asks layout) (.range extent row indent) later) :
    later.Within root ∧ ∀ inner ∈ later.extents, extent.Surrounds inner := by
  induction asked with
  | single asks =>
    have within := (fits.narrows asks (by simp [Request.Within, Request.nodes])).1
    refine ⟨within, ?_⟩
    cases asks with
    | nested found | fallback found => exact List.forall_mem_singleton.mpr (fits.found found).2
  | tail _ asks ih =>
    obtain ⟨within, narrows⟩ := fits.narrows asks ih.1
    refine ⟨within, fun inner listed => ?_⟩
    obtain ⟨outer, among, contains⟩ := narrows inner listed
    exact (ih.2 outer among).within contains

end Rank

open Relation (TransGen)

/-- Layout comes to an end on every tree in which the parts of each node lie in its span, for any
tokens, any calls that are nodes of the tree, and any indentation. No sequence of requests, each of
them made to answer the one before, is endless, and some depth suffices to answer them all. In
particular, a call that is asked for in order to copy the span of some node lies in that span and is
shorter. So when the node is a call that has no layout, that call is not asked for again. -/
theorem layout_ends {root : Node} {calls : List Node}
    (encloses : ∀ node ∈ root.preorder, node.Encloses)
    (taken : ∀ call ∈ calls, call ∈ root.preorder) (source : Text) (tokens : List Token) :
    let layout := make source tokens calls
    (WellFounded fun later earlier => earlier.Within root ∧ Asks layout earlier later) ∧
      (∃ enough, ∀ depth ≥ enough, ∀ request : Request, request.Within root →
        request.Answered layout depth) ∧
      ∀ node row indent other base,
        TransGen (Asks layout) (.range node.span.extent row indent) (.call other base) →
        other ≠ node ∧ node.span.contains other.span = true ∧
          (other.span.endByte - other.span.startByte : Int) <
            node.span.endByte - node.span.startByte := by
  intro layout
  have fits : Fits root layout := ⟨encloses, fun call mem => taken call (mem_of_make mem)⟩
  refine ⟨?_, ⟨layout.calls.length * (3 * sizeOf root) + 3 * sizeOf root + 2, ?_⟩, ?_⟩
  · refine Subrelation.wf (fun {later earlier} made => ?_)
      (measure fun request : Request => request.rank root layout).wf
    exact fits.lowers made.2 made.1
  · intro depth enough request within
    have bounded := @rank_bounded root layout _ within
    exact fits.answered within (by omega)
  · intro node row indent other base asked
    have inside := (fits.surrounds asked).2 _ (List.mem_singleton_self _)
    exact ⟨fun same => inside.2 (by rw [same]), inside.1, inside.shorter⟩

/-- A call that is refused for a comment after the keyword is copied. The call in it is asked for,
and it is a shorter one. -/
theorem layout_ends_refused :
    let source := "f = (def_ # c\n(lambda: [def_(lambda: [a])]))\n".toList
    let root := Node.lower (Python.parse source)
    let calls := root.preorder.filter fun node => (LambdaParts.ofNode? node).isSome
    let layout := make source (Token.tokenize (Python.parse source)) calls
    ∃ outer ∈ layout.calls, (callText layout 9 outer []).toOption = none ∧
      (rangeText layout 9 outer.span.extent 0 []).toOption =
        some "def_ # c\n(lambda: [def_(lambda: [\n    a\n])])".toList ∧
      ∃ inner ∈ layout.calls, Asks layout (.range outer.span.extent 0 []) (.call inner []) ∧
        inner ≠ outer ∧ outer.span.contains inner.span = true := by
  intro source root calls layout
  have encloses : ∀ node ∈ root.preorder, node.Encloses := by decide +kernel
  have sorted :
      layout = ⟨source, Token.tokenize (Python.parse source), dropRepeats none calls⟩ := by
    rw [show layout = make source _ calls from rfl, make,
      List.mergeSort_of_pairwise (by decide +kernel)]
  have laid : (layout.calls.any fun outer =>
      (callText layout 9 outer []).toOption == none &&
      (rangeText layout 9 outer.span.extent 0 []).toOption ==
        some "def_ # c\n(lambda: [def_(lambda: [\n    a\n])])".toList &&
      (layout.outermostCalls outer.span.extent true).any fun inner =>
        layout.nestedBase 0 [] inner == []) = true := by
    rw [sorted]
    decide +kernel
  obtain ⟨outer, mem, fits⟩ := List.any_eq_true.mp laid
  simp only [Bool.and_eq_true, List.any_eq_true, beq_iff_eq] at fits
  obtain ⟨⟨refused, copied⟩, inner, found, based⟩ := fits
  have asks := @Asks.nested layout outer.span.extent 0 [] inner found
  rw [based] at asks
  have inside := (layout_ends encloses (fun call => List.mem_of_mem_filter) source _).2.2 outer 0 []
    inner [] (.single asks)
  exact ⟨outer, mem, refused, copied, inner, (mem_outermostFrom found).1, asks, inside.1,
    inside.2.1⟩

end Layout

end LambdaLayout
