import LambdaLayout.Proofs.ChainShape
import LambdaLayout.Proofs.Depth
import LambdaLayout.Proofs.Refusals

/-!
The layout of a call does not depend on how the call was laid out before. Two calls without comments
that are the same apart from places, possibly in two sources, have the same canonical layout if the
stretches that are copied have the same text: blanks, line breaks, continuations and commas between
these have no influence. The two layouts are followed side by side, with one statement for each of
the functions, by induction on the depth.
-/

namespace LambdaLayout

open LambdaLayout.Python (Parsed Tree)
open LambdaLayout.Python.Tree (Placed)
open LambdaLayout.Node (bare bareAll)

/-- The parts of an extended lambda without places. -/
def LambdaParts.bare (parts : LambdaParts) : LambdaParts where
  function := parts.function.bare
  parameters := parts.parameters.map fun _ => Node.nowhere
  body := Node.nowhere
  elements := bareAll parts.elements

/-- The shape of an extended lambda does not depend on places. -/
theorem LambdaParts.ofNode_bare (node : Node) :
    LambdaParts.ofNode? node.bare = (LambdaParts.ofNode? node).map LambdaParts.bare := by
  cases node with
  | call span function arguments =>
    rcases arguments with _ | ⟨argument, _ | ⟨other, rest⟩⟩
    · rfl
    · cases argument with
      | lambda own parameters body comments => cases body <;> cases comments <;> rfl
      | _ => rfl
    · cases argument with
      | lambda own parameters body comments => cases body <;> cases comments <;> rfl
      | _ => rfl
  | _ => rfl

namespace Layout

/-- Says that two stretches have the same text. -/
def sameText (one two : Layout) (left right : Extent) : Bool :=
  Text.slice? one.source left.start left.stop == Text.slice? two.source right.start right.stop

/-- Says that two stretches are copied alike: they have the same text, and no extended lambda lies
inside one of them. -/
def copiedAlike (one two : Layout) (left right : Extent) : Bool :=
  one.sameText two left right && !one.calls.any (isWithin left true) &&
    !two.calls.any (isWithin right true)

/-- Says that an item of a block is an extended lambda with a canonical layout. -/
def laysOut (layout : Layout) (item : Node) : Bool :=
  layout.isConfirmed item && (layout.call item []).isOk

mutual

/-- Says that what is copied for two calls is alike: the callee, the parameters, and what is copied
for each item of the body. The depth must suffice for both. Nodes of different shapes are not
compared. -/
def callsAlike (one two : Layout) : Nat → Node → Node → Bool
  | 0, _, _ => false
  | depth + 1, left, right =>
    match LambdaParts.ofNode? left, LambdaParts.ofNode? right with
    | some parts, some others =>
      one.sameText two parts.function.span.extent others.function.span.extent &&
        (parts.parameters.all fun given => others.parameters.all fun other =>
          one.sameText two given.extent other.extent) &&
        (parts.elements.zip others.elements).all fun pair => itemsAlike one two depth pair.1 pair.2
    | _, _ => true

/-- Says that what is copied for two items of a block is alike: the head of each clause and what is
copied for the items of its body, or what is copied for a call, or the item. Either both are
confirmed calls or none is. -/
def itemsAlike (one two : Layout) : Nat → Node → Node → Bool
  | 0, _, _ => false
  | depth + 1, left, right =>
    one.isConfirmed left == two.isConfirmed right &&
      match Chain.ofNode? one.tokens left, Chain.ofNode? two.tokens right with
      | some clauses, some others =>
        (clauses.zip others).all fun pair => one.copiedAlike two pair.1.head pair.2.head &&
          (pair.1.body.zip pair.2.body).all fun items => itemsAlike one two depth items.1 items.2
      | none, none =>
        match one.laysOut left, two.laysOut right with
        | true, true => callsAlike one two depth left right
        | false, false => one.copiedAlike two left.span.extent right.span.extent
        | _, _ => true
      | _, _ => true

end

variable {parsed : Parsed} {layout : Layout} {tree : Tree} {start stop row depth : Nat}
  {base indent : Text}

section OneSide

/-- A stretch without comments and calls inside it is copied as it stands. -/
theorem rangeText_plain (grammatical : parsed.Grammatical) (of : Of parsed layout)
    (clear : Clear parsed start stop) (last : Divides parsed stop)
    (plain : layout.calls.any (isWithin ⟨start, stop⟩ true) = false) :
    rangeText layout (depth + 1) ⟨start, stop⟩ row indent = layout.textOf ⟨start, stop⟩ := by
  have solid : layout.endsWithComment ⟨start, stop⟩ = false := by
    rw [endsWithComment_eq grammatical of.tokens last]
    cases found : (tokensIn parsed start stop).getLast? with
    | none => rfl
    | some token => simpa using clear token (List.mem_of_getLast? found)
  have none : layout.outermostCalls ⟨start, stop⟩ true = [] := by
    refine List.eq_nil_iff_forall_not_mem.mpr fun call mem => ?_
    obtain ⟨among, inside⟩ := mem_outermostFrom mem
    exact List.any_eq_false.mp plain call among inside
  rw [rangeText, solid, if_neg (by decide), none]
  cases layout.textOf ⟨start, stop⟩ <;> rfl

/-- In a call without comments none is outside of the body. -/
theorem hasCommentOutside_clear {outer inner : Span} (grammatical : parsed.Grammatical)
    (of : Of parsed layout) (clear : Clear parsed outer.startByte outer.endByte) :
    layout.hasCommentOutside outer inner = false := by
  have none := (hasCommentIn_clear grammatical).mpr clear
  rw [Chain.hasCommentIn, List.any_eq_false] at none
  rw [hasCommentOutside, of.tokens, List.any_eq_false]
  intro token mem is
  rw [Bool.and_eq_true, Bool.and_eq_true] at is
  exact none token mem (Bool.and_eq_true_iff.mpr is.1)

/-- Says that a node has the shape of an extended lambda, with a body that is not empty. -/
def isFilled (node : Node) : Bool :=
  (LambdaParts.ofNode? node).any fun parts => !parts.elements.all Node.isComment

theorem all_isComment_bare (nodes : List Node) :
    (bareAll nodes).all Node.isComment = nodes.all Node.isComment := by
  rw [Node.bareAll_eq_map, List.all_map]
  exact congrArg _ (funext Node.isComment_bare)

theorem isFilled_bare (node : Node) : isFilled node.bare = isFilled node := by
  rw [isFilled, isFilled, LambdaParts.ofNode_bare, Option.any_map]
  simp only [LambdaParts.bare, all_isComment_bare]

theorem callText_unfilled {node : Node} (empty : isFilled node = false) :
    callText layout (depth + 1) node base = .error .unfit := by
  rw [callText]
  cases shape : LambdaParts.ofNode? node with
  | none => rfl
  | some parts =>
    rw [isFilled, shape] at empty
    dsimp only
    rw [if_pos (by simpa using empty)]

/-- A call without comments is laid out unless its body is empty. -/
theorem callText_filled (grammatical : parsed.Grammatical) (of : Of parsed layout)
    (placed : Placed parsed tree) (clear : Clear parsed tree.span.startByte tree.span.endByte)
    (filled : isFilled (Node.ofTree parsed tree) = true)
    (deep : 4 * tree.span.length + 1 ≤ depth) :
    ∃ text, callText layout depth (Node.ofTree parsed tree) base = .ok text := by
  refine ((answers_at grammatical of depth).call placed deep).resolve_right fun ⟨_, refuses⟩ => ?_
  rw [isFilled, Option.any_eq_true] at filled
  obtain ⟨parts, shape, some⟩ := filled
  rcases (refused_iff shape).mp (refuses parts shape) with none | outside
  · rw [none] at some
    cases some
  · rw [Node.span_of_tree, hasCommentOutside_clear grammatical of clear] at outside
    cases outside

theorem laysOut_eq (grammatical : parsed.Grammatical) (of : Of parsed layout)
    (placed : Placed parsed tree) (clear : Clear parsed tree.span.startByte tree.span.endByte) :
    layout.laysOut (Node.ofTree parsed tree) =
      (layout.isConfirmed (Node.ofTree parsed tree) && isFilled (Node.ofTree parsed tree)) := by
  rw [laysOut, call, depthFor, Node.span_of_tree]
  cases filled : isFilled (Node.ofTree parsed tree) with
  | false => rw [callText_unfilled filled]; rfl
  | true =>
    obtain ⟨text, ran⟩ := @callText_filled _ _ _ (4 * tree.span.length + 4) [] grammatical of placed
      clear filled (by omega)
    rw [ran]
    rfl

/-- At no depth is a filled call unfit. -/
theorem callText_fit (grammatical : parsed.Grammatical) (of : Of parsed layout)
    (placed : Placed parsed tree) (clear : Clear parsed tree.span.startByte tree.span.endByte)
    (filled : isFilled (Node.ofTree parsed tree) = true) :
    callText layout depth (Node.ofTree parsed tree) base ≠ .error .unfit := by
  intro unfit
  obtain ⟨text, ran⟩ := @callText_filled _ _ _ (4 * tree.span.length + 1) base grammatical of placed
    clear filled (Nat.le_refl _)
  have same := callText_unique (by rw [unfit]; nofun) (by rw [ran]; nofun)
  rw [unfit, ran] at same
  cases same

/-- The items of a call without comments. -/
theorem calm_elements {parts : LambdaParts} (grammatical : parsed.Grammatical)
    (of : Of parsed layout) (placed : Placed parsed tree)
    (clear : Clear parsed tree.span.startByte tree.span.endByte)
    (shape : LambdaParts.ofNode? (Node.ofTree parsed tree) = some parts) :
    ∀ item ∈ parts.elements, item.isComment = false ∧
      ∃ tree, Calm parsed tree ∧ Node.ofTree parsed tree = item := by
  obtain ⟨function, given, trees, comma, call⟩ := call_marks placed shape
    (quiet_of grammatical of.tokens (hasCommentOutside_clear grammatical of clear))
  refine clear.calm_items call.block fun part mem => ?_
  have inside := call.within part mem
  have body := call.body
  omega

/-- The head of a clause without comments, and the items of its body. -/
theorem calm_clause {clauses : List Clause} {clause : Clause} (grammatical : parsed.Grammatical)
    (of : Of parsed layout) (calm : Calm parsed tree)
    (found : Chain.ofNode? layout.tokens (Node.ofTree parsed tree) = some clauses)
    (mem : clause ∈ clauses) :
    Clear parsed clause.head.start clause.head.stop ∧ Divides parsed clause.head.stop ∧
      ∀ item ∈ clause.body, item.isComment = false ∧
        ∃ tree, Calm parsed tree ∧ Node.ofTree parsed tree = item := by
  rw [of.tokens] at found
  obtain ⟨start, stop, from_, upto, at_⟩ := (Chain.chain_linked grammatical tree calm.placed
    calm.divides_end clauses found).within mem
  obtain ⟨trees, block, -, bounds⟩ := at_.body
  have head := at_.head
  have forward := at_.forward
  have onward := at_.onward
  refine ⟨calm.clear.within (by omega) (by omega), at_.middle,
    calm.clear.calm_items block fun part mem => ?_⟩
  have inside := bounds part mem
  omega

end OneSide

variable {one two : Parsed} {left right : Layout} {fuel : Nat} {item other : Node}
  {items others : List Node}

/-- Two items at the same place of two blocks, without comments and the same apart from places. What
is copied for them is alike. -/
structure Twins (one two : Parsed) (left right : Layout) (fuel : Nat) (item other : Node) : Prop where
  first : ∃ tree, Calm one tree ∧ Node.ofTree one tree = item
  second : ∃ tree, Calm two tree ∧ Node.ofTree two tree = other
  solid : item.isComment = false
  same : item.bare = other.bare
  alike : left.itemsAlike right fuel item other = true

section Pairs

theorem forall₂_bare (same : bareAll items = bareAll others) :
    items.Forall₂ (fun item other => item.bare = other.bare) others := by
  rw [Node.bareAll_eq_map, Node.bareAll_eq_map, ← List.forall₂_eq_eq_eq] at same
  rwa [List.forall₂_map_left_iff, List.forall₂_map_right_iff] at same

/-- What holds of two lists of items and of what stands at the same place in them. -/
theorem twins_of (first : ∀ item ∈ items, item.isComment = false ∧
      ∃ tree, Calm one tree ∧ Node.ofTree one tree = item)
    (second : ∀ other ∈ others, other.isComment = false ∧
      ∃ tree, Calm two tree ∧ Node.ofTree two tree = other)
    (same : bareAll items = bareAll others)
    (alike : (items.zip others).all (fun pair => left.itemsAlike right fuel pair.1 pair.2) = true) :
    items.Forall₂ (Twins one two left right fuel) others := by
  obtain ⟨length, bare⟩ := List.forall₂_iff_zip.mp (forall₂_bare same)
  refine List.forall₂_iff_zip.mpr ⟨length, fun {item other} mem => ?_⟩
  obtain ⟨among, also⟩ := List.of_mem_zip mem
  exact ⟨(first item among).2, (second other also).2, (first item among).1, bare mem,
    List.all_eq_true.mp alike _ mem⟩

/-- Items that are laid out alike make the same lines, whatever rows they were in. -/
theorem itemLines_same {element twin : Node → Attempt} {start : Nat}
    (same : items.Forall₂ (fun item other => item.isComment = false ∧ other.isComment = false ∧
      element item = twin other) others) :
    itemLines element indent row items = itemLines twin indent start others := by
  induction same generalizing row start with
  | nil => rfl
  | @cons item other items others here later ih =>
    obtain ⟨solid, also, made⟩ := here
    have more : hasMore items = hasMore others := by
      cases later with
      | nil => rfl
      | cons next => simp [hasMore, next.1, next.2.1]
    rw [itemLines_solid solid, itemLines_solid also, made, more, @ih item.span.stop.row]

theorem clauseTexts_cons (clause : Clause → Attempt) (first next : Clause) (rest : List Clause) :
    clauseTexts clause (first :: next :: rest) = (do
      let text ← clause first
      let after ← clauseTexts clause (next :: rest)
      return text ++ '.' :: after) := rfl

theorem clauseTexts_same {clause twin : Clause → Attempt} {clauses parts : List Clause}
    (same : clauses.Forall₂ (fun one two => clause one = twin two) parts) :
    clauseTexts clause clauses = clauseTexts twin parts := by
  induction same with
  | nil => rfl
  | cons here later ih =>
    cases later with
    | nil => exact here
    | cons next rest => rw [clauseTexts_cons, clauseTexts_cons, here, ih]

end Pairs

/-- What the layout functions give in two sources at a depth, for what is alike. -/
structure Lockstep (one two : Parsed) (left right : Layout) (depth : Nat) : Prop where
  call : ∀ {tree twin : Tree} {fuel : Nat} (base : Text), Placed one tree → Placed two twin →
    Clear one tree.span.startByte tree.span.endByte →
    Clear two twin.span.startByte twin.span.endByte →
    (Node.ofTree one tree).bare = (Node.ofTree two twin).bare →
    left.callsAlike right fuel (Node.ofTree one tree) (Node.ofTree two twin) = true →
    callText left depth (Node.ofTree one tree) base =
      callText right depth (Node.ofTree two twin) base
  block : ∀ {items others : List Node} {fuel : Nat} (row start : Nat) (base : Text),
    items.Forall₂ (Twins one two left right fuel) others →
    blockText left depth items row base = blockText right depth others start base
  element : ∀ {item other : Node} {fuel : Nat} {indent : Text},
    Twins one two left right fuel item other →
    elementText left depth item indent = elementText right depth other indent

section Step

theorem textOf_same {extent from_ : Extent}
    (same : Text.slice? left.source extent.start extent.stop =
      Text.slice? right.source from_.start from_.stop) : left.textOf extent = right.textOf from_ := by
  rw [textOf, textOf, same]

theorem block_same {start : Nat} (lockstep : Lockstep one two left right depth)
    (twins : items.Forall₂ (Twins one two left right fuel) others) :
    blockText left (depth + 1) items row base = blockText right (depth + 1) others start base := by
  have lines : itemLines (fun item => elementText left depth item (base ++ indentation))
      (base ++ indentation) row items = itemLines
        (fun item => elementText right depth item (base ++ indentation)) (base ++ indentation) start
          others := by
    refine itemLines_same (twins.imp fun item other pair => ⟨pair.solid, ?_, lockstep.element pair⟩)
    rw [← Node.isComment_bare, ← pair.same, Node.isComment_bare, pair.solid]
  rw [blockText, blockText]
  exact congrArg (fun made : Attempt => made >>= fun text => pure (text ++ '\n' :: base)) lines

variable {twin : Tree} (first : one.Grammatical) (second : two.Grammatical)
  (of_left : Of one left) (of_right : Of two right)

include first second of_left of_right

/-- Stretches without comments that are copied alike give the same text. -/
theorem range_same {extent from_ : Extent} {line : Nat} (clear : Clear one extent.start extent.stop)
    (also : Clear two from_.start from_.stop) (last : Divides one extent.stop)
    (final : Divides two from_.stop) (alike : left.copiedAlike right extent from_ = true) :
    rangeText left depth extent row indent = rangeText right depth from_ line indent := by
  cases depth with
  | zero => rw [rangeText, rangeText]
  | succ depth =>
    simp only [copiedAlike, sameText, Bool.and_eq_true, beq_iff_eq, Bool.not_eq_true'] at alike
    rw [rangeText_plain first of_left clear last alike.1.2,
      rangeText_plain second of_right also final alike.2, textOf_same alike.1.1]

theorem call_same {tree : Tree} (lockstep : Lockstep one two left right depth)
    (placed : Placed one tree) (also : Placed two twin)
    (clear : Clear one tree.span.startByte tree.span.endByte)
    (quiet : Clear two twin.span.startByte twin.span.endByte)
    (same : (Node.ofTree one tree).bare = (Node.ofTree two twin).bare)
    (alike : left.callsAlike right fuel (Node.ofTree one tree) (Node.ofTree two twin) = true) :
    callText left (depth + 1) (Node.ofTree one tree) base =
      callText right (depth + 1) (Node.ofTree two twin) base := by
  have shapes := LambdaParts.ofNode_bare (Node.ofTree one tree)
  rw [same, LambdaParts.ofNode_bare] at shapes
  cases shape : LambdaParts.ofNode? (Node.ofTree one tree) with
  | none =>
    rw [shape, Option.map_none, Option.map_eq_none_iff] at shapes
    rw [callText, callText, shape, shapes]
  | some parts =>
  rw [shape, Option.map_some, Option.map_eq_some_iff] at shapes
  obtain ⟨others, twin_shape, bare⟩ := shapes
  have elements : bareAll others.elements = bareAll parts.elements :=
    congrArg LambdaParts.elements bare
  have given : others.parameters.map (fun _ => Node.nowhere) =
      parts.parameters.map fun _ => Node.nowhere := congrArg LambdaParts.parameters bare
  cases fuel with
  | zero => rw [callsAlike] at alike; cases alike
  | succ fuel =>
  rw [callsAlike, shape, twin_shape] at alike
  simp only [Bool.and_eq_true, sameText, beq_iff_eq] at alike
  obtain ⟨⟨callee, parameters⟩, items⟩ := alike
  have twins := twins_of (calm_elements first of_left placed clear shape)
    (calm_elements second of_right also quiet twin_shape) elements.symm items
  have copied : (parts.parameters.mapM fun span => left.textOf span.extent) =
      others.parameters.mapM fun span => right.textOf span.extent := by
    cases own : parts.parameters <;> cases other : others.parameters
    · rfl
    · rw [own, other] at given; cases given
    · rw [own, other] at given; cases given
    · rw [own, other] at parameters
      exact congrArg (Except.map some) (textOf_same (eq_of_beq parameters))
  rw [callText, callText, shape, twin_shape]
  dsimp only
  rw [← all_isComment_bare others.elements, elements, all_isComment_bare]
  split
  · rfl
  rw [Node.span_of_tree, Node.span_of_tree, hasCommentOutside_clear first of_left clear,
    hasCommentOutside_clear second of_right quiet, copied, textOf_same callee,
    lockstep.block parts.body.start.row others.body.start.row base twins]

/-- Two items that are no chains: what one of them is laid out or copied as is what the other one
is. -/
theorem alone_same {tree : Tree} (lockstep : Lockstep one two left right depth)
    (calm : Calm one tree) (quiet : Calm two twin)
    (same : (Node.ofTree one tree).bare = (Node.ofTree two twin).bare)
    (confirmed : left.isConfirmed (Node.ofTree one tree) =
      right.isConfirmed (Node.ofTree two twin))
    (no_chain : Chain.ofNode? left.tokens (Node.ofTree one tree) = none)
    (also : Chain.ofNode? right.tokens (Node.ofTree two twin) = none)
    (alike : left.itemsAlike right (fuel + 1) (Node.ofTree one tree) (Node.ofTree two twin) = true) :
    elementText left (depth + 1) (Node.ofTree one tree) indent =
      elementText right (depth + 1) (Node.ofTree two twin) indent := by
  have filled : isFilled (Node.ofTree one tree) = isFilled (Node.ofTree two twin) := by
    rw [← isFilled_bare, same, isFilled_bare]
  have copied : left.copiedAlike right tree.span.extent twin.span.extent = true →
      rangeText left depth tree.span.extent tree.span.start.row indent =
        rangeText right depth twin.span.extent twin.span.start.row indent :=
    range_same first second of_left of_right calm.clear quiet.clear calm.divides_end
      quiet.divides_end
  rw [itemsAlike, no_chain, also, Bool.and_eq_true] at alike
  obtain ⟨-, alike⟩ := alike
  dsimp only at alike
  rw [laysOut_eq first of_left calm.placed calm.clear,
    laysOut_eq second of_right quiet.placed quiet.clear, ← filled, ← confirmed,
    Node.span_of_tree, Node.span_of_tree] at alike
  rw [elementText, elementText, no_chain, also]
  dsimp only
  rw [← confirmed, Node.span_of_tree, Node.span_of_tree]
  cases is : left.isConfirmed (Node.ofTree one tree) with
  | false =>
    rw [is] at alike
    exact copied alike
  | true =>
    rw [is] at alike
    rw [if_pos rfl, if_pos rfl]
    cases full : isFilled (Node.ofTree one tree) with
    | true =>
      -- A filled call never falls back to its copy, so only the two layouts are compared.
      rw [full] at alike
      have made := lockstep.call indent calm.placed quiet.placed calm.clear quiet.clear same alike
      have fit := @callText_fit _ _ _ depth indent first of_left calm.placed calm.clear full
      rw [← made]
      cases ran : callText left depth (Node.ofTree one tree) indent with
      | ok text => rfl
      | error refusal =>
        cases refusal with
        | tooDeep => rfl
        | unfit => exact absurd ran fit
    | false =>
      rw [full] at alike
      rw [copied alike]
      cases depth with
      | zero => rw [callText, callText]
      | succ depth => rw [callText_unfilled full, callText_unfilled (filled ▸ full)]

/-- The clauses of two chains: the heads are copied alike, and the bodies make the same blocks. -/
theorem clauses_same {tree : Tree} {clauses parts : List Clause} (indent : Text)
    (lockstep : Lockstep one two left right depth) (calm : Calm one tree) (quiet : Calm two twin)
    (found : Chain.ofNode? left.tokens (Node.ofTree one tree) = some clauses)
    (also : Chain.ofNode? right.tokens (Node.ofTree two twin) = some parts)
    (bodies : clauses.Forall₂ (fun clause part => bareAll clause.body = bareAll part.body) parts)
    (alike : (clauses.zip parts).all (fun pair => left.copiedAlike right pair.1.head pair.2.head &&
      (pair.1.body.zip pair.2.body).all fun items =>
        left.itemsAlike right fuel items.1 items.2) = true) :
    clauses.Forall₂ (fun clause part =>
      rangeText left depth clause.head clause.headRow indent =
          rangeText right depth part.head part.headRow indent ∧
        blockText left depth clause.body clause.openRow indent =
          blockText right depth part.body part.openRow indent) parts := by
  obtain ⟨length, bodies⟩ := List.forall₂_iff_zip.mp bodies
  refine List.forall₂_iff_zip.mpr ⟨length, fun {clause part} mem => ?_⟩
  obtain ⟨among, too⟩ := List.of_mem_zip mem
  obtain ⟨clear, middle, items⟩ := calm_clause first of_left calm found among
  obtain ⟨twin_clear, twin_middle, twin_items⟩ := calm_clause second of_right quiet also too
  have own := List.all_eq_true.mp alike _ mem
  rw [Bool.and_eq_true] at own
  constructor
  · exact range_same first second of_left of_right clear twin_clear middle twin_middle own.1
  · exact lockstep.block clause.openRow part.openRow indent
      (twins_of items twin_items (bodies mem) own.2)

/-- Nodes that are the same apart from places are both chains or both none, and the bodies of their
clauses are the same apart from places. -/
theorem chains_same {tree : Tree} (calm : Calm one tree) (quiet : Calm two twin)
    (same : (Node.ofTree one tree).bare = (Node.ofTree two twin).bare) :
    (Chain.ofNode? left.tokens (Node.ofTree one tree)).map
        (List.map fun clause => bareAll clause.body) =
      (Chain.ofNode? right.tokens (Node.ofTree two twin)).map
        (List.map fun part => bareAll part.body) := by
  have shapes := Chain.bodiesOf_bare (Node.ofTree one tree)
  rw [same, Chain.bodiesOf_bare, ← Chain.chain_clear first tree calm,
    ← Chain.chain_clear second twin quiet, ← of_left.tokens, ← of_right.tokens, Option.map_map,
    Option.map_map] at shapes
  simpa [Function.comp_def, List.map_map] using shapes.symm

theorem element_same (lockstep : Lockstep one two left right depth)
    (twins : Twins one two left right fuel item other) :
    elementText left (depth + 1) item indent = elementText right (depth + 1) other indent := by
  obtain ⟨⟨tree, calm, rfl⟩, ⟨twin, quiet, rfl⟩, solid, same, alike⟩ := twins
  cases fuel with
  | zero => rw [itemsAlike] at alike; cases alike
  | succ fuel =>
  have shapes := chains_same first second of_left of_right calm quiet same
  have both := alike
  rw [itemsAlike, Bool.and_eq_true, beq_iff_eq] at both
  obtain ⟨confirmed, heads⟩ := both
  cases found : Chain.ofNode? left.tokens (Node.ofTree one tree) with
  | none =>
    rw [found, Option.map_none, eq_comm, Option.map_eq_none_iff] at shapes
    exact alone_same first second of_left of_right lockstep calm quiet same confirmed found shapes
      alike
  | some clauses =>
    rw [found, Option.map_some, eq_comm, Option.map_eq_some_iff] at shapes
    obtain ⟨parts, also, shapes⟩ := shapes
    rw [found, also] at heads
    have bodies : clauses.Forall₂ (fun clause part => bareAll clause.body = bareAll part.body)
        parts := by
      rw [← List.forall₂_eq_eq_eq, List.forall₂_map_left_iff, List.forall₂_map_right_iff] at shapes
      exact shapes.flip.imp fun clause part => Eq.symm
    rw [elementText, elementText, found, also]
    have agree := clauses_same first second of_left of_right indent lockstep calm quiet found also
      bodies heads
    refine clauseTexts_same (agree.imp fun clause part same => ?_)
    rw [same.1, same.2]

theorem lockstep : ∀ depth, Lockstep one two left right depth
  | 0 =>
    { call := fun _ _ _ _ _ _ _ => by rw [callText, callText]
      block := fun _ _ _ _ => by rw [blockText, blockText]
      element := fun _ => by rw [elementText, elementText] }
  | depth + 1 =>
    have before := lockstep depth
    { call := fun _ => call_same first second of_left of_right before
      block := fun _ _ _ => block_same before
      element := element_same first second of_left of_right before }

end Step

/-- The depth that is chosen for a call is as good as any greater one. -/
theorem call_eq {node : Node} (grammatical : parsed.Grammatical) (of : Of parsed layout)
    (is : Node.IsLambda parsed node) (deep : depthFor node.span.length ≤ depth) :
    layout.call node base = callText layout depth node base := by
  refine ((callText_deeper node base deep).same fun failed => ?_).symm
  rcases (lambda_answers grammatical of is base).1 with ⟨text, made⟩ | ⟨unfit, -⟩
  · exact absurd (made.symm.trans failed) nofun
  · exact absurd (unfit.symm.trans failed) nofun

end Layout

namespace Reformat

/-- Calls that are the same apart from places have one layout, whatever parsers gave the trees. -/
theorem confirmed_unaffected {keyword : Text} {parsed again : Parsed} {calls twins : List Node}
    {call twin : Node} {depth : Nat} (first : parsed.Grammatical) (second : again.Grammatical)
    (sound : parsed.hasErrors = false) (also : again.hasErrors = false)
    (confirms : Confirms keyword parsed calls) (confirms_too : Confirms keyword again twins)
    (mem : call ∈ calls) (among : twin ∈ twins) (same : call.bare = twin.bare) :
    let one := Layout.make parsed.source (Token.tokenize parsed) calls
    let two := Layout.make again.source (Token.tokenize again) twins
    Chain.hasCommentIn one.tokens call.span.extent = false →
      Chain.hasCommentIn two.tokens twin.span.extent = false →
      one.callsAlike two depth call twin = true →
      ∀ base, one.call call base = two.call twin base := by
  intro one two quiet silent alike base
  have of_one : Layout.Of parsed one := confirms.layout first sound
  have of_two : Layout.Of again two := confirms_too.layout second also
  have is_lambda := confirms.is_lambda first sound mem
  have is_twin := confirms_too.is_lambda second also among
  rw [Layout.call_eq first of_one is_lambda (Nat.le_max_left _ (Layout.depthFor twin.span.length)),
    Layout.call_eq second of_two is_twin (Nat.le_max_right (Layout.depthFor call.span.length) _)]
  obtain ⟨⟨tree, placed, rfl⟩, -⟩ := is_lambda
  obtain ⟨⟨tree', placed', rfl⟩, -⟩ := is_twin
  rw [Node.span_of_tree] at quiet silent
  exact (Layout.lockstep first second of_one of_two _).call base placed placed'
    ((hasCommentIn_clear first).mp quiet) ((hasCommentIn_clear second).mp silent) same alike

/-- The canonical layout of a confirmed call is the same wherever and however the call was written:
for two calls without comments that are the same apart from places, if what is copied for them is
alike. -/
theorem confirmed_call_unaffected (keyword source other : Text) {calls twins : List Node}
    {call twin : Node} {depth : Nat} (sound : (Python.parse source).hasErrors = false)
    (also : (Python.parse other).hasErrors = false)
    (confirms : Confirms keyword (Python.parse source) calls)
    (confirms_too : Confirms keyword (Python.parse other) twins) (mem : call ∈ calls)
    (among : twin ∈ twins) (same : call.bare = twin.bare) :
    let one := Layout.make source (Token.tokenize (Python.parse source)) calls
    let two := Layout.make other (Token.tokenize (Python.parse other)) twins
    Chain.hasCommentIn one.tokens call.span.extent = false →
      Chain.hasCommentIn two.tokens twin.span.extent = false →
      one.callsAlike two depth call twin = true →
      ∀ base, one.call call base = two.call twin base :=
  confirmed_unaffected (Python.parse_grammatical sound) (Python.parse_grammatical also) sound also
    confirms confirms_too mem among same

/-- The theorem applies to a call with a chain: written on one line, and with other blanks, line
breaks, continuations and commas. -/
theorem confirmed_call_unaffected_chain :
    let source := "f = def_(lambda: [if_[x] [a].else_ [b], c])\n".toList
    let other := "f = def_(\nlambda :\\\n[if_[x] [\na, ].else_ \\\n[b,]\n, c],)\n".toList
    ∃ calls twins, Confirms defaultKeyword (Python.parse source) calls ∧
      Confirms defaultKeyword (Python.parse other) twins ∧
      let one := Layout.make source (Token.tokenize (Python.parse source)) calls
      let two := Layout.make other (Token.tokenize (Python.parse other)) twins
      ∃ call ∈ calls, ∃ twin ∈ twins, ∀ base, one.call call base = two.call twin base := by
  intro source other
  let calls := found defaultKeyword source
  let twins := found defaultKeyword other
  have name : Text.isName defaultKeyword = true := by decide
  let one := Layout.make source (Token.tokenize (Python.parse source)) calls
  let two := Layout.make other (Token.tokenize (Python.parse other)) twins
  have alike : (calls.any fun call => twins.any fun twin => call.bare = twin.bare &&
      !Chain.hasCommentIn one.tokens call.span.extent &&
        !Chain.hasCommentIn two.tokens twin.span.extent && one.callsAlike two 7 call twin) = true := by
    decide +kernel
  obtain ⟨call, mem, alike⟩ := List.any_eq_true.mp alike
  obtain ⟨twin, among, alike⟩ := List.any_eq_true.mp alike
  simp only [Bool.and_eq_true, decide_eq_true_iff, Bool.not_eq_true'] at alike
  obtain ⟨⟨⟨same, quiet⟩, silent⟩, alike⟩ := alike
  exact ⟨calls, twins, confirms_found name source, confirms_found name other, call, mem, twin, among,
    confirmed_call_unaffected defaultKeyword source other (by decide +kernel) (by decide +kernel)
      (confirms_found name source) (confirms_found name other) mem among same quiet silent alike⟩

end Reformat

end LambdaLayout
