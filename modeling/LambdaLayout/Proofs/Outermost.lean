import LambdaLayout.Proofs.LambdasFound

/-!
The outermost calls of a range. The calls of a layout are sorted so that a call comes before those
inside it, and of any two one lies in the other or they lie apart. One pass that compares each call
with the last one taken then finds calls that lie apart, and every call of the range lies in one of
them.
-/

namespace LambdaLayout

namespace Layout

open LambdaLayout.Python.Tree (Nested)

/-- Calls with a text, in order, of which any two lie in each other or apart. -/
structure Nests (calls : List Node) : Prop where
  sorted : calls.Pairwise fun left right => precedes left right = true
  nested : ∀ left ∈ calls, ∀ right ∈ calls, Nested left.span right.span
  filled : ∀ call ∈ calls, call.span.startByte < call.span.endByte

theorem precedes_trans (first second third : Node) (left : precedes first second = true)
    (right : precedes second third = true) : precedes first third = true := by
  simp only [precedes, Bool.or_eq_true, Bool.and_eq_true, decide_eq_true_eq, beq_iff_eq] at *
  omega

theorem precedes_total (first second : Node) :
    (precedes first second || precedes second first) = true := by
  simp only [precedes, Bool.or_eq_true, Bool.and_eq_true, decide_eq_true_eq, beq_iff_eq]
  omega

theorem dropRepeats_sublist (last : Option Span) (nodes : List Node) :
    (dropRepeats last nodes).Sublist nodes := by
  induction nodes generalizing last with
  | nil => exact .slnil
  | cons node rest ih =>
    rw [dropRepeats]
    split
    · exact (ih last).cons node
    · exact (ih _).cons_cons node

/-- Of the nodes with one span the first is kept. -/
theorem dropRepeats_span {last : Option Span} {nodes : List Node} {node : Node}
    (mem : node ∈ nodes) :
    last = some node.span ∨ ∃ other ∈ dropRepeats last nodes, other.span = node.span := by
  induction nodes generalizing last with
  | nil => cases mem
  | cons first rest ih =>
    rw [dropRepeats]
    split
    · next repeated =>
      rcases List.mem_cons.mp mem with rfl | later
      · exact .inl (eq_of_beq repeated)
      · exact ih later
    · rcases List.mem_cons.mp mem with rfl | later
      · exact .inr ⟨node, List.mem_cons_self, rfl⟩
      · rcases @ih (some first.span) later with same | ⟨other, kept, same⟩
        · exact .inr ⟨first, List.mem_cons_self, Option.some.inj same⟩
        · exact .inr ⟨other, List.mem_cons_of_mem _ kept, same⟩

section Make

variable {source : Text} {tokens : List Token} {calls : List Node} {node : Node}

theorem make_sorted : (make source tokens calls).calls.Pairwise
    fun left right => precedes left right = true :=
  (List.pairwise_mergeSort precedes_trans precedes_total calls).sublist (dropRepeats_sublist _ _)

theorem mem_of_make (mem : node ∈ (make source tokens calls).calls) : node ∈ calls :=
  (List.mergeSort_perm calls precedes).mem_iff.mp ((dropRepeats_sublist _ _).subset mem)

theorem mem_make (mem : node ∈ calls) :
    ∃ other ∈ (make source tokens calls).calls, other.span = node.span := by
  have sorted : node ∈ calls.mergeSort precedes :=
    (List.mergeSort_perm calls precedes).mem_iff.mpr mem
  rcases @dropRepeats_span none _ _ sorted with same | found
  · cases same
  · exact found

end Make

/-- The second call starts and ends after the first one. -/
def Rises (first second : Node) : Prop :=
  first.span.startByte < second.span.startByte ∧ first.span.endByte < second.span.endByte

theorem Rises.trans {first second third : Node} (one : Rises first second)
    (two : Rises second third) : Rises first third :=
  ⟨Nat.lt_trans one.1 two.1, Nat.lt_trans one.2 two.2⟩

/-- A call that comes after another one and does not lie in it starts and ends after it. -/
theorem rises_of_precedes {first second : Node} (before : precedes first second = true)
    (outside : first.span.contains second.span = false) : Rises first second := by
  have spread : ¬(first.span.startByte ≤ second.span.startByte ∧
      second.span.endByte ≤ first.span.endByte) := by
    simpa [Span.contains] using outside
  simp only [precedes, Bool.or_eq_true, Bool.and_eq_true, decide_eq_true_eq, beq_iff_eq] at before
  unfold Rises
  omega

/-- Of two calls that lie in each other or apart, the one that starts and ends later lies after the
other. -/
theorem Rises.apart {first second : Node} (rises : Rises first second)
    (nested : Nested first.span second.span) : first.span.endByte ≤ second.span.startByte := by
  unfold Rises at rises
  unfold Nested at nested
  omega

section Outermost

variable {extent : Extent} {strict : Bool} {last : Option Node} {calls : List Node} {call : Node}

theorem mem_outermostFrom (mem : call ∈ outermostFrom extent strict last calls) :
    call ∈ calls ∧ isWithin extent strict call = true := by
  induction calls generalizing last with
  | nil => cases mem
  | cons first rest ih =>
    rw [outermostFrom] at mem
    split at mem
    · exact (ih mem).imp_left (List.mem_cons_of_mem _)
    · next taken =>
      rcases List.mem_cons.mp mem with rfl | later
      · simp only [Bool.or_eq_true, Bool.not_eq_true', not_or, Bool.not_eq_false] at taken
        exact ⟨List.mem_cons_self, taken.1⟩
      · exact (ih later).imp_left (List.mem_cons_of_mem _)

/-- What is taken rises from call to call, and from the last one taken before. -/
private theorem outermostFrom_rises
    (sorted : (last.toList ++ calls).Pairwise fun left right => precedes left right = true) :
    (outermostFrom extent strict last calls).Pairwise Rises ∧
      ∀ call ∈ outermostFrom extent strict last calls, ∀ outer ∈ last, Rises outer call := by
  induction calls generalizing last with
  | nil => exact ⟨.nil, nofun⟩
  | cons first rest ih =>
    rw [outermostFrom]
    split
    · exact ih (sorted.sublist (List.Sublist.append_left (List.sublist_cons_self _ _) _))
    · next taken =>
      obtain ⟨rises, after⟩ := @ih (some first) (sorted.sublist (List.sublist_append_right _ _))
      have later : ∀ call ∈ outermostFrom extent strict (some first) rest, Rises first call :=
        fun call mem => after call mem first rfl
      refine ⟨List.pairwise_cons.mpr ⟨later, rises⟩, ?_⟩
      intro call mem outer is
      obtain rfl := Option.mem_def.mp is
      have outside : outer.span.contains first.span = false := by
        simpa using (Bool.or_eq_false_iff.mp (Bool.not_eq_true _ ▸ taken)).2
      have here := rises_of_precedes ((List.pairwise_cons.mp sorted).1 first (by simp)) outside
      rcases List.mem_cons.mp mem with rfl | mem
      · exact here
      · exact here.trans (later call mem)

/-- The outermost calls rise from call to call. -/
theorem outermost_rises {layout : Layout}
    (sorted : layout.calls.Pairwise fun left right => precedes left right = true) :
    (layout.outermostCalls extent strict).Pairwise Rises :=
  (outermostFrom_rises (by simpa using sorted)).1

/-- The outermost calls lie apart. -/
theorem outermost_apart {layout : Layout} (nests : Nests layout.calls) :
    (layout.outermostCalls extent strict).Pairwise
      fun left right => left.span.endByte ≤ right.span.startByte :=
  (outermost_rises nests.sorted).imp_of_mem fun {left right} first second rises =>
    rises.apart (nests.nested left (mem_outermostFrom first).1 right (mem_outermostFrom second).1)

/-- A call of the range lies in one that is taken, or in the last one taken before. -/
private theorem outermostFrom_covers (mem : call ∈ calls)
    (within : isWithin extent strict call = true) :
    ∃ outer, (outer ∈ outermostFrom extent strict last calls ∨ outer ∈ last) ∧
      outer.span.contains call.span = true := by
  induction calls generalizing last with
  | nil => cases mem
  | cons first rest ih =>
    rw [outermostFrom]
    split
    · next skipped =>
      rcases List.mem_cons.mp mem with rfl | later
      · rw [within] at skipped
        cases last with
        | none => cases skipped
        | some outer => exact ⟨outer, .inr rfl, skipped⟩
      · exact ih later
    · rcases List.mem_cons.mp mem with rfl | later
      · exact ⟨call, .inl List.mem_cons_self, by simp [Span.contains]⟩
      · obtain ⟨outer, taken | is, contains⟩ := @ih (some first) later
        · exact ⟨outer, .inl (List.mem_cons_of_mem _ taken), contains⟩
        · obtain rfl := Option.some.inj is
          exact ⟨first, .inl List.mem_cons_self, contains⟩

theorem outermost_covers {layout : Layout} (mem : call ∈ layout.calls)
    (within : isWithin extent strict call = true) :
    ∃ outer ∈ layout.outermostCalls extent strict, outer.span.contains call.span = true := by
  obtain ⟨outer, taken | none, contains⟩ := @outermostFrom_covers extent strict none _ _ mem within
  · exact ⟨outer, taken, contains⟩
  · cases none

end Outermost

end Layout

open LambdaLayout.Python (Parsed Tree)

/-- A call of the shape of an extended lambda has a text. -/
theorem Node.lambda_filled {parsed : Parsed} {tree : Tree} {parts : LambdaParts}
    (placed : Python.Tree.Placed parsed tree)
    (shape : LambdaParts.ofNode? (Node.ofTree parsed tree) = some parts) :
    tree.span.startByte < tree.span.endByte := by
  obtain ⟨function, arguments, own, split, row, -, -, -, listed, -⟩ := lambda_row placed shape
  have among := row.mem arguments (by simp)
  have bounds := (placed.sits.lies split).bounds.1 arguments among
  have inner := placed.child split among
  obtain ⟨inner_split, inner_lies, listing⟩ :=
    inner.parts (by rw [listed]; decide) (.inl (by rw [listed]; decide))
  rw [listed] at listing
  obtain ⟨first, mem, opened⟩ : ∃ first ∈ arguments.children, Python.Tree.IsSign "(" first := by
    rcases listing.of_arguments with ⟨first, rest, whole, opened, -⟩ |
      ⟨first, comma, last, row, opened, -⟩
    · exact ⟨first, by rw [whole]; exact List.mem_cons_self, opened⟩
    · exact ⟨first, row.mem first (by simp), opened⟩
  have width :=
    (opened.tokens (inner.sits_below inner_split first mem) (by decide) (by decide)).2
  have place := inner_lies.bounds.1 first mem
  have one : Text.byteLength "(".toList = 1 := by decide
  omega

/-- The node is an extended lambda of the source, called by a keyword. -/
def Node.IsLambda (parsed : Parsed) (node : Node) : Prop :=
  Stands parsed node ∧ ∃ parts keyword, LambdaParts.ofNode? node = some parts ∧
    IsCallee keyword parts.function

/-- A confirmed call is an extended lambda of the source. -/
theorem Reformat.confirmed_is_lambda {parsed : Parsed} {keyword : Text} {regions : List Region}
    {calls : List Node} {call : Node} (grammatical : parsed.Grammatical)
    (sound : parsed.hasErrors = false) (name : Text.isName keyword = true)
    (confirmed : confirmedCalls keyword (Node.lower parsed) regions = .ok calls)
    (mem : call ∈ calls) : Node.IsLambda parsed call := by
  rw [confirmedCalls_eq name] at confirmed
  cases confirmed
  obtain ⟨found, called, passed⟩ := (mem_callsIn name).mp mem
  rw [isConfirmed] at passed
  split at passed
  · cases passed
  next parts shape =>
  refine ⟨?_, parts, keyword, shape, Node.callee_of_calls name called shape⟩
  rcases Node.stands_of_mem grammatical sound found with whole | stands
  · obtain ⟨span, statements, module⟩ := Node.lower_is_module grammatical
    rw [whole, module] at shape
    cases shape
  · exact stands

/-- The layout of a parsed source: its calls come in order, and each is an extended lambda of the
source. -/
structure Layout.Of (parsed : Parsed) (layout : Layout) : Prop where
  source : layout.source = parsed.source
  tokens : layout.tokens = Token.tokenize parsed
  sorted : layout.calls.Pairwise fun left right => Layout.precedes left right = true
  lambdas : ∀ call ∈ layout.calls, Node.IsLambda parsed call

namespace Layout

variable {parsed : Parsed} {layout : Layout} {call : Node}

theorem Of.filled (of : Of parsed layout) (mem : call ∈ layout.calls) :
    call.span.startByte < call.span.endByte := by
  obtain ⟨⟨tree, placed, rfl⟩, parts, -, shape, -⟩ := of.lambdas call mem
  rw [Node.span_of_tree]
  exact Node.lambda_filled placed shape

theorem Of.holds (of : Of parsed layout) (mem : call ∈ layout.calls) :
    ∃ old, Text.Holds parsed.source call.span.startByte old call.span.endByte := by
  obtain ⟨⟨tree, placed, rfl⟩, -⟩ := of.lambdas call mem
  rw [Node.span_of_tree]
  exact ⟨_, placed.sits.holds⟩

/-- The calls of a source that follows the grammar lie in each other or apart. -/
theorem Of.nests (of : Of parsed layout) (grammatical : parsed.Grammatical) :
    Nests layout.calls where
  sorted := of.sorted
  nested := by
    intro left first right second
    obtain ⟨⟨one, one_placed, rfl⟩, -⟩ := of.lambdas left first
    obtain ⟨⟨two, two_placed, rfl⟩, -⟩ := of.lambdas right second
    rw [Node.span_of_tree, Node.span_of_tree]
    exact one_placed.nested grammatical two_placed
  filled := fun _ mem => of.filled mem

end Layout

end LambdaLayout
