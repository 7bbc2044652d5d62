import LambdaLayout.Proofs.LambdasFound

/-!
Which calls a search reaches. Lowering keeps every call of a source that follows the grammar, with
its span and in source order, unless the call stands in a string or in the parameters of a lambda. A
lowered lambda has only the place of its parameters, so a call in a default value of a lambda is not
found, while one in the default value of a function is.
-/

namespace LambdaLayout

open LambdaLayout.Python (Parsed Label Tree)

namespace Python.Tree

mutual

/-- The calls of a tree that stand in no string, an outer one before those inside it. Those in the
parameters of lambdas are left out unless they are asked for. -/
def calls (parameters : Bool) : Tree → List Tree
  | node label children =>
    if label.kind == "string" then []
    else
      let inner := callsOf parameters (label.kind == "lambda") children
      if label.kind == "call" then node label children :: inner else inner

/-- The calls of several trees, which may be the parts of a lambda. -/
def callsOf (parameters lambda : Bool) : List Tree → List Tree
  | [] => []
  | tree :: rest =>
    let later := callsOf parameters lambda rest
    if lambda && !parameters && tree.label.role == some "parameters" then later
    else calls parameters tree ++ later

end

section

variable {source : Text} {tree : Tree} {trees solid : List Tree} {lambda : Bool}

/-- A leaf is no call. -/
theorem Sits.closed_kind (sits : Sits source tree) (closed : tree.isClosed = true) :
    tree.kind ≠ "call" := by
  intro kind
  have listed : constructs.contains tree.kind = true := by
    rw [kind]
    decide
  have split := (sits.parts listed (.inl (by rw [kind]; decide))).1
  rw [closed] at split
  cases split

theorem Sits.closed_calls (sits : Sits source tree) (closed : tree.isClosed = true) :
    tree.calls false = [] := by
  have other := sits.closed_kind closed
  cases sits with
  | @leaf label children _ _ _ _ whole place fits bare =>
    have kind : label.kind ≠ "call" := other
    rw [calls]
    by_cases string : label.kind = "string"
    · rw [if_pos (by rw [string]; rfl)]
    · rw [if_neg (by simpa using string), bare string]
      simp [kind, callsOf]
  | node split => rw [closed] at split; cases split

@[simp] theorem callsOf_nil (parameters lambda : Bool) : callsOf parameters lambda [] = [] := by
  rw [callsOf]

/-- Only the parameters of a lambda are left out. -/
theorem callsOf_cons (seen : (lambda && tree.label.role == some "parameters") = false)
    (trees : List Tree) :
    callsOf false lambda (tree :: trees) = tree.calls false ++ callsOf false lambda trees := by
  rw [callsOf, Bool.not_false, Bool.and_true, seen]
  rfl

theorem callsOf_hidden (header : ∀ tree ∈ trees, tree.label.role = some "parameters")
    (rest : List Tree) : callsOf false true (trees ++ rest) = callsOf false true rest := by
  induction trees with
  | nil => rfl
  | cons tree trees ih =>
    rw [List.cons_append, callsOf, header tree List.mem_cons_self,
      ih fun other mem => header other (List.mem_cons_of_mem _ mem)]
    rfl

theorem callsOf_of_none (none : ∀ tree ∈ trees, tree.calls false = []) :
    callsOf false lambda trees = [] := by
  induction trees with
  | nil => exact callsOf_nil _ _
  | cons tree rest ih =>
    have later := ih fun other mem => none other (List.mem_cons_of_mem _ mem)
    rw [callsOf]
    split
    · exact later
    · rw [none tree List.mem_cons_self, later]
      rfl

/-- What lowering drops holds no call. -/
theorem Sits.dropped_calls (sits : Sits source tree) (dropped : Node.isKept tree = false) :
    tree.calls false = [] := by
  cases closed : tree.isClosed with
  | true => exact sits.closed_calls closed
  | false =>
  cases sits with
  | leaf is => rw [is] at closed; cases closed
  | @node label children _ _ _ split whole place parts construct brackets unnamed =>
    have bare : label.named = false := by
      cases named : label.named with
      | false => rfl
      | true =>
        have kind : label.kind = "line_continuation" := by
          simpa [Node.isKept, Tree.label, Tree.kind, named] using dropped
        exact (construct.not_atom (by rw [kind]; decide)).elim
    obtain ⟨free, leaves⟩ := unnamed bare
    have kind : label.kind ≠ "call" := by
      intro is
      rw [is] at free
      exact absurd free (by decide)
    rw [calls, callsOf_of_none fun part mem => (parts.sits part mem).closed_calls (leaves part mem)]
    simp [kind]

theorem Sits.extra_calls (sits : Sits source tree) (extra : tree.isExtra = true) :
    tree.calls false = [] := sits.closed_calls (sits.extra extra).1

/-- The calls of a row are those of its solid trees. -/
theorem Row.calls (row : Row solid trees) (sits : ∀ tree ∈ trees, Sits source tree) :
    callsOf false lambda trees = callsOf false lambda solid := by
  induction row with
  | nil => rfl
  | extra skipped _ ih =>
    have later := ih fun tree mem => sits tree (List.mem_cons_of_mem _ mem)
    rw [callsOf, (sits _ List.mem_cons_self).extra_calls skipped, later]
    simp
  | part kept _ ih =>
    have later := ih fun tree mem => sits tree (List.mem_cons_of_mem _ mem)
    rw [callsOf, callsOf, later]

end

end Python.Tree

namespace Node

open LambdaLayout.Python.Tree

/-- Says that the node is a call. -/
def isCall : Node → Bool
  | call _ _ _ => true
  | _ => false

/-- The calls among a node and everything below it. -/
def callsBelow (node : Node) : List Node := node.preorder.filter isCall

/-- The calls of several nodes. -/
def callsBelowAll (nodes : List Node) : List Node := (preorderOf nodes).filter isCall

section

variable {parsed : Parsed} {tree : Tree} {trees solid : List Tree}

theorem callsBelow_eq (node : Node) :
    node.callsBelow = (if node.isCall then [node] else []) ++ callsBelowAll node.children := by
  rw [callsBelow, preorder_eq, List.filter_cons]
  split <;> rfl

@[simp] theorem callsBelowAll_nil : callsBelowAll [] = [] := rfl

@[simp] theorem callsBelowAll_cons (node : Node) (nodes : List Node) :
    callsBelowAll (node :: nodes) = node.callsBelow ++ callsBelowAll nodes := by
  rw [callsBelowAll, preorderOf, List.filter_append]
  rfl

/-- The calls below a lowered tree are the calls of the tree. -/
def Reaches (parsed : Parsed) (tree : Tree) : Prop :=
  (ofTree parsed tree).callsBelow = (tree.calls false).map (ofTree parsed)

theorem isCall_ofTree (call : (ofTree parsed tree).isCall = true) : tree.kind = "call" := by
  cases made : ofTree parsed tree with
  | call span function arguments => exact (kind_of_call made).1
  | _ => rw [made] at call; cases call

/-- The parts that are kept have all the calls. -/
theorem kept_calls (sits : ∀ tree ∈ trees, Sits parsed.source tree)
    (reaches : ∀ tree ∈ trees, Reaches parsed tree) :
    callsBelowAll (ofKept parsed trees) = (callsOf false false trees).map (ofTree parsed) := by
  induction trees with
  | nil => rw [ofKept, callsOf_nil]; rfl
  | cons tree rest ih =>
    have later := ih (fun other mem => sits other (List.mem_cons_of_mem _ mem))
      fun other mem => reaches other (List.mem_cons_of_mem _ mem)
    rw [ofKept, callsOf_cons (Bool.false_and _), List.map_append, ← later]
    cases kept : isKept tree with
    | true => rw [if_pos rfl, callsBelowAll_cons, reaches tree List.mem_cons_self]
    | false =>
      rw [if_neg (by decide), (sits tree List.mem_cons_self).dropped_calls kept]
      rfl

/-- A node that is kept with its parts reaches what they reach. -/
theorem reaches_kept {label : Label} (kind : label.kind ≠ "call" ∧ label.kind ≠ "lambda" ∧
      label.kind ≠ "string")
    (children : (ofTree parsed (.node label trees)).children = ofKept parsed trees)
    (sits : ∀ tree ∈ trees, Sits parsed.source tree)
    (reaches : ∀ tree ∈ trees, Reaches parsed tree) : Reaches parsed (.node label trees) := by
  have plain : (ofTree parsed (.node label trees)).isCall = false := by
    cases call : (ofTree parsed (.node label trees)).isCall with
    | false => rfl
    | true => exact absurd (isCall_ofTree call) kind.1
  rw [Reaches, callsBelow_eq, plain, children, kept_calls sits reaches, calls,
    beq_eq_false_iff_ne.mpr kind.2.1]
  simp [kind.1, kind.2.2]

/-- Any other construct is kept with its parts. -/
theorem children_of_other {label : Label} {children : List Tree}
    (unlisted : (constructs ++ atoms).contains label.kind = false) :
    (ofTree parsed (.node label children)).children = ofKept parsed children := by
  have made := lowered parsed label children
  generalize ofTree parsed (.node label children) = node at made
  cases made with
  | module | other => rfl
  | call kind | access kind | name kind | lambda kind | list kind | subscript kind | comment kind
  | string kind =>
    rw [kind] at unlisted
    exact absurd unlisted (by decide)

/-- A value that comes first, and the parts after it. -/
theorem others_calls {value : Tree} {front rest : List Tree} (row : Row (value :: solid) front)
    (role : value.label.role = some "value")
    (sits : ∀ tree ∈ front ++ rest, Sits parsed.source tree)
    (reaches : ∀ tree ∈ front ++ rest, Reaches parsed tree) :
    (ofTree parsed value).callsBelow ++ callsBelowAll (ofOthers parsed "value" (front ++ rest)) =
      (callsOf false false (front ++ rest)).map (ofTree parsed) := by
  generalize whole : value :: solid = parts at row
  induction row with
  | nil => cases whole
  | @extra tree next solid trees skipped _ ih =>
    have here := sits tree List.mem_cons_self
    have later := ih (fun other mem => sits other (List.mem_cons_of_mem _ mem))
      (fun other mem => reaches other (List.mem_cons_of_mem _ mem)) whole
    have none := here.extra_calls skipped
    have own := reaches tree List.mem_cons_self
    rw [Reaches, none] at own
    rw [List.cons_append, ofOthers, (here.extra skipped).2.1, if_neg (by decide),
      callsOf_cons (Bool.false_and _), none, List.nil_append, ← later]
    split
    · rw [callsBelowAll_cons, own]
      rfl
    · rfl
  | @part tree solid trees kept _ ih =>
    cases whole
    have later : callsBelowAll (ofKept parsed (trees ++ rest)) = _ :=
      kept_calls (fun other mem => sits other (List.mem_cons_of_mem _ mem))
        fun other mem => reaches other (List.mem_cons_of_mem _ mem)
    rw [List.cons_append, ofOthers, role, if_pos (by decide), callsOf_cons (Bool.false_and _),
      List.map_append, reaches value List.mem_cons_self, later]

/-- The calls below a call are those of the function and those of the arguments. -/
private theorem reaches_call {label : Label} {children : List Tree} {function given : Tree}
    (kind : label.kind = "call") (row : Row [function, given] children)
    (called : function.label.role = some "function") (role : given.label.role = some "arguments")
    (given_kind : given.kind = "argument_list" ∨ given.kind = "generator_expression")
    (sits : ∀ tree ∈ children, Sits parsed.source tree)
    (reaches : ∀ tree ∈ children, Reaches parsed tree) :
    Reaches parsed (.node label children) := by
  have found : ofRole parsed "function" children = some (ofTree parsed function) := by
    rw [ofRole_eq, find_in_row row sits]
    simp [called]
  have listed : callsBelowAll (argumentsOf parsed children) =
      (given.calls false).map (ofTree parsed) := by
    have second : ([function, given].find? fun tree => tree.label.role == some "arguments") =
        some given := by
      simp [called, role]
    have own := reaches given (row.mem given (by simp))
    rw [argumentsOf_eq, find_in_row row sits, second, ← own]
    rcases given_kind with arguments | generator
    · obtain ⟨own_label, parts⟩ := given
      have is : own_label.kind = "argument_list" := arguments
      have made : ofTree parsed (.node own_label parts) =
          .other own_label.span own_label.kind (ofKept parsed parts) := by
        rw [ofTree, is]
        rfl
      rw [made, callsBelow_eq]
      simp [arguments, Tree.children, isCall, Node.children]
    · simp [generator]
  have made : ofTree parsed (.node label children) =
      .call label.span (ofTree parsed function) (argumentsOf parsed children) := by
    simp only [ofTree, kind, found]
  have parts : callsOf false false children = function.calls false ++ given.calls false := by
    rw [row.calls sits, callsOf_cons (Bool.false_and _), callsOf_cons (Bool.false_and _),
      callsOf_nil,
      List.append_nil]
  have function_reaches := reaches function (row.mem function (by simp))
  rw [Reaches, callsBelow_eq, made, isCall, if_pos rfl, Node.children, callsBelowAll_cons,
    function_reaches, listed, calls, kind, if_neg (by decide), if_pos (by decide), List.map_cons,
    made,
    (by decide : ("call" == "lambda") = false), parts, List.map_append]
  rfl

/-- The calls below a lambda are those of its body. -/
private theorem reaches_lambda {label : Label} {children given : List Tree}
    {word colon result : Tree} (kind : label.kind = "lambda")
    (row : Row (word :: (given ++ [colon, result])) children) (opened : IsSign "lambda" word)
    (ends : IsSign ":" colon) (role : result.label.role = some "body")
    (header : ∀ tree ∈ given, tree.label.role = some "parameters")
    (sits : ∀ tree ∈ children, Sits parsed.source tree)
    (reaches : ∀ tree ∈ children, Reaches parsed tree) :
    Reaches parsed (.node label children) := by
  have skipped : (given.find? fun tree => tree.label.role == some "body") = none :=
    List.find?_eq_none.mpr fun tree mem => by simp [header tree mem]
  have found : ofRole parsed "body" children = some (ofTree parsed result) := by
    rw [ofRole_eq, find_in_row row sits, List.find?_cons_of_neg (by simp [opened.role]),
      List.find?_append, skipped, Option.none_or, List.find?_cons_of_neg (by simp [ends.role]),
      List.find?_cons_of_pos (by simp [role])]
    rfl
  have quiet : ∀ {sign : String} {tree : Tree}, IsSign sign tree → tree ∈ children →
      tree.calls false = [] := fun is mem => (sits _ mem).closed_calls is.closed
  have parts : callsOf false true children = result.calls false := by
    rw [row.calls sits, callsOf_cons (by simp [opened.role]), callsOf_hidden header,
      callsOf_cons (by simp [ends.role]), callsOf_cons (by simp [role]), callsOf_nil,
      quiet opened (row.mem _ (by simp)), quiet ends (row.mem _ (by simp))]
    simp
  have plain : (ofTree parsed (.node label children)).isCall = false ∧
      (ofTree parsed (.node label children)).children = [ofTree parsed result] := by
    simp only [ofTree, kind, found]
    exact ⟨rfl, rfl⟩
  rw [Reaches, callsBelow_eq, plain.1, plain.2, callsBelowAll_cons, callsBelowAll_nil,
    reaches result (row.mem result (by simp)), calls, kind, if_neg (by decide), if_neg (by decide),
    (by decide : ("lambda" == "lambda") = true), parts]
  simp

private theorem reaches_subscript {label : Label} {value first : Tree} {front trees : List Tree}
    (kind : label.kind = "subscript") (row : Row [value, first] front)
    (role : value.label.role = some "value")
    (sits : ∀ tree ∈ front ++ trees, Sits parsed.source tree)
    (reaches : ∀ tree ∈ front ++ trees, Reaches parsed tree) :
    Reaches parsed (.node label (front ++ trees)) := by
  have found : ofRole parsed "value" (front ++ trees) = some (ofTree parsed value) := by
    rw [ofRole_eq, List.find?_append,
      find_in_row row fun tree mem => sits tree (List.mem_append_left _ mem)]
    simp [role]
  have plain : (ofTree parsed (.node label (front ++ trees))).isCall = false ∧
      (ofTree parsed (.node label (front ++ trees))).children =
        ofTree parsed value :: ofOthers parsed "value" (front ++ trees) := by
    simp only [ofTree, kind, found]
    exact ⟨rfl, rfl⟩
  rw [Reaches, callsBelow_eq, plain.1, plain.2, callsBelowAll_cons,
    others_calls row role sits reaches,
    calls, kind, if_neg (by decide), if_neg (by decide),
    (by decide : ("subscript" == "lambda") = false)]
  rfl

private theorem reaches_access {label : Label} {children : List Tree} {object dot name : Tree}
    (kind : label.kind = "attribute") (row : Row [object, dot, name] children)
    (role : object.label.role = some "object") (sign : IsSign "." dot)
    (name_role : name.label.role = some "attribute") (name_kind : name.kind = "identifier")
    (sits : ∀ tree ∈ children, Sits parsed.source tree)
    (reaches : ∀ tree ∈ children, Reaches parsed tree) :
    Reaches parsed (.node label children) := by
  have found : ofRole parsed "object" children = some (ofTree parsed object) := by
    rw [ofRole_eq, find_in_row row sits]
    simp [role]
  have named : (children.find? fun child => child.label.role == some "attribute") = some name := by
    rw [find_in_row row sits]
    simp [role, sign.role, name_role]
  have plain : (ofTree parsed (.node label children)).isCall = false ∧
      (ofTree parsed (.node label children)).children = [ofTree parsed object] := by
    simp only [ofTree, kind, found, named]
    exact ⟨rfl, rfl⟩
  have name_sits := sits name (row.mem name (by simp))
  have parts : callsOf false false children = object.calls false := by
    rw [row.calls sits, callsOf_cons (Bool.false_and _), callsOf_cons (Bool.false_and _),
      callsOf_cons (Bool.false_and _), callsOf_nil,
      (sits dot (row.mem dot (by simp))).closed_calls sign.closed,
      name_sits.closed_calls (name_sits.atom_closed (by rw [name_kind]; decide))]
    simp
  rw [Reaches, callsBelow_eq, plain.1, plain.2, callsBelowAll_cons, callsBelowAll_nil,
    reaches object (row.mem object (by simp)), calls, kind, if_neg (by decide), if_neg (by decide),
    (by decide : ("attribute" == "lambda") = false), parts]
  simp

/-- Every tree that follows the grammar reaches its calls. -/
theorem reaches_of_sits (parsed : Parsed) :
    ∀ tree : Tree, Sits parsed.source tree → Reaches parsed tree
  | .node label children, sits => by
    cases closed : isClosed (.node label children) with
    | true =>
      have none : (ofTree parsed (.node label children)).children = [] := by
        refine List.eq_nil_iff_forall_not_mem.mpr fun part mem => ?_
        have split := (mem_children mem).1
        rw [closed] at split
        cases split
      have plain : (ofTree parsed (.node label children)).isCall = false := by
        cases call : (ofTree parsed (.node label children)).isCall with
        | false => rfl
        | true => exact absurd (isCall_ofTree call) (sits.closed_kind closed)
      rw [Reaches, callsBelow_eq, plain, none, sits.closed_calls closed]
      rfl
    | false =>
      have below := (sits.lies closed).sits
      have reaches : ∀ part ∈ children, Reaches parsed part := fun part mem =>
        reaches_of_sits parsed part (below part mem)
      cases sits with
      | leaf is => rw [is] at closed; cases closed
      | node split whole place parts construct brackets unnamed =>
      cases construct with
      | call is row called role given_kind front =>
        exact reaches_call is row called role given_kind below reaches
      | arguments is | noArguments is | list is =>
        exact reaches_kept (by rw [is]; decide) (by rw [ofTree, is]; rfl) below reaches
      | thunk is row opened ends role =>
        exact @reaches_lambda parsed label children [] _ _ _ is row opened ends role
          (List.forall_mem_nil _) below reaches
      | @lambda word given colon result _ is row opened given_role header ends role =>
        refine @reaches_lambda parsed label children [given] _ _ _ is row opened ends role ?_ below
          reaches
        intro tree mem
        rw [List.mem_singleton.mp mem, given_role]
      | subscript is row role opened listed starts =>
        exact reaches_subscript is row role below reaches
      | access is row role sign name_role name_kind part front =>
        exact reaches_access is row role sign name_role name_kind below reaches
      | other unlisted =>
        refine reaches_kept ?_ (children_of_other unlisted) below reaches
        refine ⟨?_, ?_, ?_⟩ <;> intro is <;> rw [is] at unlisted <;>
          exact absurd unlisted (by decide)
termination_by tree => sizeOf tree
decreasing_by exact Python.Tree.sizeOf_part mem

/-- The calls below the whole of a grammatical source are those of its tree. -/
theorem lower_calls {parsed : Parsed} (grammatical : parsed.Grammatical) :
    (lower parsed).callsBelow = (parsed.tree.calls false).map (ofTree parsed) := by
  obtain ⟨label, children, stop, tree, kind, -, lies⟩ := grammatical
  have reaches : Reaches parsed (.node label children) :=
    reaches_kept (by rw [kind]; decide) (by rw [ofTree, kind]; rfl) lies.sits
      fun part mem => reaches_of_sits parsed part (lies.sits part mem)
  rw [lower, tree]
  exact reaches

/-- Which calls are reached, whatever parser gave the tree. -/
theorem reached_calls {parsed : Parsed} (grammatical : parsed.Grammatical) :
    let reached := (parsed.tree.calls false).map (ofTree parsed)
    (lower parsed).preorder.filter isCall = reached ∧
      reached.map span = (parsed.tree.calls false).map Tree.span ∧
      (∀ function, (Pattern.call function).findIn (lower parsed) =
        reached.filter (Pattern.call function).fits) ∧
      ∀ function arguments, (Pattern.callWith function arguments).findIn (lower parsed) =
        reached.filter (Pattern.callWith function arguments).fits := by
  intro reached
  have below : (lower parsed).preorder.filter isCall = reached := lower_calls grammatical
  have only : ∀ pattern : Pattern, (∀ node, pattern.fits node = true → node.isCall = true) →
      pattern.findIn (lower parsed) = reached.filter pattern.fits := by
    intro pattern calls
    rw [← below, List.filter_filter, Pattern.findIn]
    congr 1
    funext node
    cases fits : pattern.fits node with
    | false => rfl
    | true => rw [calls node fits]; rfl
  refine ⟨below, ?_, fun function => only _ ?_, fun function arguments => only _ ?_⟩
  · rw [List.map_map]
    exact List.map_congr_left fun tree _ => span_of_tree parsed tree
  · intro node fits
    cases node <;> first | rfl | simp [Pattern.fits] at fits
  · intro node fits
    cases node <;> first | rfl | simp [Pattern.fits] at fits

/-- The calls of the syntax tree of a source without syntax errors are, in this order, those of the
concrete tree that stand neither in a string nor in the parameters of a lambda, each with its span.
A search for calls finds exactly those of them that have the shape it looks for. -/
theorem calls_reached (source : Text) (sound : (Python.parse source).hasErrors = false) :
    let parsed := Python.parse source
    let reached := (parsed.tree.calls false).map (ofTree parsed)
    (lower parsed).preorder.filter isCall = reached ∧
      reached.map span = (parsed.tree.calls false).map Tree.span ∧
      (∀ function, (Pattern.call function).findIn (lower parsed) =
        reached.filter (Pattern.call function).fits) ∧
      ∀ function arguments, (Pattern.callWith function arguments).findIn (lower parsed) =
        reached.filter (Pattern.callWith function arguments).fits :=
  reached_calls (Python.parse_grammatical sound)

/-- The theorem applies to a call in the default value of a function and one in its body. -/
theorem calls_reached_default :
    let parsed := Python.parse "def f(x=g()): h(x)\n".toList
    parsed.hasErrors = false ∧ (parsed.tree.calls false).length = 2 ∧
      (lower parsed).preorder.filter isCall = (parsed.tree.calls false).map (ofTree parsed) := by
  have sound : (Python.parse "def f(x=g()): h(x)\n".toList).hasErrors = false := by decide +kernel
  exact ⟨sound, by decide +kernel, (calls_reached _ sound).1⟩

/-- A call in the default value of a lambda is not reached. -/
theorem calls_reached_misses :
    let parsed := Python.parse "f = lambda x=g(): x\n".toList
    parsed.hasErrors = false ∧ ∃ tree ∈ parsed.tree.calls true,
      ∀ node ∈ (lower parsed).preorder, node.isCall = true → node.span ≠ tree.span := by
  intro parsed
  refine ⟨by decide +kernel, ?_⟩
  have missed : (parsed.tree.calls true).any (fun tree => (lower parsed).preorder.all fun node =>
      !(node.isCall && node.span == tree.span)) = true := by decide +kernel
  obtain ⟨tree, mem, none⟩ := List.any_eq_true.mp missed
  refine ⟨tree, mem, fun node found call same => ?_⟩
  have other := List.all_eq_true.mp none node found
  simp [call, same] at other

end

end Node

end LambdaLayout
