import LambdaLayout.Pattern
import LambdaLayout.Proofs.Lowering

/-!
Nodes without their places. Neither a search for a shape nor the lowering of a tree looks at places:
trees that differ in their places only are lowered to nodes that do, and a search finds the same
nodes in them, wherever these stand.
-/

namespace LambdaLayout

open LambdaLayout.Python (Parsed Tree)

namespace Node

/-- No place in particular. -/
def nowhere : Span := ⟨0, 0, Position.origin, Position.origin⟩

mutual

/-- The node without its place and those of its parts. -/
def bare : Node → Node
  | module _ statements => module nowhere (bareAll statements)
  | call _ function arguments => call nowhere (bare function) (bareAll arguments)
  | access _ object label _ => access nowhere (bare object) label nowhere
  | name _ id => name nowhere id
  | lambda _ parameters body comments =>
    lambda nowhere (parameters.map fun _ => nowhere) (bare body) (bareAll comments)
  | list _ elements => list nowhere (bareAll elements)
  | subscript _ value items => subscript nowhere (bare value) (bareAll items)
  | comment _ text => comment nowhere text
  | other _ kind children => other nowhere kind (bareAll children)

/-- Several nodes without their places. -/
def bareAll : List Node → List Node
  | [] => []
  | node :: rest => bare node :: bareAll rest

end

theorem isComment_bare (node : Node) : node.bare.isComment = node.isComment := by
  cases node <;> simp only [bare, isComment]

theorem bareAll_append (left right : List Node) :
    bareAll (left ++ right) = bareAll left ++ bareAll right := by
  induction left with
  | nil => rfl
  | cons node rest ih => simp only [List.cons_append, bareAll, ih]

theorem bareAll_eq_map (nodes : List Node) : bareAll nodes = nodes.map bare := by
  induction nodes with
  | nil => rfl
  | cons node rest ih => simp only [bareAll, List.map_cons, ih]

mutual

/-- What is below a node is without its place as well. -/
theorem preorder_bare : ∀ node : Node, node.bare.preorder = bareAll node.preorder
  | module _ statements => by simp only [bare, preorder, bareAll, preorderOf_bare statements]
  | call _ function arguments => by
    simp only [bare, preorder, bareAll, bareAll_append, preorder_bare function,
      preorderOf_bare arguments]
  | access _ object _ _ => by simp only [bare, preorder, bareAll, preorder_bare object]
  | name _ _ => rfl
  | lambda _ _ body _ => by simp only [bare, preorder, bareAll, preorder_bare body]
  | list _ elements => by simp only [bare, preorder, bareAll, preorderOf_bare elements]
  | subscript _ value items => by
    simp only [bare, preorder, bareAll, bareAll_append, preorder_bare value, preorderOf_bare items]
  | comment _ _ => rfl
  | other _ _ children => by simp only [bare, preorder, bareAll, preorderOf_bare children]

theorem preorderOf_bare : ∀ nodes : List Node, preorderOf (bareAll nodes) = bareAll (preorderOf nodes)
  | [] => rfl
  | node :: rest => by
    simp only [bareAll, preorderOf, bareAll_append, preorder_bare node, preorderOf_bare rest]

end

mutual

/-- Says that two nodes are the same apart from their places. -/
def isTwin : Node → Node → Bool
  | module _ statements, module _ others => areTwins statements others
  | call _ function arguments, call _ callee others =>
    isTwin function callee && areTwins arguments others
  | access _ object label _, access _ owner word _ => isTwin object owner && label == word
  | name _ id, name _ word => id == word
  | lambda _ parameters body comments, lambda _ given result others =>
    parameters.isSome == given.isSome && isTwin body result && areTwins comments others
  | list _ elements, list _ others => areTwins elements others
  | subscript _ value items, subscript _ owner others => isTwin value owner && areTwins items others
  | comment _ text, comment _ word => text == word
  | other _ kind children, other _ word others => kind == word && areTwins children others
  | _, _ => false

/-- Says that the nodes of two lists are the same apart from their places. -/
def areTwins : List Node → List Node → Bool
  | [], [] => true
  | node :: rest, twin :: others => isTwin node twin && areTwins rest others
  | _, _ => false

end

mutual

theorem isTwin_iff : ∀ left right : Node, left.isTwin right = true ↔ left.bare = right.bare
  | module _ statements, right => by
    cases right <;> simp [isTwin, bare, areTwins_iff statements]
  | call _ function arguments, right => by
    cases right <;> simp [isTwin, bare, isTwin_iff function, areTwins_iff arguments]
  | access _ object _ _, right => by
    cases right <;> simp [isTwin, bare, isTwin_iff object]
  | name _ _, right => by cases right <;> simp [isTwin, bare]
  | lambda _ parameters body comments, right => by
    cases right with
    | lambda _ given result others =>
      cases parameters <;> cases given <;>
        simp [isTwin, bare, isTwin_iff body, areTwins_iff comments]
    | _ => simp [isTwin, bare]
  | list _ elements, right => by
    cases right <;> simp [isTwin, bare, areTwins_iff elements]
  | subscript _ value items, right => by
    cases right <;> simp [isTwin, bare, isTwin_iff value, areTwins_iff items]
  | comment _ _, right => by cases right <;> simp [isTwin, bare]
  | other _ _ children, right => by
    cases right <;> simp [isTwin, bare, areTwins_iff children]

theorem areTwins_iff : ∀ left right : List Node,
    areTwins left right = true ↔ bareAll left = bareAll right
  | [], right => by cases right <;> simp [areTwins, bareAll]
  | node :: rest, right => by
    cases right <;> simp [areTwins, bareAll, isTwin_iff node, areTwins_iff rest]

end

instance (left right : Node) : Decidable (left.bare = right.bare) :=
  decidable_of_iff _ (isTwin_iff left right)

end Node

namespace Pattern

open Node (bare bareAll)

theorem filter_bare (nodes : List Node) :
    (bareAll nodes).filter (fun node => !node.isComment) =
      bareAll (nodes.filter fun node => !node.isComment) := by
  induction nodes with
  | nil => rfl
  | cons node rest ih =>
    simp only [bareAll, List.filter_cons, Node.isComment_bare, ih]
    split <;> simp only [bareAll]

mutual

/-- The shape of a node does not depend on places. -/
theorem fits_bare : ∀ (pattern : Pattern) (node : Node), pattern.fits node.bare = pattern.fits node
  | .any, node => by simp only [fits]
  | .name id, node => by cases node <;> simp only [bare, fits]
  | .access object label, node => by
    cases node <;> simp only [bare, fits, fits_bare object]
  | .call function, node => by cases node <;> simp only [bare, fits, fits_bare function]
  | .callWith function arguments, node => by
    cases node <;> simp only [bare, fits, fits_bare function, filter_bare, fitsAll_bare arguments]
  | .lambda body, node => by cases node <;> simp only [bare, fits, fits_bare body]
  | .list, node => by cases node <;> simp only [bare, fits]

theorem fitsAll_bare : ∀ (patterns : List Pattern) (nodes : List Node),
    fitsAll patterns (bareAll nodes) = fitsAll patterns nodes
  | [], nodes => by cases nodes <;> simp only [bareAll, fitsAll]
  | pattern :: patterns, nodes => by
    cases nodes <;> simp only [bareAll, fitsAll, fits_bare pattern, fitsAll_bare patterns]

end

/-- A search finds the same nodes, whatever their places. -/
theorem findIn_bare (pattern : Pattern) (node : Node) :
    pattern.findIn node.bare = (pattern.findIn node).map bare := by
  have same : pattern.fits ∘ bare = pattern.fits := funext (pattern.fits_bare ·)
  rw [findIn, Node.preorder_bare, Node.bareAll_eq_map, List.filter_map, same, findIn]

end Pattern

namespace Python.Tree

mutual

/-- The same tree over another source, possibly elsewhere: the constructs and their roles are the
same, and so are the texts of names and comments. -/
def alike (first second : Parsed) : Tree → Tree → Bool
  | .node label children, .node other parts =>
    label.kind == other.kind && label.named == other.named && label.role == other.role &&
      (!(label.kind == "identifier" || label.kind == "comment" ||
        label.role == some "attribute") ||
        first.textOf label.span == second.textOf other.span) &&
      alikeAll first second children parts

/-- The same trees, one by one. -/
def alikeAll (first second : Parsed) : List Tree → List Tree → Bool
  | [], [] => true
  | tree :: rest, other :: more => alike first second tree other && alikeAll first second rest more
  | _, _ => false

end

/-- What trees that are alike have in common. -/
structure SameLabel (first second : Parsed) (label other : Python.Label) : Prop where
  kind : other.kind = label.kind
  named : other.named = label.named
  role : other.role = label.role
  text : label.kind = "identifier" ∨ label.kind = "comment" ∨ label.role = some "attribute" →
    second.textOf other.span = first.textOf label.span

theorem alike_node {first second : Parsed} {label other : Python.Label} {children parts : List Tree}
    (same : alike first second (.node label children) (.node other parts) = true) :
    SameLabel first second label other ∧ alikeAll first second children parts = true := by
  simp only [alike, Bool.and_eq_true, Bool.or_eq_true, Bool.not_eq_true', beq_iff_eq,
    Bool.or_eq_false_iff, beq_eq_false_iff_ne] at same
  obtain ⟨⟨⟨⟨kind, named⟩, role⟩, text⟩, below⟩ := same
  refine ⟨⟨kind.symm, named.symm, role.symm, fun spoken => ?_⟩, below⟩
  rcases text with ⟨⟨name, comment⟩, label⟩ | text
  · rcases spoken with is | is | is
    · exact absurd is name
    · exact absurd is comment
    · exact absurd is label
  · exact text.symm

section

variable {first second : Parsed} {tree other : Tree} {trees others rest : List Tree}

theorem alikeAll_nil (same : alikeAll first second [] others = true) : others = [] := by
  cases others with
  | nil => rfl
  | cons => cases same

theorem alikeAll_cons (same : alikeAll first second (tree :: rest) others = true) :
    ∃ head more, others = head :: more ∧ alike first second tree head = true ∧
      alikeAll first second rest more = true := by
  cases others with
  | nil => cases same
  | cons head more =>
    rw [alikeAll, Bool.and_eq_true] at same
    exact ⟨head, more, rfl, same⟩

theorem alike_label (same : alike first second tree other = true) :
    SameLabel first second tree.label other.label := by
  obtain ⟨label, children⟩ := tree
  obtain ⟨other, parts⟩ := other
  exact (alike_node same).1

/-- Trees that are alike have the same part in a role, or both have none. -/
theorem alikeAll_find (role : String) (same : alikeAll first second trees others = true) :
    (trees.find? (fun child => child.label.role == some role) = none ∧
      others.find? (fun child => child.label.role == some role) = none) ∨
    ∃ part piece, trees.find? (fun child => child.label.role == some role) = some part ∧
      others.find? (fun child => child.label.role == some role) = some piece ∧
      alike first second part piece = true ∧ part.label.role = some role := by
  induction trees generalizing others with
  | nil =>
    rw [alikeAll_nil same]
    exact .inl ⟨rfl, rfl⟩
  | cons tree rest ih =>
    obtain ⟨head, more, rfl, here, later⟩ := alikeAll_cons same
    rw [List.find?_cons, List.find?_cons, (alike_label here).role]
    split
    · next found => exact .inr ⟨tree, head, rfl, rfl, here, by simpa using found⟩
    · exact ih later

theorem alikeAll_withoutRole (role : String) (same : alikeAll first second trees others = true) :
    alikeAll first second (Node.withoutRole role trees) (Node.withoutRole role others) = true := by
  induction trees generalizing others with
  | nil =>
    rw [alikeAll_nil same]
    rfl
  | cons tree rest ih =>
    obtain ⟨head, more, rfl, here, later⟩ := alikeAll_cons same
    rw [Node.withoutRole, Node.withoutRole, (alike_label here).role]
    split
    · exact later
    · rw [alikeAll, here, ih later]
      rfl

end

end Python.Tree

namespace Node

open Python.Tree (alike alikeAll)

variable {first second : Parsed}

mutual

theorem commentsIn_bare : ∀ (tree twin : Tree), alike first second tree twin = true →
    bareAll (commentsIn second twin) = bareAll (commentsIn first tree)
  | .node label children, .node mark parts, same => by
    obtain ⟨labels, below⟩ := Python.Tree.alike_node same
    rw [commentsIn, commentsIn, labels.kind]
    split
    · next comment =>
      simp only [bareAll, bare, labels.text (.inr (.inl (eq_of_beq comment)))]
    · exact commentsOf_bare children parts below

theorem commentsOf_bare : ∀ (trees others : List Tree), alikeAll first second trees others = true →
    bareAll (commentsOf second others) = bareAll (commentsOf first trees)
  | [], others, same => by rw [Python.Tree.alikeAll_nil same, commentsOf, commentsOf]
  | tree :: rest, others, same => by
    obtain ⟨head, more, rfl, here, later⟩ := Python.Tree.alikeAll_cons same
    rw [commentsOf, commentsOf, bareAll_append, bareAll_append, commentsIn_bare tree head here,
      commentsOf_bare rest more later]

end

theorem isKept_alike {tree twin : Tree} (same : alike first second tree twin = true) :
    isKept twin = isKept tree := by
  have labels := Python.Tree.alike_label same
  rw [isKept, isKept, Python.Tree.kind, Python.Tree.kind, labels.named, labels.kind]

/-- Two nodes that are the same but for their places are both there, or neither is. -/
theorem both_or_neither {left right : Option Node} (same : left.map bare = right.map bare) :
    (right = none ∧ left = none) ∨
      ∃ part piece, right = some part ∧ left = some piece ∧ piece.bare = part.bare := by
  cases left with
  | none =>
    cases right with
    | none => exact .inl ⟨rfl, rfl⟩
    | some part => cases same
  | some piece =>
    cases right with
    | none => cases same
    | some part => exact .inr ⟨part, piece, rfl, rfl, Option.some.inj same⟩

mutual

/-- Trees that are the same but for their places are lowered to such nodes. -/
theorem ofTree_bare : ∀ (tree twin : Tree), alike first second tree twin = true →
    (ofTree second twin).bare = (ofTree first tree).bare
  | .node label children, .node mark parts, same => by
    obtain ⟨labels, below⟩ := Python.Tree.alike_node same
    have kept := ofKept_bare children parts below
    rw [ofTree, ofTree, labels.kind]
    dsimp only
    -- One case for each construct; those that pick parts by their roles find them in both or not.
    split
    · simp only [bare, kept]
    · rcases both_or_neither (ofRole_bare "function" children parts below) with
        ⟨one, two⟩ | ⟨part, piece, one, two, same⟩
      · simp only [one, two, bare, kept]
      · simp only [one, two, bare, same, argumentsOf_bare children parts below]
    · rcases both_or_neither (ofRole_bare "object" children parts below) with
        ⟨one, two⟩ | ⟨part, piece, one, two, same⟩
      · simp only [one, two, bare, kept]
      · rcases Python.Tree.alikeAll_find "attribute" below with
          ⟨none, missing⟩ | ⟨name, word, found, there, alike, role⟩
        · simp only [one, two, none, missing, bare, kept]
        · have text := (Python.Tree.alike_label alike).text (.inr (.inr role))
          simp only [one, two, found, there, bare, same, Python.Tree.span, text]
    · next kind => simp only [bare, labels.text (.inl kind)]
    · rcases both_or_neither (ofRole_bare "body" children parts below) with
        ⟨one, two⟩ | ⟨part, piece, one, two, same⟩
      · simp only [one, two, bare, kept]
      · have comments := commentsOf_bare _ _ (Python.Tree.alikeAll_withoutRole "body" below)
        rcases Python.Tree.alikeAll_find "parameters" below with
          ⟨none, missing⟩ | ⟨given, again, found, there, -, -⟩
        · simp only [one, two, none, missing, bare, same, comments, Option.map_none]
        · simp only [one, two, found, there, bare, same, comments, Option.map_some]
    · simp only [bare, kept]
    · rcases both_or_neither (ofRole_bare "value" children parts below) with
        ⟨one, two⟩ | ⟨part, piece, one, two, same⟩
      · simp only [one, two, bare, kept]
      · simp only [one, two, bare, same, ofOthers_bare "value" children parts below]
    · next kind => simp only [bare, labels.text (.inr (.inl kind))]
    · simp only [bare]
    · simp only [bare, kept]

theorem ofKept_bare : ∀ (trees others : List Tree), alikeAll first second trees others = true →
    bareAll (ofKept second others) = bareAll (ofKept first trees)
  | [], others, same => by rw [Python.Tree.alikeAll_nil same, ofKept, ofKept]
  | tree :: rest, others, same => by
    obtain ⟨head, more, rfl, here, later⟩ := Python.Tree.alikeAll_cons same
    rw [ofKept, ofKept, isKept_alike here]
    split
    · rw [bareAll, bareAll, ofTree_bare tree head here, ofKept_bare rest more later]
    · exact ofKept_bare rest more later

theorem ofRole_bare (role : String) : ∀ (trees others : List Tree),
    alikeAll first second trees others = true →
    (ofRole second role others).map bare = (ofRole first role trees).map bare
  | [], others, same => by rw [Python.Tree.alikeAll_nil same, ofRole, ofRole]
  | tree :: rest, others, same => by
    obtain ⟨head, more, rfl, here, later⟩ := Python.Tree.alikeAll_cons same
    rw [ofRole, ofRole, (Python.Tree.alike_label here).role]
    split
    · rw [Option.map_some, Option.map_some, ofTree_bare tree head here]
    · exact ofRole_bare role rest more later

theorem ofOthers_bare (role : String) : ∀ (trees others : List Tree),
    alikeAll first second trees others = true →
    bareAll (ofOthers second role others) = bareAll (ofOthers first role trees)
  | [], others, same => by rw [Python.Tree.alikeAll_nil same, ofOthers, ofOthers]
  | tree :: rest, others, same => by
    obtain ⟨head, more, rfl, here, later⟩ := Python.Tree.alikeAll_cons same
    rw [ofOthers, ofOthers, (Python.Tree.alike_label here).role, isKept_alike here]
    split
    · exact ofKept_bare rest more later
    · split
      · rw [bareAll, bareAll, ofTree_bare tree head here, ofOthers_bare role rest more later]
      · exact ofOthers_bare role rest more later

theorem argumentsOf_bare : ∀ (trees others : List Tree), alikeAll first second trees others = true →
    bareAll (argumentsOf second others) = bareAll (argumentsOf first trees)
  | [], others, same => by rw [Python.Tree.alikeAll_nil same, argumentsOf, argumentsOf]
  | .node label children :: rest, others, same => by
    obtain ⟨⟨mark, parts⟩, more, rfl, here, later⟩ := Python.Tree.alikeAll_cons same
    obtain ⟨labels, below⟩ := Python.Tree.alike_node here
    have alone := ofTree_bare (.node label children) (.node mark parts) here
    rw [argumentsOf, argumentsOf, Python.Tree.label, Python.Tree.label, labels.role, labels.kind]
    split
    · split
      · exact ofKept_bare children parts below
      · rw [bareAll, bareAll, alone, bareAll, bareAll]
    · exact argumentsOf_bare rest more later

end

end Node

end LambdaLayout
