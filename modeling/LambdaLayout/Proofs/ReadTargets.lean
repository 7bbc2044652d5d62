import LambdaLayout.Proofs.ReadPieces
import LambdaLayout.Python.Target

/-!
Renaming what was read. A tree that is given a role, or is renamed because it turned out to be a
target of an assignment, stands where it stood and has the tokens it had.
-/

namespace LambdaLayout.Python

open LambdaLayout.Python.Tree

section Role

variable {source : Text} {grade : Grade} {offset : Nat} {pieces : Pieces} {tree : Tree}
  {state : ParseState}

theorem Pieces.mapLast_append (f : Tree → Tree) (front : Pieces) (tree : Tree) :
    mapLast f (front ++ [.tree tree]) = front ++ [.tree (f tree)] := by
  induction front with
  | nil => rfl
  | cons piece rest ih =>
    have other : ∀ last : Piece, mapLast f (piece :: (rest ++ [last])) =
        piece :: mapLast f (rest ++ [last]) := by
      intro last
      cases rest <;> cases piece <;> rfl
    rw [List.cons_append, other, ih]
    rfl

/-- A role changes nothing else in a single tree. -/
theorem One.role (one : One source grade offset pieces tree state) (name : String) :
    One source grade offset (pieces.role name) (tree.withRole name) state := by
  obtain ⟨lead, split, skipped⟩ := one.lead
  have given : pieces.role name = lead.map Piece.tree ++ [.tree (tree.withRole name)] := by
    rw [split]
    exact Pieces.mapLast_append _ _ _
  have solid : (tree.withRole name).isExtra = false := by rw [withRole_solid, one.solid]
  have laid := one.laid
  rw [split] at laid
  obtain ⟨middle, front, back⟩ := laid.split
  have heard : (tree.withRole name).isHeard = true := by rw [isHeard_withRole, one.heard]
  have same : tokensOf source pieces.trees = tokensOf source (pieces.role name).trees := by
    rw [given, split, Pieces.trees_append, Pieces.trees_append, tokensOf_append, tokensOf_append]
    exact congrArg _ (tokens_withRole name tree).symm
  refine ⟨⟨one.valid, ?_, Grade.fits_congr same ?_ one.fits,
    Grade.ends_congr source same one.ends⟩, solid, heard, lead, given, skipped⟩
  · rw [given]
    refine front.append ?_
    cases back with
    | tree gap sits clean rest =>
      cases tree
      exact .tree gap (sits.withRole one.solid name) (by rw [solid]; nofun) rest
  · rw [given, split, Pieces.trees_append, Pieces.trees_append, Grade.anyError_append,
      Grade.anyError_append]
    simp [anyError, hasError_withRole]

end Role

/-- One tree stands for another: in its place, with its tokens and its repairs. -/
structure Tree.Renames (source : Text) (old new : Tree) : Prop where
  sits : Sits source new
  span : new.span = old.span
  tokens : tokensOf source [new] = tokensOf source [old]
  error : new.hasError = old.hasError
  solid : new.isExtra = old.isExtra

section Targets

variable {source : Text}

theorem Tree.Sits.same {tree : Tree} (sits : Sits source tree) : Renames source tree tree :=
  ⟨sits, rfl, rfl, rfl, rfl⟩

/-- The kinds that are renamed, and those they are given. -/
private def renamed : List (String × String) :=
  [("list_splat", "list_splat_pattern"), ("tuple", "tuple_pattern"),
   ("parenthesized_expression", "tuple_pattern"), ("list", "list_pattern")]

private theorem renamed_kinds {old new : String} (kinds : (old, new) ∈ renamed) :
    atoms.contains old = false ∧ (constructs ++ atoms).contains new = false ∧
      ∀ text, TokenKind.ofLeaf new text = TokenKind.ofLeaf old text := by
  simp only [renamed, List.mem_cons, Prod.mk.injEq, List.not_mem_nil, or_false] at kinds
  rcases kinds with ⟨rfl, rfl⟩ | ⟨rfl, rfl⟩ | ⟨rfl, rfl⟩ | ⟨rfl, rfl⟩ <;>
    exact ⟨by decide, by decide, fun _ => rfl⟩

private theorem sits_renamed {label : Label} {children parts : List Tree} {kind : String}
    (sits : Sits source (.node label children)) (named : label.named = true)
    (kinds : (label.kind, kind) ∈ renamed)
    (below : ∀ start stop, Lies source start children stop → Lies source start parts stop)
    (tokens : tokensOf source parts = tokensOf source children)
    (error : anyError parts = anyError children) (empty : parts.isEmpty = children.isEmpty) :
    Renames source (.node label children) (.node { label with kind := kind } parts) := by
  obtain ⟨old, free, same⟩ := renamed_kinds kinds
  obtain ⟨simple, new⟩ : constructs.contains kind = false ∧ atoms.contains kind = false := by
    simpa [not_or] using free
  have closed : isClosed (.node { label with kind := kind } parts) =
      isClosed (.node label children) := by
    rw [isClosed_of_built old, isClosed_of_built new, empty]
  have new_sits : Sits source (.node { label with kind := kind } parts) := by
    cases sits with
    | leaf is whole place fits =>
      have plain := fits.plain named
      rw [← same] at plain
      refine .leaf (closed.trans is) whole place (.of_built new simple named plain fits.fresh)
        fun _ => ?_
      rw [isClosed_of_built old, ← empty] at is
      exact List.isEmpty_iff.mp is
    | node is whole place lies construct brackets =>
      refine .node (closed.trans is) whole place (below _ _ lies) (.other free) ?_
        fun unnamed => nomatch named.symm.trans unnamed
      rw [tokens, error]
      exact brackets
  refine ⟨new_sits, rfl, ?_, by rw [hasError, hasError, error],
    by rw [solid_of_built new, solid_of_built old]⟩
  rw [tokensOf_cons, tokensOf_cons, tokensOf_nil, List.append_nil, List.append_nil]
  cases is : isClosed (.node label children) with
  | true =>
    have silent : isSilent (.node { label with kind := kind } parts) =
        isSilent (.node label children) := by
      have other : ∀ {kind : String}, atoms.contains kind = false → kind ≠ "line_continuation" := by
        rintro kind built rfl
        exact absurd built (by decide)
      simp only [isSilent, Tree.span, Tree.kind, Tree.label, beq_eq_false_iff_ne.mpr (other new),
        beq_eq_false_iff_ne.mpr (other old)]
      rfl
    rw [tokens_of_closed is, tokens_of_closed (closed.trans is), silent]
    have own : token source (.node { label with kind := kind } parts) =
        token source (.node label children) := by
      simp only [token, text, Tree.span, Tree.kind, Tree.label, same]
    rw [own]
  | false =>
    rw [tokens_of_split is, tokens_of_split (closed.trans is)]
    exact tokens

/-- What a part of a target becomes. -/
def Tree.asPart? (tree : Tree) : Option Tree :=
  if tree.label.named && !tree.isExtra then tree.asTarget? else some tree

private theorem targetsOf_cons (tree : Tree) (rest : List Tree) :
    targetsOf? (tree :: rest) =
      tree.asPart?.bind fun head => (targetsOf? rest).map (head :: ·) := by
  rw [targetsOf?, asPart?]
  cases targetsOf? rest <;> split <;> rfl

mutual

/-- A target stands for the expression it was read as. -/
theorem Tree.asTarget_renames : ∀ (tree target : Tree), Sits source tree → tree.label.named = true →
    tree.asTarget? = some target → Renames source tree target
  | .node label children, target, sits, named, found => by
    rw [asTarget?] at found
    -- A bracketed target is renamed together with its parts.
    have bracketed : ∀ kind, (label.kind, kind) ∈ renamed →
        (targetsOf? children).map (Tree.node { label with kind := kind }) = some target →
        Renames source (.node label children) target := by
      intro kind kinds made
      obtain ⟨parts, split, rfl⟩ := Option.map_eq_some_iff.mp made
      have sits_below : ∀ tree ∈ children, Sits source tree := by
        cases sits with
        | leaf closed =>
          rw [isClosed_of_built (renamed_kinds kinds).1] at closed
          rw [List.isEmpty_iff.mp closed]
          nofun
        | node is whole place lies => exact lies.sits
      obtain ⟨lies, tokens, error, empty⟩ := targetsOf_renames children parts sits_below split
      exact sits_renamed sits named kinds lies tokens error empty
    split at found
    · cases found; exact sits.same
    · cases found; exact sits.same
    · cases found; exact sits.same
    · next kind =>
      split at found
      · cases found
        exact sits_renamed sits named (by rw [kind]; decide) (fun _ _ lies => lies) rfl rfl rfl
      · cases found
    · next kind => exact bracketed _ (by rw [kind]; decide) found
    · next kind => exact bracketed _ (by rw [kind]; decide) found
    · next kind => exact bracketed _ (by rw [kind]; decide) found
    · cases found

theorem Tree.targetsOf_renames : ∀ (trees targets : List Tree),
    (∀ tree ∈ trees, Sits source tree) → targetsOf? trees = some targets →
    (∀ start stop, Lies source start trees stop → Lies source start targets stop) ∧
      tokensOf source targets = tokensOf source trees ∧ anyError targets = anyError trees ∧
      targets.isEmpty = trees.isEmpty
  | [], targets, _, found => by
    rw [targetsOf?] at found
    cases found
    exact ⟨fun _ _ lies => lies, rfl, rfl, rfl⟩
  | tree :: rest, targets, sits, found => by
    rw [targetsOf_cons] at found
    obtain ⟨head, made, later⟩ := Option.bind_eq_some_iff.mp found
    obtain ⟨tail, others, rfl⟩ := Option.map_eq_some_iff.mp later
    obtain ⟨lies, tokens, error, -⟩ := targetsOf_renames rest tail
      (fun tree mem => sits tree (List.mem_cons_of_mem _ mem)) others
    have here := sits tree List.mem_cons_self
    have renames : Renames source tree head := by
      rw [asPart?] at made
      split at made
      · next named =>
        exact asTarget_renames tree head here (Bool.and_eq_true_iff.mp named).1 made
      · cases made
        exact here.same
    refine ⟨fun start stop whole => ?_, ?_, by rw [anyError, anyError, renames.error, error], rfl⟩
    · cases whole with
      | cons gap _ after =>
        exact .cons (renames.span ▸ gap) renames.sits (lies _ _ (renames.span ▸ after))
    · rw [← List.singleton_append, ← @List.singleton_append _ tree, tokensOf_append,
        tokensOf_append, renames.tokens, tokens]

end

theorem Tree.asPart_renames {tree target : Tree} (sits : Sits source tree)
    (made : tree.asPart? = some target) : Renames source tree target := by
  rw [asPart?] at made
  split at made
  · next named => exact asTarget_renames tree target sits (Bool.and_eq_true_iff.mp named).1 made
  · cases made
    exact sits.same

private theorem Pieces.asTargets_tree (tree : Tree) (rest : Pieces) :
    asTargets? (.tree tree :: rest) =
      tree.asPart?.bind fun head => (asTargets? rest).map (.tree head :: ·) := by
  rw [asTargets?, asPart?]
  cases asTargets? rest <;> split <;> rfl

/-- Targets lie where the expressions lay that they were read as. -/
theorem Pieces.asTargets_laid {pieces targets : Pieces} {start stop : Nat}
    (found : pieces.asTargets? = some targets) (laid : Laid source start pieces stop) :
    Laid source start targets stop ∧ tokensOf source targets.trees = tokensOf source pieces.trees ∧
      anyError targets.trees = anyError pieces.trees := by
  induction laid generalizing targets with
  | nil =>
    cases found
    exact ⟨.nil, rfl, rfl⟩
  | @tree start stop tree pieces gap sits clean _ ih =>
    rw [asTargets_tree] at found
    obtain ⟨head, made, later⟩ := Option.bind_eq_some_iff.mp found
    obtain ⟨tail, others, rfl⟩ := Option.map_eq_some_iff.mp later
    obtain ⟨laid, tokens, error⟩ := ih others
    have renames := asPart_renames sits made
    refine ⟨.tree (renames.span ▸ gap) renames.sits ?_ (renames.span ▸ laid), ?_, ?_⟩
    · rw [renames.solid, renames.error]
      exact clean
    · rw [trees_tree, trees_tree, ← List.singleton_append, ← @List.singleton_append _ tree,
        tokensOf_append, tokensOf_append, renames.tokens, tokens]
    · rw [trees_tree, trees_tree, anyError, anyError, renames.error, error]
  | @mark start stop span pieces stands starts ends _ ih =>
    rw [asTargets?] at found
    obtain ⟨tail, others, rfl⟩ := Option.map_eq_some_iff.mp found
    obtain ⟨laid, tokens, error⟩ := ih others
    exact ⟨.mark stands starts ends laid, tokens, error⟩

/-- Targets were read as far as the expressions. -/
theorem Reach.asTargets {grade : Grade} {offset : Nat} {pieces targets : Pieces} {state : ParseState}
    (reach : Reach source grade offset pieces state) (found : pieces.asTargets? = some targets) :
    Reach source grade offset targets state ∧ targets.isHeard = pieces.isHeard := by
  obtain ⟨laid, tokens, error⟩ := Pieces.asTargets_laid found reach.laid
  refine ⟨⟨reach.valid, laid, Grade.fits_congr tokens.symm (by rw [error]; exact id) reach.fits,
    Grade.ends_congr source tokens.symm reach.ends⟩, ?_⟩
  rw [Pieces.isHeard, Pieces.isHeard, any_heard source, any_heard source, tokens]

end Targets

end LambdaLayout.Python
