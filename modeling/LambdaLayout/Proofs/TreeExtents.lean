import LambdaLayout.Proofs.ChainClauses
import LambdaLayout.Proofs.ParseGrammatical

/-!
The extents of the trees of a source. A tree is in place when every node of it covers a piece of the
source and its parts lie in that piece one after the other, in the order that the grammar gives their
roles. The tree of every source is in place, whether or not the source follows the grammar.
-/

namespace LambdaLayout

open LambdaLayout.Text (Holds)

/-- The spans lie in the outer one, one after the other. -/
structure Span.Frames (outer : Span) (spans : List Span) : Prop where
  inside : ∀ span ∈ spans, outer.contains span = true
  apart : spans.Pairwise fun left right => left.endByte ≤ right.startByte

theorem Span.Frames.sublist {outer : Span} {spans kept : List Span} (frames : outer.Frames spans)
    (sublist : kept.Sublist spans) : outer.Frames kept :=
  ⟨fun span mem => frames.inside span (sublist.subset mem), frames.apart.sublist sublist⟩

namespace Python

open LambdaLayout.Node (isKept)

/-- The first of the trees in the role comes before all of those that follow it. -/
def Leads (role : String) (follows : Tree → Bool) (trees : List Tree) : Prop :=
  ∀ before first after, trees = before ++ first :: after → first.label.role = some role →
    (∀ tree ∈ before, tree.label.role ≠ some role) → ∀ tree ∈ before, follows tree = false

/-- The parts of a construct have the order of the grammar: what is called comes before the arguments,
and the value of a subscript before all else that is kept. -/
structure InRoles (kind : String) (parts : List Tree) : Prop where
  call : kind = "call" → Leads "function" (fun tree => tree.label.role == some "arguments") parts
  subscript : kind = "subscript" → Leads "value" isKept parts

/-- Every node covers a piece of the source, in which its parts lie one after the other, in the order
of their roles. Nothing is asked of the parts of a string. -/
inductive Tree.InPlace (source : Text) : Tree → Prop where
  | string {label : Label} {parts : List Tree} (kind : label.kind = "string")
      (piece : ∃ text, Holds source label.span.startByte text label.span.endByte) :
      InPlace source (node label parts)
  | node {label : Label} {parts : List Tree}
      (piece : ∃ text, Holds source label.span.startByte text label.span.endByte)
      (frames : label.span.Frames (parts.map Tree.span)) (roles : InRoles label.kind parts)
      (below : ∀ part ∈ parts, InPlace source part) : InPlace source (node label parts)

namespace Tree

section

variable {source : Text} {tree : Tree} {trees before after extras rest : List Tree}
  {label : Label}

theorem InPlace.piece (placed : InPlace source tree) :
    ∃ text, Holds source tree.span.startByte text tree.span.endByte := by
  cases placed with
  | string _ piece => exact piece
  | node piece => exact piece

theorem Lies.frames {span : Span} (lies : Lies source span.startByte trees span.endByte) :
    span.Frames (trees.map Tree.span) where
  inside := by
    rw [List.forall_mem_map]
    exact fun tree mem => Span.contains_iff.mpr (lies.bounds.1 tree mem)
  apart := List.pairwise_map.mpr lies.bounds.2

/-- Only comments and line continuations come before the first solid tree of a row. -/
theorem Row.before_first {first part : Tree} {solid : List Tree} (row : Row (part :: solid) trees)
    (split : trees ++ rest = before ++ first :: after) (outside : part ∉ before) :
    ∃ extras others, trees = extras ++ part :: others ∧
      ∀ tree ∈ before, tree.isExtra = true ∧ tree ∈ extras := by
  obtain ⟨extras, others, whole, skipped, -⟩ := row.split
  refine ⟨extras, others, whole, fun tree mem => ?_⟩
  rw [whole, List.append_assoc, List.cons_append] at split
  have early : tree ∈ extras := by
    rcases List.append_eq_append_iff.mp split with ⟨more, front, back⟩ | ⟨more, front, back⟩
    · cases more with
      | nil =>
        rw [front, List.append_nil] at mem
        exact mem
      | cons next more =>
        obtain ⟨rfl, -⟩ := List.cons.inj back
        exact absurd (by rw [front]; simp) outside
    · rw [front]
      exact List.mem_append_left _ mem
  exact ⟨skipped tree early, early⟩

theorem Sits.comment_wide (sits : Sits source tree) (kind : tree.kind = "comment") :
    tree.span.startByte < tree.span.endByte := by
  have closed := sits.atom_closed (by rw [kind]; decide)
  have width := sits.holds.length
  cases sits with
  | leaf _ whole place fits =>
    rw [text_of_leaf whole place] at width
    have positive := Text.byteLength_pos (fits.comment_filled kind)
    omega
  | node split => rw [closed] at split; cases split

/-- The parts of a construct have the order of the grammar. -/
theorem Construct.roles {kind : String} {start stop : Nat} (lies : Lies source start trees stop)
    (construct : Construct source start kind trees) : InRoles kind trees where
  call := by
    rintro rfl before first after split role others tree mem
    obtain ⟨function, given, row, called, -⟩ := construct.of_call
    have outside : function ∉ before := fun inside => others function inside called
    have whole : trees ++ [] = before ++ first :: after := by rw [List.append_nil, split]
    obtain ⟨_, _, _, early⟩ := row.before_first whole outside
    have sits := lies.sits tree (by rw [split]; exact List.mem_append_left _ mem)
    simp [(sits.extra (early tree mem).1).2.1]
  subscript := by
    rintro rfl before first after split role others tree mem
    obtain ⟨value, opening, front, rest, whole, row, valued, -, -, starts⟩ := construct.of_subscript
    have outside : value ∉ before := fun inside => others value inside valued
    rw [whole] at split lies
    obtain ⟨extras, more, parts, early⟩ := row.before_first split outside
    obtain ⟨extra, among⟩ := early tree mem
    have sits := lies.sits tree (by rw [parts]; simp [among])
    rcases extra_kind extra with comment | continuation
    · -- A comment before the value would start before the subscript does.
      have wide := sits.comment_wide comment
      have first := (lies.bounds.1 tree (by rw [parts]; simp [among])).1
      have order := lies.bounds.2
      rw [parts, List.append_assoc, List.pairwise_append] at order
      have earlier := order.2.2 tree among value (by simp)
      omega
    · simp [isKept, continuation]

/-- A tree without parts that covers a piece of the source is in place. -/
theorem InPlace.leaf (piece : ∃ text, Holds source label.span.startByte text label.span.endByte) :
    InPlace source (.node label []) := by
  have empty (role : String) (follows : Tree → Bool) : Leads role follows [] :=
    fun before _ _ split => absurd split (by simp)
  exact .node piece ⟨List.forall_mem_nil _, .nil⟩ ⟨fun _ => empty _ _, fun _ => empty _ _⟩
    (List.forall_mem_nil _)

/-- A tree that follows the grammar is in place. -/
theorem Sits.inPlace : ∀ tree : Tree, Sits source tree → InPlace source tree
  | .node label children, sits => by
    have piece := sits.holds
    cases sits with
    | leaf closed whole place fits bare =>
      by_cases kind : label.kind = "string"
      · exact .string kind ⟨_, piece⟩
      · rw [bare kind]
        exact .leaf ⟨_, piece⟩
    | node split whole place parts construct brackets =>
      exact .node ⟨_, piece⟩ parts.frames (construct.roles parts) fun part mem =>
        Sits.inPlace part (parts.sits part mem)
termination_by tree => sizeOf tree
decreasing_by exact sizeOf_part mem

end

end Tree

section

variable {source : Text} {pieces : Pieces} {first : Piece} {span : Span} {start stop : Nat}

theorem Stands.covers (stands : Stands source span) :
    ∃ text, Holds source span.startByte text span.endByte := by
  obtain ⟨before, text, after, whole, rfl⟩ := stands.place
  exact ⟨text, before, after, whole, rfl, rfl⟩

/-- No tree starts before the first piece. -/
theorem Laid.first_starts (laid : Laid source start (first :: pieces) stop) :
    Stands source first.span ∧
      ∀ tree ∈ Pieces.trees (first :: pieces), first.span.startByte ≤ tree.span.startByte := by
  have lies := laid.lies
  cases laid with
  | tree gap sits clean rest =>
    refine ⟨sits.stands, List.forall_mem_cons.mpr ⟨Nat.le_refl _, fun tree mem => ?_⟩⟩
    exact Nat.le_trans sits.holds.ordered (rest.lies.bounds.1 tree mem).1
  | mark stands starts ends rest =>
    refine ⟨stands, fun tree mem => ?_⟩
    exact starts ▸ (rest.lies.bounds.1 tree mem).1

theorem endOf_reads (source : Text) : (Cursor.start source).Reads source (endOf source) := by
  have reads := Cursor.Reads.skip source.length (Cursor.start source)
  rwa [Cursor.start, List.take_length] at reads

/-- A module over trees that are in place, one after the other, is in place. -/
theorem moduleOf_inPlace
    (starts : ∀ piece ∈ pieces.head?, Stands source piece.span ∧
      ∀ tree ∈ pieces.trees, piece.span.startByte ≤ tree.span.startByte)
    (apart : pieces.trees.Pairwise fun left right => left.span.endByte ≤ right.span.startByte)
    (below : ∀ tree ∈ pieces.trees, tree.InPlace source) :
    (moduleOf source pieces).InPlace source := by
  have ends := (endOf_reads source).within (Cursor.within_start source)
  have last : Stands source (endOf source).here := ⟨_, _, ends, ends, Nat.le_refl _, rfl⟩
  have size : (endOf source).byte = Text.byteLength source := by
    rw [(endOf_reads source).byte, Cursor.start, Nat.zero_add]
  have first : Stands source ((pieces.head?.map Piece.span).getD (endOf source).here) ∧
      ∀ tree ∈ pieces.trees,
        ((pieces.head?.map Piece.span).getD (endOf source).here).startByte ≤
          tree.span.startByte := by
    cases pieces with
    | nil => exact ⟨last, nofun⟩
    | cons piece pieces => exact starts piece rfl
  have bounded : ∀ tree ∈ pieces.trees, tree.span.endByte ≤ (endOf source).byte := by
    intro tree mem
    obtain ⟨text, held⟩ := (below tree mem).piece
    rw [size]
    exact held.bounded
  refine .node ?_ ⟨?_, List.pairwise_map.mpr apart⟩ ⟨fun is => ?_, fun is => ?_⟩ below
  · obtain ⟨text, held⟩ := first.1.covers
    have bound := held.bounded
    rw [← size] at bound
    exact (first.1.through last (Nat.le_trans held.ordered bound)).covers
  · rw [List.forall_mem_map]
    exact fun tree mem => Span.contains_iff.mpr ⟨first.2 tree mem, bounded tree mem⟩
  · exact absurd is (by decide : "module" ≠ "call")
  · exact absurd is (by decide : "module" ≠ "subscript")

theorem unreadable_stands (source : Text) : Stands source (unreadable source).span := by
  have gaps := Cursor.Reads.skipWhile isGap (Cursor.start source)
  have within := gaps.within (Cursor.within_start source)
  have reads := Cursor.Reads.skip ((source.reverse.dropWhile isGap).length -
    (source.takeWhile isGap).length) ((Cursor.start source).skipWhile isGap)
  exact ⟨_, _, within, reads.within within, reads.ordered, rfl⟩

/-- A bracket that is missing stands at a place of the source, and so does text that is
unreadable. -/
theorem repair_stands (source : Text) : Stands source (repair source).span := by
  rw [repair]
  cases found : missing? source with
  | none => exact unreadable_stands source
  | some tree =>
    obtain ⟨closing, width, -, rfl⟩ := missing_reads found
    have within := (Cursor.Reads.skip width (Cursor.start source)).within
      (Cursor.within_start source)
    exact ⟨_, _, within, within, Nat.le_refl _, rfl⟩

/-- The tree of every source is in place. -/
theorem parse_inPlace (source : Text) : (parse source).tree.InPlace source := by
  rcases tree_of_source source with ⟨pieces, tree, ⟨stop, laid⟩, -, -⟩ | failed
  · rw [tree]
    refine moduleOf_inPlace (fun piece mem => ?_) laid.lies.bounds.2 fun tree mem =>
      Tree.Sits.inPlace tree (laid.lies.sits tree mem)
    obtain ⟨rest, rfl⟩ : ∃ rest, pieces = piece :: rest := List.head?_eq_some_iff.mp mem
    exact laid.first_starts
  · rw [failed]
    have stands := repair_stands source
    refine moduleOf_inPlace ?_ (List.pairwise_singleton _ _) ?_
    · rintro piece ⟨⟩
      exact ⟨stands, List.forall_mem_singleton.mpr (Nat.le_refl _)⟩
    · have leaf : repair source = .node (repair source).label [] := by
        rw [← (repair_leaf source).2]
        cases repair source
        rfl
      rw [Pieces.trees_tree, Pieces.trees_nil, List.forall_mem_singleton, leaf]
      exact .leaf stands.covers

end

end Python

end LambdaLayout
