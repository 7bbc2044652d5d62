import LambdaLayout.Proofs.Grammatical

/-!
The tokens of a source and the leaves of its tree. The leaves of a grammatical tree are spread over
the source in order, and apart from blank space the tokens of the source are exactly those of the
leaves; line continuations and empty leaves make none. The search for candidates sees no difference
between a token and the leaf it comes from.
-/

namespace LambdaLayout

/-- Says that the token is blank space or a line break. -/
def Token.isBlank (token : Token) : Bool := token.kind == .whitespace || token.kind == .newline

/-- The token with its positions left open. -/
def Token.unplaced (token : Token) : Token :=
  { token with
    span := ⟨token.span.startByte, token.span.endByte, Position.origin, Position.origin⟩ }

namespace Text

/-- The offset lies between two characters. -/
def Boundary (source : Text) (offset : Nat) : Prop :=
  ∃ before after, source = before ++ after ∧ byteLength before = offset

theorem Holds.boundaries {source text : Text} (holds : Holds source start text stop) :
    Boundary source start ∧ Boundary source stop := by
  obtain ⟨before, after, whole, left, right⟩ := holds
  exact ⟨⟨before, text ++ after, by rw [whole, List.append_assoc], left⟩,
    before ++ text, after, whole, right⟩

theorem prefix_of_shorter {left right left' right' : Text}
    (same : left ++ right = left' ++ right') (size : byteLength left ≤ byteLength left') :
    ∃ middle, left' = left ++ middle := by
  rcases List.append_eq_append_iff.mp same with ⟨middle, first, -⟩ | ⟨middle, first, -⟩
  · exact ⟨middle, first⟩
  · rw [first, byteLength_append] at size
    have none : middle = [] := byteLength_eq_zero.mp (by omega)
    exact ⟨[], by rw [first, none, List.append_nil, List.append_nil]⟩

/-- Between two boundaries there is a text. -/
theorem holds_between {source : Text} (first : Boundary source start)
    (second : Boundary source stop) (ordered : start ≤ stop) :
    ∃ text, Holds source start text stop := by
  obtain ⟨before, rest, whole, left⟩ := first
  obtain ⟨front, after, again, right⟩ := second
  obtain ⟨middle, split⟩ := prefix_of_shorter (whole.symm.trans again) (by omega)
  exact ⟨middle, before, after, by rw [again, split], left, by rw [← split]; exact right⟩

end Text

namespace Python.Blank

variable {source : Text} {start middle stop : Nat}

theorem append (first : Blank source start middle) (second : Blank source middle stop) :
    Blank source start stop := by
  obtain ⟨left, held, blank⟩ := first
  obtain ⟨right, next, also⟩ := second
  exact ⟨left ++ right, held.append next, blank.append also⟩

theorem here (boundary : Text.Boundary source start) : Blank source start start := by
  obtain ⟨before, after, whole, size⟩ := boundary
  exact ⟨[], ⟨before, after, by rw [List.append_nil]; exact whole, size, by simpa using size⟩, .nil⟩

theorem boundaries (gap : Blank source start stop) :
    Text.Boundary source start ∧ Text.Boundary source stop := by
  obtain ⟨text, held, -⟩ := gap
  exact held.boundaries

theorem ordered (gap : Blank source start stop) : start ≤ stop := by
  obtain ⟨text, held, -⟩ := gap
  exact held.ordered

end Python.Blank

namespace Python.Tree

open LambdaLayout.Text (Boundary Holds)

/-- The leaves are spread over the source from one offset to another, in order. -/
inductive Spread (source : Text) : Nat → List Tree → Nat → Prop where
  | nil {offset : Nat} : Spread source offset [] offset
  | cons {start stop : Nat} {leaf : Tree} {leaves : List Tree}
      (gap : Blank source start leaf.span.startByte) (sits : Sits source leaf)
      (closed : leaf.isClosed = true) (rest : Spread source leaf.span.endByte leaves stop) :
      Spread source start (leaf :: leaves) stop

section

variable {source : Text} {start middle stop : Nat} {tree : Tree} {trees left right : List Tree}

theorem Spread.append (first : Spread source start left middle)
    (second : Spread source middle right stop) : Spread source start (left ++ right) stop := by
  induction first with
  | nil => exact second
  | cons gap sits closed _ ih => exact .cons gap sits closed (ih second)

/-- Blanks may come before the first leaf. -/
theorem Spread.after_blank (gap : Blank source start middle)
    (spread : Spread source middle trees stop) (some : trees ≠ []) :
    Spread source start trees stop := by
  cases spread with
  | nil => exact absurd rfl some
  | cons next sits closed rest => exact .cons (gap.append next) sits closed rest

/-- The text of a tree that follows the grammar. -/
theorem Sits.holds (sits : Sits source tree) :
    Holds source tree.span.startByte (tree.text source) tree.span.endByte := by
  have held : ∃ content, Holds source tree.span.startByte content tree.span.endByte := by
    cases sits with
    | leaf closed whole place fits =>
      exact ⟨_, _, _, whole, by rw [span, label, place]; rfl, by rw [span, label, place]; rfl⟩
    | node split whole place parts construct brackets =>
      exact ⟨_, _, _, whole, by rw [span, label, place]; rfl, by rw [span, label, place]; rfl⟩
  obtain ⟨content, found⟩ := held
  rw [text, Text.slice?_iff.mpr found]
  exact found

theorem leaves_of_closed (closed : tree.isClosed = true) : tree.leaves = [tree] := by
  obtain ⟨label, children⟩ := tree
  rw [leaves]
  exact if_pos closed

theorem leaves_of_split {label : Label} {children : List Tree}
    (split : isClosed (node label children) = false) :
    leaves (node label children) = leavesOf children := by
  rw [leaves]
  exact if_neg (by rw [isClosed] at split; rw [split]; exact Bool.false_ne_true)

mutual

private theorem leaves_ne_nil : ∀ tree : Tree, tree.leaves ≠ []
  | node label children => by
    cases closed : isClosed (node label children) with
    | true => rw [leaves_of_closed closed]; exact List.cons_ne_nil _ _
    | false =>
      rw [leaves_of_split closed]
      refine leavesOf_ne_nil children fun none => ?_
      rw [none] at closed
      cases closed

private theorem leavesOf_ne_nil : ∀ trees : List Tree, trees ≠ [] → leavesOf trees ≠ []
  | [], filled => absurd rfl filled
  | tree :: _, _ => by
    rw [leavesOf]
    exact List.append_ne_nil_of_left_ne_nil (leaves_ne_nil tree) _

end

mutual

/-- The leaves of a grammatical tree are spread over its text. -/
theorem Sits.spread {tree : Tree} : Sits source tree →
    Spread source tree.span.startByte tree.leaves tree.span.endByte
  | .leaf closed whole place fits bare => by
    have sits := Sits.leaf closed whole place fits bare
    rw [leaves_of_closed closed]
    exact .cons (.here sits.holds.boundaries.1) sits closed .nil
  | .node split whole place parts construct brackets _ => by
    rw [leaves_of_split split]
    exact parts.spread

/-- The leaves of trees that lie one after the other are spread over their text. -/
theorem Lies.spread {start stop : Nat} {trees : List Tree} : Lies source start trees stop →
    Spread source start (leavesOf trees) stop
  | .nil => .nil
  | .cons gap sits rest => (sits.spread.after_blank gap (leaves_ne_nil _)).append rest.spread

end

end

end Python.Tree

namespace Token

open LambdaLayout.Python
open LambdaLayout.Text (Boundary)

theorem ofLeaf_is_solid (kind : String) (text : Text) :
    TokenKind.ofLeaf kind text ≠ .whitespace ∧ TokenKind.ofLeaf kind text ≠ .newline := by
  rw [TokenKind.ofLeaf]
  split
  · exact ⟨TokenKind.noConfusion, TokenKind.noConfusion⟩
  split
  · exact ⟨TokenKind.noConfusion, TokenKind.noConfusion⟩
  split
  · exact ⟨TokenKind.noConfusion, TokenKind.noConfusion⟩
  split
  · next found =>
    rw [TokenKind.ofPunctuation?.eq_def] at found
    split at found <;> cases found <;> exact ⟨TokenKind.noConfusion, TokenKind.noConfusion⟩
  · split <;> exact ⟨TokenKind.noConfusion, TokenKind.noConfusion⟩

private theorem joinBlanks_blank (front : Text) (pieces : List (TokenKind × Text))
    (blank : ∀ piece ∈ pieces, piece.1 = .whitespace ∨ piece.1 = .newline) :
    ∀ piece ∈ joinBlanks front pieces, piece.1 = .whitespace ∨ piece.1 = .newline := by
  intro piece mem
  rw [joinBlanks.eq_def] at mem
  split at mem
  · rcases List.mem_cons.mp mem with rfl | later
    · exact .inl rfl
    · exact blank piece (List.mem_cons_of_mem _ later)
  · rcases List.mem_cons.mp mem with rfl | later
    · exact .inl rfl
    · exact blank piece later

/-- Between two leaves there are only blanks and line breaks. -/
private theorem splitGap_blank (gap : Text) :
    ∀ piece ∈ splitGap gap, piece.1 = .whitespace ∨ piece.1 = .newline := by
  fun_induction splitGap gap with
  | case1 => simp
  | case2 _ ih | case3 _ ih | case4 _ _ ih =>
    intro piece mem
    rcases List.mem_cons.mp mem with rfl | later
    · exact .inr rfl
    · exact ih piece later
  | case5 _ ih | case6 _ ih | case7 _ _ ih | case8 _ _ _ _ _ _ _ _ ih =>
    exact joinBlanks_blank _ _ ih

private theorem ofPieces_blank (byte : Nat) (position : Position)
    (pieces : List (TokenKind × Text))
    (blank : ∀ piece ∈ pieces, piece.1 = .whitespace ∨ piece.1 = .newline) :
    (ofPieces byte position pieces).filter (fun token => !token.isBlank) = [] := by
  induction pieces generalizing byte position with
  | nil => rfl
  | cons piece rest ih =>
    obtain ⟨kind, text⟩ := piece
    have first : kind = .whitespace ∨ kind = .newline := blank _ List.mem_cons_self
    rw [ofPieces, List.filter_cons_of_neg (by rcases first with rfl | rfl <;> simp [isBlank])]
    exact ih _ _ fun piece mem => blank piece (List.mem_cons_of_mem _ mem)

/-- The tokens between two leaves are blank. -/
theorem ofGap_blank (byte : Nat) (position : Position) (gap : Text) :
    (ofGap byte position gap).filter (fun token => !token.isBlank) = [] :=
  ofPieces_blank byte position _ (splitGap_blank gap)

/-- What a leaf adds to the tokens: nothing if it is silent, and otherwise the tokens of the gap
before it and its own. -/
theorem ofLeaves_leaf {source : Text} {byte : Nat} {leaf : Tree} (sits : Tree.Sits source leaf)
    (boundary : Boundary source byte) (reached : byte ≤ leaf.span.startByte) (position : Position)
    (rest : List Tree) :
    (leaf.isSilent = true ∧
      ofLeaves source byte position (leaf :: rest) = ofLeaves source byte position rest) ∨
    (leaf.isSilent = false ∧ ∃ gap, Text.Holds source byte gap leaf.span.startByte ∧
      ofLeaves source byte position (leaf :: rest) = ofGap byte position gap ++
        ⟨TokenKind.ofLeaf leaf.kind (leaf.text source), leaf.text source,
          { leaf.span with start := endPosition position (ofGap byte position gap) }⟩ ::
        ofLeaves source leaf.span.endByte leaf.span.stop rest) := by
  have held := sits.holds
  have skipped : isSkipped byte leaf = leaf.isSilent := by
    rw [isSkipped, Tree.isSilent, decide_eq_false (by omega : ¬ leaf.span.startByte < byte),
      Bool.or_false]
  rw [ofLeaves, skipped]
  cases silent : leaf.isSilent with
  | true => exact .inl ⟨rfl, if_pos rfl⟩
  | false =>
    obtain ⟨gap, found⟩ := Text.holds_between boundary held.boundaries.1 reached
    refine .inr ⟨rfl, gap, found, ?_⟩
    rw [if_neg (by decide), Text.slice?_iff.mpr found, Text.slice?_iff.mpr held]

/-- Apart from blanks, the tokens made of leaves that are spread over the source are those of the
leaves. The gap before a leaf may start earlier than the leaf before it ended, when that one made no
token. -/
private theorem ofLeaves_solid {source : Text} {start stop byte : Nat} {leaves : List Tree}
    (spread : Tree.Spread source start leaves stop) (position : Position)
    (boundary : Boundary source byte) (reached : byte ≤ start) :
    ((ofLeaves source byte position leaves).filter fun token => !token.isBlank).map unplaced =
      (leaves.filter fun leaf => !leaf.isSilent).map (Tree.token source) := by
  induction spread generalizing byte position with
  | nil =>
    rw [ofLeaves]
    split
    · rw [ofGap_blank]; rfl
    · rfl
  | @cons start stop leaf leaves gap sits closed _ ih =>
    have held := sits.holds
    have upto := Nat.le_trans reached gap.ordered
    rcases ofLeaves_leaf sits boundary upto position leaves with
      ⟨silent, same⟩ | ⟨silent, between, -, same⟩
    · rw [same, List.filter_cons_of_neg (by simp [silent])]
      exact ih position boundary (Nat.le_trans upto held.ordered)
    · have solid := ofLeaf_is_solid leaf.kind (leaf.text source)
      rw [same, List.filter_append, ofGap_blank, List.nil_append,
        List.filter_cons_of_pos (by simp [isBlank, solid.1, solid.2]), List.map_cons,
        ih leaf.span.stop held.boundaries.2 (Nat.le_refl _),
        List.filter_cons_of_pos (by simp [silent]), List.map_cons]
      rfl

/-- The tokens of a grammatical source are made of leaves that are spread over it. These are the
leaves of its tree, but for a tree without parts, which is a silent leaf in itself. -/
theorem tokenize_spread {parsed : Parsed} (grammatical : parsed.Grammatical) :
    ∃ start stop leaves, Tree.Spread parsed.source start leaves stop ∧
      tokenize parsed = ofLeaves parsed.source 0 Position.origin leaves ∧
      (parsed.tree.leaves.filter fun leaf => !leaf.isSilent) =
        leaves.filter fun leaf => !leaf.isSilent := by
  obtain ⟨label, children, stop, tree, kind, empty, lies⟩ := grammatical
  rw [tokenize, tree]
  cases children with
  | nil =>
    have skipped : isSkipped 0 (.node label []) = true := by
      simp [isSkipped, Tree.span, Tree.label, empty rfl]
    have silent : Tree.isSilent (.node label []) = true := by
      simp [Tree.isSilent, Tree.span, Tree.label, empty rfl]
    rw [Tree.leaves_of_closed rfl, List.filter_cons_of_neg (by simp [silent])]
    exact ⟨_, _, _, lies.spread, by conv => { lhs; rw [ofLeaves, if_pos skipped] }; rfl, rfl⟩
  | cons child children =>
    have split : Tree.isClosed (.node label (child :: children)) = false := by
      simp [Tree.isClosed, kind]
    rw [Tree.leaves_of_split split]
    exact ⟨_, _, _, lies.spread, rfl, rfl⟩

/-- Apart from blanks, the tokens of a grammatical source are those of its leaves. -/
theorem tokenize_solid {parsed : Parsed} (grammatical : parsed.Grammatical) :
    ((tokenize parsed).filter fun token => !token.isBlank).map unplaced =
      parsed.tree.tokens parsed.source := by
  obtain ⟨start, stop, leaves, spread, tokens, same⟩ := tokenize_spread grammatical
  have origin : Boundary parsed.source 0 := ⟨[], parsed.source, rfl, rfl⟩
  rw [tokens, Tree.tokens, same]
  exact ofLeaves_solid spread Position.origin origin (Nat.zero_le _)

end Token

namespace Python.Tree

/-- The tokens of leaves that are spread over the source come in order. -/
theorem Spread.tokens_ordered {source : Text} {start stop : Nat} {leaves : List Tree}
    (spread : Spread source start leaves stop) :
    ((leaves.filter fun leaf => !leaf.isSilent).map (token source)).Pairwise
        (fun left right => left.span.startByte < right.span.startByte) ∧
      ∀ other ∈ (leaves.filter fun leaf => !leaf.isSilent).map (token source),
        start ≤ other.span.startByte := by
  induction spread with
  | nil => simp
  | @cons start stop leaf leaves gap sits closed _ ih =>
    obtain ⟨blanks, before, -⟩ := gap
    have ordered := before.ordered
    have own := sits.holds.ordered
    cases silent : leaf.isSilent with
    | true =>
      rw [List.filter_cons_of_neg (by simp [silent])]
      exact ⟨ih.1, fun other mem =>
        Nat.le_trans (Nat.le_trans ordered own) (ih.2 other mem)⟩
    | false =>
      have filled : leaf.span.startByte < leaf.span.endByte := by
        simp only [isSilent, Bool.or_eq_false_iff, decide_eq_false_iff_not] at silent
        omega
      rw [List.filter_cons_of_pos (by simp [silent]), List.map_cons, List.pairwise_cons]
      refine ⟨⟨fun other mem => Nat.lt_of_lt_of_le filled (ih.2 other mem), ih.1⟩, ?_⟩
      intro other mem
      rcases List.mem_cons.mp mem with rfl | later
      · exact ordered
      · exact Nat.le_trans (Nat.le_trans ordered own) (ih.2 other later)

/-- The tokens of a grammatical source come in order. -/
theorem tokens_ordered {parsed : Parsed} (grammatical : parsed.Grammatical) :
    (parsed.tree.tokens parsed.source).Pairwise
      fun left right => left.span.startByte < right.span.startByte := by
  obtain ⟨start, stop, leaves, spread, -, same⟩ := Token.tokenize_spread grammatical
  rw [tokens, same]
  exact spread.tokens_ordered.1

end Python.Tree

namespace Region

theorem step_unplaced (scan : Scan) (token : Token) :
    step scan token.unplaced = step scan token := rfl

theorem run_unplaced (scan : Scan) (tokens : List Token) :
    run scan (tokens.map Token.unplaced) = run scan tokens := by
  induction tokens generalizing scan with
  | nil => rfl
  | cons token rest ih => rw [List.map_cons, run, run, step_unplaced, ih]

/-- The search sees of the tokens only those that are not blank, wherever they stand in their
lines. -/
theorem run_solid (scan : Scan) (tokens : List Token) :
    run scan ((tokens.filter fun token => !token.isBlank).map Token.unplaced) =
      run scan tokens := by
  have heard : ∀ token : Token, (!token.isInsignificant && !token.isBlank) =
      !token.isInsignificant := by
    rintro ⟨kind, text, span⟩
    cases kind <;> rfl
  rw [run_unplaced, ← run_significant, List.filter_filter]
  simp only [heard]
  exact run_significant scan tokens

end Region

end LambdaLayout
