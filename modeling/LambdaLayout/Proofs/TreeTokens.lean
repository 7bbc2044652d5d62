import LambdaLayout.Proofs.Lowering
import LambdaLayout.Proofs.RegionFound

/-!
The tokens of trees that follow the grammar. Comments and line continuations drop out, signs stand
for themselves, leaves that the grammar names are no brackets, and between the brackets of a list
the brackets match.
-/

namespace LambdaLayout

open LambdaLayout.Python (Parsed Label Tree)

/-- The tokens that the search for candidates heeds. -/
def Region.heeded (tokens : List Token) : List Token :=
  tokens.filter fun token => !token.isInsignificant

namespace Region

@[simp] theorem heeded_nil : heeded [] = [] := rfl

@[simp] theorem heeded_append (left right : List Token) :
    heeded (left ++ right) = heeded left ++ heeded right := List.filter_append ..

theorem heeded_cons {token : Token} (heard : token.isInsignificant = false) (tokens : List Token) :
    heeded (token :: tokens) = token :: heeded tokens :=
  List.filter_cons_of_pos (by rw [heard]; rfl)

theorem heeded_skip {token : Token} (blank : token.isInsignificant = true) (tokens : List Token) :
    heeded (token :: tokens) = heeded tokens :=
  List.filter_cons_of_neg (by rw [blank]; decide)

/-- What is not heeded is no bracket. -/
theorem Matched.heeded {tokens : List Token} (matched : Matched tokens) :
    Matched (heeded tokens) := by
  induction matched with
  | nil => exact .nil
  | @plain token tokens one _ ih =>
    cases blank : token.isInsignificant with
    | true => rw [heeded_skip blank]; exact ih
    | false => rw [heeded_cons blank]; exact .plain one ih
  | @brackets inner tokens first last opens _ closes _ inner_ih rest_ih =>
    rw [heeded_cons (significant_of_open opens), heeded_append,
      heeded_cons (significant_of_close closes)]
    exact .brackets opens inner_ih closes rest_ih

theorem Header.heeded {tokens : List Token} (header : Header tokens) :
    Header (heeded tokens) := by
  induction header with
  | nil => exact .nil
  | @plain token tokens one other word _ ih =>
    cases blank : token.isInsignificant with
    | true => rw [heeded_skip blank]; exact ih
    | false => rw [heeded_cons blank]; exact .plain one other word ih
  | @brackets inner tokens first last opens inside closes _ ih =>
    rw [heeded_cons (significant_of_open opens), heeded_append,
      heeded_cons (significant_of_close closes)]
    exact .brackets opens inside.heeded closes ih
  | @lambda inner tokens first last name word _ colon _ inner_ih rest_ih =>
    have heard : last.isInsignificant = false := by
      rw [Token.isInsignificant, colon]
      rfl
    rw [heeded_cons (CallTokens.significant_of_name name), heeded_append, heeded_cons heard]
    exact .lambda name word inner_ih colon rest_ih

end Region

namespace Python.Tree

open LambdaLayout.Region (heeded IsPlain Matched)

section

variable {source : Text} {tree : Tree} {trees solid : List Tree} {start stop : Nat}

theorem tokensOf_nil : tokensOf source [] = [] := rfl

theorem tokensOf_cons (tree : Tree) (trees : List Tree) :
    tokensOf source (tree :: trees) = tree.tokens source ++ tokensOf source trees := by
  rw [tokensOf, leavesOf, List.filter_append, List.map_append]
  rfl

theorem tokensOf_append (left right : List Tree) :
    tokensOf source (left ++ right) = tokensOf source left ++ tokensOf source right := by
  rw [tokensOf, leavesOf_append, List.filter_append, List.map_append]
  rfl

theorem tokens_of_split (split : tree.isClosed = false) :
    tree.tokens source = tokensOf source tree.children := by
  obtain ⟨label, children⟩ := tree
  rw [tokens, leaves_of_split split]
  rfl

theorem tokens_of_closed (closed : tree.isClosed = true) :
    tree.tokens source = if tree.isSilent then [] else [tree.token source] := by
  rw [tokens, leaves_of_closed closed]
  cases silent : tree.isSilent <;> simp [silent]

theorem text_of_leaf {label : Label} {children : List Tree} {before content after : Text}
    (whole : source = before ++ content ++ after) (place : label.span = spanOver before content) :
    (node label children).text source = content := by
  have held : Text.Holds source label.span.startByte content label.span.endByte :=
    ⟨before, after, whole, by rw [place]; rfl, by rw [place]; rfl⟩
  have same : (node label children).text source =
      (Text.slice? source label.span.startByte label.span.endByte).getD [] := rfl
  rw [same, Text.slice?_iff.mpr held]
  rfl

/-- An atom is a leaf. -/
theorem Sits.atom_closed (sits : Sits source tree) (atom : atoms.contains tree.kind = true) :
    tree.isClosed = true := by
  cases sits with
  | leaf closed => exact closed
  | node split whole place parts construct brackets => exact (construct.not_atom atom).elim

/-- A leaf that the grammar names is no bracket. -/
theorem Sits.leaf_plain (sits : Sits source tree) (closed : tree.isClosed = true)
    (named : tree.label.named = true) : IsPlain (tree.token source) := by
  cases sits with
  | leaf _ whole place fits =>
    rw [IsPlain, token, text_of_leaf whole place]
    exact fits.plain named
  | node split => rw [closed] at split; cases split

theorem extra_kind (extra : tree.isExtra = true) :
    tree.kind = "comment" ∨ tree.kind = "line_continuation" := by
  simpa [isExtra, isComment] using extra

/-- A comment or line continuation is a leaf without a role. -/
theorem Sits.extra (sits : Sits source tree) (extra : tree.isExtra = true) :
    tree.isClosed = true ∧ tree.label.role = none ∧ tree.label.named = true := by
  have kinds := extra_kind extra
  have closed : tree.isClosed = true :=
    sits.atom_closed (by rcases kinds with kind | kind <;> rw [kind] <;> decide)
  cases sits with
  | leaf _ whole place fits => exact ⟨closed, (fits.extra kinds).2, (fits.extra kinds).1⟩
  | node split => rw [closed] at split; cases split

/-- Only comments make comments. -/
theorem token_comment (source : Text) (leaf : Tree) :
    ((leaf.token source).kind == .comment) = leaf.isComment := by
  rw [token, isComment, TokenKind.ofLeaf]
  split
  · next comment => simp [comment]
  · next other =>
    have kind : ∀ text found, TokenKind.ofPunctuation? text = some found → found ≠ .comment := by
      intro text found made
      rw [TokenKind.ofPunctuation?.eq_def] at made
      split at made <;> cases made <;> exact TokenKind.noConfusion
    split
    · simp [other]
    split
    · simp [other]
    split
    · next found made => simp [other, kind _ _ made]
    · split <;> simp [other]

theorem isHeard_eq (source : Text) (tree : Tree) :
    tree.isHeard = (tree.tokens source).any fun token => token.kind != .comment := by
  rw [isHeard, tokens, List.any_map, List.any_filter]
  congr 1
  funext leaf
  rw [Function.comp_apply, bne, token_comment]

theorem isHeard_of_closed (closed : tree.isClosed = true) (solid : tree.isExtra = false)
    (filled : tree.span.startByte < tree.span.endByte) : tree.isHeard = true := by
  rw [isExtra, Bool.or_eq_false_iff] at solid
  have heard : tree.isSilent = false := by
    rw [isSilent, solid.2, Bool.or_false]
    exact decide_eq_false (Nat.not_le.mpr filled)
  rw [isHeard, leaves_of_closed closed, List.any_cons, heard, solid.1]
  rfl

/-- Whether a comment comes last is seen from the tokens. -/
theorem endsSolid_iff (source : Text) {trees : List Tree} :
    EndsSolid trees ↔ ∀ token ∈ (tokensOf source trees).getLast?, token.kind ≠ .comment := by
  have same : ∀ leaf : Tree, (leaf.token source).kind ≠ .comment ↔ leaf.isComment = false := by
    intro leaf
    rw [← token_comment source, beq_eq_false_iff_ne]
  rw [EndsSolid, tokensOf, List.getLast?_map]
  cases ((leavesOf trees).filter fun leaf => !leaf.isSilent).getLast? with
  | none => simp
  | some leaf => simp [same]

theorem EndsSolid.congr (source : Text) {left right : List Tree} (ends : EndsSolid left)
    (tokens : tokensOf source left = tokensOf source right) : EndsSolid right := by
  rw [endsSolid_iff source, ← tokens]
  exact (endsSolid_iff source).mp ends

theorem EndsSolid.append {left right : List Tree} (first : EndsSolid left)
    (second : EndsSolid right) : EndsSolid (left ++ right) := by
  intro leaf mem
  rw [leavesOf_append, List.filter_append, List.getLast?_append, Option.mem_def,
    Option.or_eq_some_iff] at mem
  rcases mem with later | ⟨-, earlier⟩
  · exact second leaf later
  · exact first leaf earlier

/-- A leaf that is no comment ends in itself. -/
theorem endsSolid_of_closed (closed : tree.isClosed = true) (solid : tree.isExtra = false) :
    EndsSolid [tree] := by
  rw [isExtra, Bool.or_eq_false_iff] at solid
  rw [EndsSolid, leavesOf, leavesOf, List.append_nil, leaves_of_closed closed]
  cases silent : tree.isSilent <;> simp [silent, solid.1]

theorem EndsSolid.of_append {left right : List Tree} (ends : EndsSolid (left ++ right)) :
    EndsSolid right := by
  intro leaf mem
  refine ends leaf ?_
  rw [leavesOf_append, List.filter_append, List.getLast?_append, Option.mem_def.mp mem]
  rfl

/-- Before a tree that is heard anything may stand. -/
theorem EndsSolid.prepend {tree : Tree} (left : List Tree) (ends : EndsSolid [tree])
    (heard : tree.isHeard = true) : EndsSolid (left ++ [tree]) := by
  obtain ⟨leaf, mem, own⟩ := List.any_eq_true.mp heard
  have among : leaf ∈ (leavesOf [tree]).filter fun leaf => !leaf.isSilent := by
    rw [leavesOf, leavesOf, List.append_nil]
    exact List.mem_filter.mpr ⟨mem, (Bool.and_eq_true_iff.mp own).1⟩
  intro last is
  refine ends last ?_
  rw [leavesOf_append, List.filter_append, List.getLast?_append] at is
  cases found : ((leavesOf [tree]).filter fun leaf => !leaf.isSilent).getLast? with
  | none =>
    rw [List.getLast?_eq_none_iff.mp found] at among
    cases among
  | some final =>
    rw [found] at is
    exact is

/-- Comments and line continuations are not heeded. -/
theorem Sits.extra_unheeded (sits : Sits source tree) (extra : tree.isExtra = true) :
    heeded (tree.tokens source) = [] := by
  rw [tokens_of_closed (sits.extra extra).1]
  cases silent : tree.isSilent with
  | true => rfl
  | false =>
    have comment : tree.kind = "comment" := by
      rcases extra_kind extra with comment | continuation
      · exact comment
      · simp [isSilent, continuation] at silent
    have kind : (tree.token source).kind = .comment := by
      rw [token, comment]
      rfl
    rw [if_neg (by decide), Region.heeded_skip (by rw [Token.isInsignificant, kind]; rfl)]
    rfl

/-- What is heeded of a row are its solid trees. -/
theorem Row.heeded (row : Row solid trees) (sits : ∀ tree ∈ trees, Sits source tree) :
    heeded (tokensOf source trees) = heeded (tokensOf source solid) := by
  induction row with
  | nil => rfl
  | extra skipped _ ih =>
    rw [tokensOf_cons, Region.heeded_append,
      (sits _ List.mem_cons_self).extra_unheeded skipped, List.nil_append,
      ih fun tree mem => sits tree (List.mem_cons_of_mem _ mem)]
  | part kept _ ih =>
    rw [tokensOf_cons, tokensOf_cons, Region.heeded_append, Region.heeded_append,
      ih fun tree mem => sits tree (List.mem_cons_of_mem _ mem)]

/-- A row ends with its last solid tree. -/
theorem Row.ends {last : Tree} (front : List Tree) (row : Row (front ++ [last]) trees) :
    ∃ before, trees = before ++ [last] := by
  generalize whole : front ++ [last] = solid at row
  induction row generalizing front with
  | nil => simp at whole
  | extra skipped _ ih =>
    obtain ⟨before, split⟩ := ih front whole
    exact ⟨_ :: before, by rw [split]; rfl⟩
  | part kept rest ih =>
    cases front with
    | nil =>
      cases whole
      cases rest
      exact ⟨[], rfl⟩
    | cons first front =>
      obtain ⟨before, split⟩ := ih front (List.cons.inj whole).2
      exact ⟨_ :: before, by rw [split]; rfl⟩

theorem Row.mem (row : Row solid trees) : ∀ tree ∈ solid, tree ∈ trees := by
  induction row with
  | nil => simp
  | extra skipped _ ih => exact fun tree mem => List.mem_cons_of_mem _ (ih tree mem)
  | part kept _ ih =>
    intro tree mem
    rcases List.mem_cons.mp mem with rfl | later
    · exact List.mem_cons_self
    · exact List.mem_cons_of_mem _ (ih tree later)

theorem IsSign.closed {word : String} (sign : IsSign word tree) : tree.isClosed = true := by
  obtain ⟨label, children⟩ := tree
  have leaf : children = [] := sign.leaf
  rw [leaf]
  rfl

/-- A sign has its own text. -/
theorem IsSign.text {word : String} (sign : IsSign word tree) (sits : Sits source tree) :
    tree.text source = word.toList := by
  cases sits with
  | @leaf label children before content after closed whole place fits =>
    have kind : label.kind = word := sign.kind
    rw [text_of_leaf whole place, fits.sign sign.named sign.sound, kind]
  | node split => rw [sign.closed] at split; cases split

/-- A sign is one token. -/
theorem IsSign.tokens {word : String} (sign : IsSign word tree) (sits : Sits source tree)
    (some : word.toList ≠ []) (other : word ≠ "line_continuation") :
    tree.tokens source = [tree.token source] ∧
      tree.span.endByte = tree.span.startByte + Text.byteLength word.toList := by
  have width := sits.holds.length
  rw [sign.text sits] at width
  have positive := Text.byteLength_pos some
  have heard : tree.isSilent = false := by
    simp only [isSilent, sign.kind, Bool.or_eq_false_iff, decide_eq_false_iff_not, Nat.not_le,
      beq_eq_false_iff_ne]
    exact ⟨by omega, other⟩
  rw [tokens_of_closed sign.closed, heard]
  exact ⟨rfl, width⟩

/-- The category of a sign. -/
theorem IsSign.token_kind {word : String} (sign : IsSign word tree) (sits : Sits source tree) :
    (tree.token source).kind = TokenKind.ofLeaf word word.toList := by
  rw [token, sign.text sits, sign.kind]

theorem Sits.leaf_matched (sits : Sits source tree) (closed : tree.isClosed = true)
    (named : tree.label.named = true) : Matched (tree.tokens source) := by
  rw [tokens_of_closed closed]
  split
  · exact .nil
  · exact .plain (sits.leaf_plain closed named) .nil

/-- The brackets of a part without repairs match. -/
theorem IsPart.matched (part : IsPart tree) (sits : Sits source tree)
    (sound : tree.hasError = false) : Matched (tree.tokens source) := by
  cases closed : tree.isClosed with
  | true => exact sits.leaf_matched closed part.named
  | false =>
  cases sits with
  | leaf shut => rw [shut] at closed; cases closed
  | node split whole place parts construct brackets =>
    rw [hasError, Bool.or_eq_false_iff] at sound
    rw [tokens_of_split split]
    exact brackets sound.2

theorem comma_token (sign : IsSign "," tree) (sits : Sits source tree) :
    tree.tokens source = [tree.token source] ∧ (tree.token source).kind = .comma :=
  ⟨(sign.tokens sits (by decide) (by decide)).1, by rw [sign.token_kind sits]; rfl⟩

theorem Sits.extra_matched (sits : Sits source tree) (extra : tree.isExtra = true) :
    Matched (tree.tokens source) := by
  obtain ⟨closed, -, named⟩ := sits.extra extra
  exact sits.leaf_matched closed named

/-- A bracketed list ends with its closing bracket, and before that its brackets match. -/
theorem Listing.tokens {closing : String} {stage : Stage} (some : closing.toList ≠ [])
    (other : closing ≠ "line_continuation") (listing : Listing closing stage trees .closed)
    (unclosed : stage ≠ .closed) (sits : ∀ tree ∈ trees, Sits source tree)
    (sound : ∀ tree ∈ trees, tree.hasError = false) :
    ∃ front last, trees = front ++ [last] ∧ IsSign closing last ∧
      tokensOf source trees = tokensOf source front ++ [last.token source] ∧
      Matched (tokensOf source front) := by
  induction trees generalizing stage with
  | nil => cases listing; exact absurd rfl unclosed
  | cons tree rest ih =>
    have here := sits tree List.mem_cons_self
    have later := fun tree mem => sits tree (List.mem_cons_of_mem _ mem)
    have sound_later := fun tree mem => sound tree (List.mem_cons_of_mem _ mem)
    -- Whatever stands first is put in front of what the rest gives.
    have step : ∀ {next : Stage}, next ≠ .closed → Listing closing next rest .closed →
        Matched (tree.tokens source) → ∃ front last, tree :: rest = front ++ [last] ∧
          IsSign closing last ∧
          tokensOf source (tree :: rest) = tokensOf source front ++ [last.token source] ∧
          Matched (tokensOf source front) := by
      intro next open_ listed matched
      obtain ⟨front, last, split, sign, tokens, inner⟩ := ih listed open_ later sound_later
      refine ⟨tree :: front, last, by rw [split]; rfl, sign, ?_, ?_⟩
      · rw [tokensOf_cons, tokensOf_cons, tokens, List.append_assoc]
      · rw [tokensOf_cons]
        exact matched.append inner
    cases listing with
    | extra skipped open_ listed => exact step open_ listed (here.extra_matched skipped)
    | part kept listed =>
      exact step Stage.noConfusion listed
        (kept.matched here (sound tree List.mem_cons_self))
    | comma sign listed =>
      obtain ⟨single, kind⟩ := comma_token sign here
      refine step Stage.noConfusion listed ?_
      rw [single]
      exact .plain (by rw [IsPlain, kind]; exact ⟨rfl, rfl⟩) .nil
    | close sign open_ listed =>
      cases listed with
      | nil =>
        refine ⟨[], tree, rfl, sign, ?_, .nil⟩
        rw [tokensOf_cons, (sign.tokens here some other).1]
        rfl
      | extra _ unfinished => exact absurd rfl unfinished
      | close _ unfinished => exact absurd rfl unfinished

end

end Python.Tree

end LambdaLayout
