import LambdaLayout.Proofs.Rendering

/-!
When there is no layout. A call is refused only for what is in the call itself: a body with nothing
but comments, or a comment outside of the body. What lies inside a call never keeps it from being
laid out, as a call that is refused can still be copied. Every stretch that is copied starts and ends
between two characters and does not end with a comment, and the depth that is given to a stretch is
enough for it: it goes with the length, and every call below a call or a block is shorter.
-/

namespace LambdaLayout

open LambdaLayout.Python (Parsed Tree)
open LambdaLayout.Python.Tree (EndsSolid IsElement Placed)
open LambdaLayout.Text (Boundary Holds byteLength)

theorem Strewn.boundary {source : Text} {start stop : Nat} {tokens : List Token}
    (strewn : Strewn source start tokens stop) : Boundary source start ∧ Boundary source stop := by
  induction strewn with
  | nil held => exact held.boundaries
  | cons held _ _ _ ih => exact ⟨held.boundaries.1, ih.2⟩

theorem Divides.boundary {parsed : Parsed} {offset : Nat} (divides : Divides parsed offset) :
    Boundary parsed.source offset := by
  obtain ⟨left, right, -, strewn, -⟩ := divides
  exact strewn.boundary.2

namespace Layout

/-- A call without a layout: nothing but comments is in the body, or a comment of the call lies
outside of the body. -/
def Refused (tokens : List Token) (call : Node) : Prop :=
  ∃ parts, LambdaParts.ofNode? call = some parts ∧
    ((∀ element ∈ parts.elements, element.isComment = true) ∨
      ∃ token ∈ tokens, token.kind = .comment ∧ call.span.contains token.span = true ∧
        parts.body.contains token.span = false)

variable {parsed : Parsed} {layout : Layout} {tree : Tree} {call : Node} {start stop depth : Nat}
  {text base indent : Text}

/-- Whether a call is refused is seen from its items and the tokens. -/
theorem refused_iff {parts : LambdaParts} (shape : LambdaParts.ofNode? call = some parts) :
    Refused layout.tokens call ↔ parts.elements.all Node.isComment = true ∨
      layout.hasCommentOutside call.span parts.body = true := by
  rw [Refused, hasCommentOutside]
  simp [shape, and_assoc]

section Pieces

/-- The text between two places is there. -/
theorem textOf_of_holds (held : Holds layout.source start text stop) :
    layout.textOf ⟨start, stop⟩ = .ok text := by
  rw [textOf, Text.slice?_iff.mpr held]

/-- The items of a block are all written if those that are no comments are. -/
theorem itemLines_fits {element : Node → Attempt} {row : Nat} {items : List Node}
    (given : ∀ item ∈ items, item.isComment = false → ∃ own, element item = .ok own) :
    ∃ text, itemLines element indent row items = .ok text := by
  induction items generalizing row with
  | nil => exact ⟨[], by rw [itemLines]⟩
  | cons item rest ih =>
    have later := fun other mem => given other (List.mem_cons_of_mem item mem)
    cases solid : item.isComment with
    | true =>
      cases item with
      | comment span own =>
        obtain ⟨after, ran⟩ := @ih span.stop.row later
        exact ⟨_, by rw [itemLines, ran]; rfl⟩
      | _ => cases solid
    | false =>
      obtain ⟨own, made⟩ := given item List.mem_cons_self solid
      obtain ⟨after, ran⟩ := @ih item.span.stop.row later
      exact ⟨_, by rw [itemLines_solid solid, made, ran]; rfl⟩

theorem clauseTexts_fits {clauseText : Clause → Attempt} {clauses : List Clause}
    (given : ∀ clause ∈ clauses, ∃ own, clauseText clause = .ok own) :
    ∃ text, clauseTexts clauseText clauses = .ok text := by
  induction clauses with
  | nil => exact ⟨[], rfl⟩
  | cons clause rest ih =>
    obtain ⟨own, made⟩ := given clause List.mem_cons_self
    obtain ⟨after, ran⟩ := ih fun other mem => given other (List.mem_cons_of_mem _ mem)
    cases rest with
    | nil => exact ⟨own, made⟩
    | cons next rest => exact ⟨own ++ '.' :: after, by rw [clauseTexts, made, ran]; rfl; simp⟩

/-- What is left to another attempt is given by it. -/
theorem Attempt.orElse_fits {first : Attempt} {second : Unit → Attempt}
    (given : (∃ text, first = .ok text) ∨ first = .error .unfit)
    (other : ∃ text, second () = .ok text) : ∃ text, first.orElse second = .ok text := by
  rcases given with ⟨text, rfl⟩ | rfl
  · exact ⟨text, rfl⟩
  · exact other

/-- An item of a block that is no comment is one of its parts. -/
theorem Block.element_of_mem {trees : List Tree} {items : List Node} {item : Node}
    (block : Block parsed trees items) (mem : item ∈ items) (solid : item.isComment = false) :
    ∃ tree ∈ trees, IsElement tree ∧ Node.ofTree parsed tree = item := by
  obtain ⟨tree, among, rfl, kind | part⟩ := block.of_item mem
  · rw [Node.ofTree_comment kind] at solid
    cases solid
  · exact ⟨tree, among, part, rfl⟩

/-- An extended lambda does not end with a comment. -/
theorem lambda_solid {parts : LambdaParts} (placed : Placed parsed tree)
    (shape : LambdaParts.ofNode? (Node.ofTree parsed tree) = some parts) : EndsSolid [tree] := by
  rw [LambdaParts.ofNode?.eq_def] at shape
  split at shape
  · next made => exact Chain.call_solid placed made
  · cases shape

end Pieces

/-- What the layout functions give at a depth that suffices for the length of what they are asked
for: a text, and for a call that is refused the answer that it is unfit. -/
structure Answers (parsed : Parsed) (layout : Layout) (depth : Nat) : Prop where
  call : ∀ {tree : Tree} {base : Text}, Placed parsed tree → 4 * tree.span.length + 1 ≤ depth →
    (∃ text, callText layout depth (Node.ofTree parsed tree) base = .ok text) ∨
      callText layout depth (Node.ofTree parsed tree) base = .error .unfit ∧
        ∀ parts, LambdaParts.ofNode? (Node.ofTree parsed tree) = some parts →
          Refused layout.tokens (Node.ofTree parsed tree)
  range : ∀ {start stop row : Nat} {indent : Text}, Divides parsed start → Divides parsed stop →
    start ≤ stop → (∀ token ∈ (tokensIn parsed start stop).getLast?, token.kind ≠ .comment) →
    4 * (stop - start) + 1 ≤ depth →
    ∃ text, rangeText layout depth ⟨start, stop⟩ row indent = .ok text
  block : ∀ {trees : List Tree} {items : List Node} {length row : Nat} {base : Text},
    Block parsed trees items → (∀ tree ∈ trees, tree.span.length ≤ length) →
    4 * length + 3 ≤ depth → ∃ text, blockText layout depth items row base = .ok text
  element : ∀ {tree : Tree} {indent : Text}, Placed parsed tree → IsElement tree →
    Divides parsed tree.span.startByte → Divides parsed tree.span.endByte →
    4 * tree.span.length + 2 ≤ depth →
    ∃ text, elementText layout depth (Node.ofTree parsed tree) indent = .ok text

section Step

theorem call_answers (grammatical : parsed.Grammatical) (of : Of parsed layout)
    (answers : Answers parsed layout depth) (placed : Placed parsed tree)
    (deep : 4 * tree.span.length + 1 ≤ depth + 1) :
    (∃ text, callText layout (depth + 1) (Node.ofTree parsed tree) base = .ok text) ∨
      callText layout (depth + 1) (Node.ofTree parsed tree) base = .error .unfit ∧
        ∀ parts, LambdaParts.ofNode? (Node.ofTree parsed tree) = some parts →
          Refused layout.tokens (Node.ofTree parsed tree) := by
  rw [callText]
  cases shape : LambdaParts.ofNode? (Node.ofTree parsed tree) with
  | none => exact .inr ⟨rfl, by simp⟩
  | some parts =>
  have refused := @refused_iff layout _ _ shape
  dsimp only
  split
  · next empty => exact .inr ⟨rfl, fun _ _ => refused.mpr (.inl empty)⟩
  split
  · next outside => exact .inr ⟨rfl, fun _ _ => refused.mpr (.inr outside)⟩
  next outside =>
  rw [Node.span_of_tree] at outside
  obtain ⟨function, given, trees, comma, call⟩ :=
    call_marks placed shape (quiet_of grammatical of.tokens (by simpa using outside))
  have texts : ∀ part ∈ function :: given.toList, ∃ text,
      layout.textOf part.span.extent = .ok text := by
    intro part mem
    have held := (call.uncommented part mem).placed.sits.holds
    rw [← of.source] at held
    exact ⟨_, textOf_of_holds held⟩
  obtain ⟨callee, callee_ran⟩ := texts function List.mem_cons_self
  rw [call.callee] at callee_ran
  obtain ⟨parameters, parameters_ran⟩ : ∃ parameters,
      (parts.parameters.mapM fun span => layout.textOf span.extent) = .ok parameters := by
    rw [← call.parameters]
    cases given with
    | none => exact ⟨none, rfl⟩
    | some part =>
      obtain ⟨text, ran⟩ := texts part (by simp)
      exact ⟨some text, by simp [ran]⟩
  -- The items lie behind the bracket of the body, so they are shorter than the call.
  obtain ⟨block, block_ran⟩ := @answers.block trees parts.elements (tree.span.length - 1)
    parts.body.start.row base call.block (fun part mem => by
      have inside := call.within part mem
      have body := call.body
      simp only [Span.length]
      omega) (by
      have filled := Node.lambda_filled placed shape
      simp only [Span.length] at deep ⊢
      omega)
  exact .inl ⟨_, by rw [callee_ran, parameters_ran, block_ran]; rfl⟩

theorem range_answers {row : Nat} (grammatical : parsed.Grammatical) (of : Of parsed layout)
    (answers : Answers parsed layout depth) (first : Divides parsed start)
    (last : Divides parsed stop) (ordered : start ≤ stop)
    (solid : ∀ token ∈ (tokensIn parsed start stop).getLast?, token.kind ≠ .comment)
    (deep : 4 * (stop - start) + 1 ≤ depth + 1) :
    ∃ text, rangeText layout (depth + 1) ⟨start, stop⟩ row indent = .ok text := by
  have ends : layout.endsWithComment ⟨start, stop⟩ = false := by
    rw [endsWithComment_eq grammatical of.tokens last]
    cases found : (tokensIn parsed start stop).getLast? with
    | none => rfl
    | some token => simpa using solid token found
  obtain ⟨text, held⟩ := Text.holds_between first.boundary last.boundary ordered
  rw [← of.source] at held
  rw [rangeText, if_neg (by rw [ends]; decide), textOf_of_holds held]
  refine replaceCalls_fits held ?_ ?_ (outermost_apart (of.nests grammatical)) ?_
  · intro call mem
    have inside := (mem_outermostFrom mem).2
    rw [isWithin, Bool.and_eq_true, Extent.contains, Bool.and_eq_true] at inside
    exact ⟨of_decide_eq_true inside.1.1, of_decide_eq_true inside.1.2⟩
  · intro call mem
    rw [of.source]
    exact of.holds (mem_outermostFrom mem).1
  · intro call mem
    obtain ⟨among, inside⟩ := mem_outermostFrom mem
    have is_lambda := of.lambdas call among
    obtain ⟨call_first, call_last, -⟩ := lambda_divides is_lambda
    obtain ⟨⟨tree, placed, rfl⟩, parts, -, shape, -⟩ := is_lambda
    -- The call is not the whole range, so it is shorter.
    have shorter : tree.span.length < stop - start := by
      have ordered := placed.sits.holds.ordered
      rw [isWithin, Node.span_of_tree, Span.extent] at inside
      simp only [Extent.contains, Bool.true_and, Bool.and_eq_true, decide_eq_true_eq,
        Bool.not_eq_true', beq_eq_false_iff_ne, ne_eq, Extent.mk.injEq, not_and] at inside
      rw [Span.length]
      omega
    rw [Node.span_of_tree] at call_first call_last
    have solid := placed.last_solid (lambda_solid placed shape)
    refine Attempt.orElse_fits ((answers.call placed (by omega)).imp_right And.left) ?_
    rw [Node.span_of_tree]
    rw [Span.length] at shorter
    exact answers.range call_first call_last placed.sits.holds.ordered solid (by omega)

theorem block_answers {trees : List Tree} {items : List Node} {length row : Nat}
    (answers : Answers parsed layout depth) (block : Block parsed trees items)
    (upto : ∀ tree ∈ trees, tree.span.length ≤ length) (deep : 4 * length + 3 ≤ depth + 1) :
    ∃ text, blockText layout (depth + 1) items row base = .ok text := by
  obtain ⟨lines, ran⟩ := @itemLines_fits (base ++ indentation)
    (fun item => elementText layout depth item (base ++ indentation)) row items (by
      intro item mem solid
      obtain ⟨tree, among, part, rfl⟩ := block.element_of_mem mem solid
      obtain ⟨first, last⟩ := block.divides among part.toIsPart
      have shorter := upto tree among
      exact answers.element (block.placed tree among) part first last (by omega))
  exact ⟨_, by rw [blockText, ran]; rfl⟩

/-- The text of a clause: its head, and the block in brackets. -/
theorem clause_answers {clause : Clause} (answers : Answers parsed layout depth)
    (at_ : Chain.ClauseAt parsed start clause stop) (deep : 4 * (stop - start) + 1 ≤ depth) :
    ∃ text, (do
      let head ← rangeText layout depth clause.head clause.headRow indent
      let body ← blockText layout depth clause.body clause.openRow indent
      return head ++ " [".toList ++ body ++ "]".toList : Attempt) = .ok text := by
  have forward := at_.forward
  have onward := at_.onward
  have head := at_.head
  obtain ⟨head_text, head_ran⟩ := @answers.range start clause.head.stop clause.headRow indent
    at_.first at_.middle forward at_.solid (by omega)
  obtain ⟨trees, block, -, within⟩ := at_.body
  -- The items lie behind the bracket, so they are shorter than the clause.
  obtain ⟨body, body_ran⟩ := @answers.block trees clause.body (stop - start - 1) clause.openRow
    indent block (fun tree mem => by
      have inside := within tree mem
      rw [Span.length]
      omega) (by
      obtain ⟨tree, mem⟩ := block.filled
      have inside := within tree mem
      have ordered := (block.placed tree mem).sits.holds.ordered
      omega)
  rw [← head] at head_ran
  exact ⟨_, by rw [head_ran, body_ran]; rfl⟩

theorem element_answers (grammatical : parsed.Grammatical) (of : Of parsed layout)
    (answers : Answers parsed layout depth) (placed : Placed parsed tree) (part : IsElement tree)
    (first : Divides parsed tree.span.startByte) (last : Divides parsed tree.span.endByte)
    (deep : 4 * tree.span.length + 2 ≤ depth + 1) :
    ∃ text, elementText layout (depth + 1) (Node.ofTree parsed tree) indent = .ok text := by
  rw [Span.length] at deep
  rw [elementText]
  split
  · next clauses found =>
    rw [of.tokens] at found
    have linked := Chain.chain_linked grammatical tree placed last clauses found
    refine clauseTexts_fits fun clause mem => ?_
    obtain ⟨lower, upper, starts, stops, at_⟩ := linked.within mem
    exact clause_answers answers at_ (by omega)
  · rw [Node.span_of_tree]
    have copied := @answers.range _ _ tree.span.start.row indent first last
      placed.sits.holds.ordered (placed.last_solid part.ends) (by omega)
    split
    · exact Attempt.orElse_fits
        ((answers.call placed (by rw [Span.length]; omega)).imp_right And.left) copied
    · exact copied

end Step

/-- At any depth that suffices, everything but a refused call is laid out. -/
theorem answers_at (grammatical : parsed.Grammatical) (of : Of parsed layout) :
    ∀ depth, Answers parsed layout depth
  | 0 =>
    { call := fun _ deep => absurd deep (by omega)
      range := fun _ _ _ _ deep => absurd deep (by omega)
      block := fun _ _ deep => absurd deep (by omega)
      element := fun _ _ _ _ deep => absurd deep (by omega) }
  | depth + 1 =>
    have answers := answers_at grammatical of depth
    { call := call_answers grammatical of answers
      range := range_answers grammatical of answers
      block := block_answers answers
      element := element_answers grammatical of answers }

/-- A call that is refused has no layout, at any depth. -/
theorem callText_refused (refused : Refused layout.tokens call) :
    callText layout (depth + 1) call base = .error .unfit := by
  obtain ⟨parts, shape, why⟩ := refused
  rw [callText, shape]
  dsimp only
  split
  · rfl
  split
  · rfl
  · next some inside =>
    rcases (refused_iff shape).mp ⟨parts, shape, why⟩ with none | outside
    · exact absurd none some
    · exact absurd outside inside

/-- The depth that is chosen for a call suffices. -/
theorem lambda_answers (grammatical : parsed.Grammatical) (of : Of parsed layout)
    (is : Node.IsLambda parsed call) (base : Text) :
    ((∃ text, layout.call call base = .ok text) ∨
      layout.call call base = .error .unfit ∧ Refused layout.tokens call) ∧
      ∃ text, layout.copied call base = .ok text := by
  obtain ⟨first, last, -⟩ := lambda_divides is
  obtain ⟨⟨tree, placed, rfl⟩, parts, -, shape, -⟩ := is
  rw [call, copied, Node.span_of_tree] at *
  have answers := answers_at grammatical of (depthFor tree.span.length)
  have enough : 4 * tree.span.length + 1 ≤ depthFor tree.span.length := by
    rw [depthFor]
    omega
  refine ⟨(answers.call placed enough).imp_right fun refused => ⟨refused.1, refused.2 parts shape⟩,
    answers.range first last placed.sits.holds.ordered ?_ enough⟩
  exact placed.last_solid (lambda_solid placed shape)

end Layout

namespace Reformat

open Layout (Refused)

/-- When a confirmed call has a layout, whatever parser gave the tree. -/
theorem confirmed_laid_out {keyword : Text} {parsed : Parsed} {calls : List Node} {call : Node}
    (grammatical : parsed.Grammatical) (sound : parsed.hasErrors = false)
    (confirms : Confirms keyword parsed calls) (mem : call ∈ calls) :
    let tokens := Token.tokenize parsed
    let layout := Layout.make parsed.source tokens calls
    (∀ base, (∃ refusal, layout.call call base = .error refusal) ↔ Refused tokens call) ∧
      (∀ base, ∃ text, layout.copied call base = .ok text) ∧
      ∃ text, layout.replacement call = .ok text := by
  intro tokens layout
  have answers := Layout.lambda_answers grammatical (confirms.layout grammatical sound)
    (confirms.is_lambda grammatical sound mem)
  refine ⟨fun base => ⟨?_, fun refused => ⟨_, Layout.callText_refused refused⟩⟩,
    fun base => (answers base).2, ?_⟩
  · rintro ⟨refusal, failed⟩
    rcases (answers base).1 with ⟨text, made⟩ | ⟨-, refused⟩
    · exact absurd (made.symm.trans failed) nofun
    · exact refused
  · rw [Layout.replacement]
    exact Layout.Attempt.orElse_fits ((answers _).1.imp_right And.left) (answers _).2

/-- A confirmed call has a canonical layout, at whatever indentation, unless nothing but comments is
in its body or a comment lies outside of it. It can be copied even then, so something is always there
to stand in its place. -/
theorem confirmed_call_laid_out (keyword source : Text) {calls : List Node} {call : Node}
    (sound : (Python.parse source).hasErrors = false)
    (confirms : Confirms keyword (Python.parse source) calls) (mem : call ∈ calls) :
    let tokens := Token.tokenize (Python.parse source)
    let layout := Layout.make source tokens calls
    (∀ base, (∃ refusal, layout.call call base = .error refusal) ↔ Refused tokens call) ∧
      (∀ base, ∃ text, layout.copied call base = .ok text) ∧
      ∃ text, layout.replacement call = .ok text :=
  confirmed_laid_out (Python.parse_grammatical sound) sound confirms mem

/-- The theorem applies to a call that is refused for a comment behind the keyword. -/
theorem confirmed_call_laid_out_refused :
    let source := "f = (def_ # c\n(lambda: [a]))\n".toList
    let tokens := Token.tokenize (Python.parse source)
    ∃ calls, Confirms defaultKeyword (Python.parse source) calls ∧
      let layout := Layout.make source tokens calls
      ∃ call ∈ calls, (∀ base, (∃ refusal, layout.call call base = .error refusal) ↔
          Refused tokens call) ∧ (∀ base, ∃ text, layout.copied call base = .ok text) ∧
        ∃ text, layout.replacement call = .ok text := by
  intro source tokens
  have confirms := confirms_found (by decide : Text.isName defaultKeyword = true) source
  obtain ⟨call, mem, -⟩ := List.any_eq_true.mp
    (by decide +kernel : ((found defaultKeyword source).any fun _ => true) = true)
  exact ⟨_, confirms, call, mem,
    confirmed_call_laid_out defaultKeyword source (by decide +kernel) confirms mem⟩

end Reformat

end LambdaLayout
