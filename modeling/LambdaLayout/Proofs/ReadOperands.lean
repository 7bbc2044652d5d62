import LambdaLayout.Proofs.ReadDisplays
import LambdaLayout.Python.Operand

/-!
Operands. A name or a literal is a single tree, and stays one when accesses, subscripts and calls
are put after it. These are made of the parts that the grammar fixes for them, in their order.
-/

namespace LambdaLayout.Python

open LambdaLayout.Python.Tree
open LambdaLayout.Python.Parser

section

variable {source : Text} {grammar : Grammar} {state : ParseState}

/-- A single tree is the next part of a row. -/
theorem One.row {grade : Grade} {offset : Nat} {pieces : Pieces} {tree : Tree}
    {solid trees : List Tree} (one : One source grade offset pieces tree state)
    (rest : Row solid trees) : Row (tree :: solid) (pieces.trees ++ trees) := by
  obtain ⟨lead, split, skipped⟩ := one.lead
  rw [split, Pieces.trees_append, Pieces.trees_map, List.append_assoc]
  clear split
  induction lead with
  | nil => exact .part one.solid rest
  | cons first lead ih =>
    exact .extra (skipped first List.mem_cons_self)
      (ih fun other mem => skipped other (List.mem_cons_of_mem _ mem))

/-- The arguments of a call, as they were read. -/
def Given (source : Text) (offset : Nat) (pieces : Pieces) (next : ParseState) : Prop :=
  ∃ tree, One source .header offset pieces tree next ∧ IsPart tree ∧
    (tree.kind = "argument_list" ∨ tree.kind = "generator_expression")

theorem argument_gives (obeys : Obeys source grammar) (state : ParseState)
    (valid : state.Valid source) :
    Gives (argument grammar) state (Single source .header state.offset) := by
  refine (peekLexeme_gives valid _).bind fun lexeme next seen => ?_
  rw [← seen.1.offset]
  split
  · exact splat_gives obeys seen.1.valid (by decide) _ (by decide)
  · exact splat_gives obeys seen.1.valid (by decide) _ (by decide)
  · refine (obeys.expression seen.1.valid _ _).bind fun value middle first => ?_
    refine (atSign_gives first.whole.valid _ _).bind fun assigned now seen => ?_
    have first := first.stays seen.1
    split
    · refine (inert_sign_gives first.whole.valid (by decide)).bind fun equals now second => ?_
      have began := first.whole.append second.whole.1
      refine (obeys.expression began.valid _ _).bind fun given last third => .pure ?_
      exact (began.append third.whole.1).node _ (by decide) nofun
    · exact .pure first

theorem arguments_gives (obeys : Obeys source grammar) (valid : state.Valid source) :
    Gives (arguments grammar) state (Given source state.offset) := by
  have listed : ∀ {middle next : ParseState} {opened tail : Pieces},
      Reads source .loose "(" state.offset opened middle →
      Tail source ")" .ready middle.offset tail next →
      Given source state.offset (Pieces.node "argument_list" (opened ++ tail)) next := by
    intro middle next opened tail first rest
    have reach := Ending.brackets rounds first rest.toEnding
    obtain ⟨tree, one, sign⟩ := first
    obtain ⟨tree, one, part, kind⟩ :=
      one.construct reach nofun (by decide) (.arguments rfl sign rest.listing)
    exact ⟨tree, one, part, .inl kind⟩
  refine (sign_gives valid _).bind fun opened middle first => ?_
  refine (atSign_gives first.whole.valid _ _).bind fun empty next seen => ?_
  have first := first.stays seen.1
  split
  · exact (sign_gives first.whole.valid _).bind fun shut last ends =>
      .pure (listed first (.of_sign nofun ends))
  · refine (atSign_gives first.whole.valid _ _).bind fun alone next seen => ?_
    have first := first.stays seen.1
    split
    · refine (inert_sign_gives first.whole.valid (by decide)).bind fun comma next second => ?_
      refine (sign_gives second.whole.valid _).bind fun shut last ends => .pure ?_
      have whole := Whole.bracketed rounds first second.whole.1.of_header ends
      obtain ⟨tree, one, opens⟩ := first
      obtain ⟨sign, two, separates⟩ := second
      obtain ⟨last, three, closes⟩ := ends
      have row : Row [tree, sign, last] (tree :: (comma ++ shut).trees) := by
        rw [Pieces.trees_append, ← List.append_nil shut.trees]
        exact .part one.solid (two.row (three.row .nil))
      have reach := whole.1
      rw [List.append_assoc] at reach ⊢
      obtain ⟨given, closed, part, kind⟩ := one.construct reach nofun (by decide)
        (.noArguments rfl row opens separates closes)
      exact ⟨given, closed, part, .inl kind⟩
    · refine (argument_gives obeys _ first.whole.valid).bind fun value last second => ?_
      refine (atClauses_gives second.whole.valid).bind fun clauses now stays => ?_
      have second := second.stays stays
      split
      · refine (comprehension_gives obeys rounds first second.of_header _ (by decide)).mono
          fun pieces next read => ?_
        obtain ⟨tree, one, part, kind⟩ := read
        exact ⟨tree, one, part, .inr kind⟩
      · refine (restOfList_gives (by decide) (fun _ valid => (argument_gives obeys _ valid).mono
          fun _ _ single => single.of_header) second.whole.valid _).bind fun all last read => ?_
        obtain ⟨tail, rfl, rest⟩ := read
        rw [List.append_assoc]
        exact .pure (listed first
          (.after second.of_header.whole.1 (listing_part second.of_header) rest))

theorem subscriptItem_gives (obeys : Obeys source grammar) (state : ParseState)
    (valid : state.Valid source) :
    Gives (subscriptItem grammar) state (Single source .matched state.offset) := by
  have bound : ∀ now : ParseState, now.Valid source → Gives (do
      if (← peekLexeme { newline := false, close := true, string := true }).startsExpression then
        grammar (.expression 1 { close := true })
      else pure [] : Parser Pieces) now fun pieces next =>
        Reach source .header now.offset pieces next ∧
          (pieces = [] ∨ Single source .header now.offset pieces next) := by
    intro now valid
    refine (peekLexeme_gives valid _).bind fun lexeme next seen => ?_
    rw [← seen.1.offset]
    split
    · exact (obeys.expression seen.1.valid _ _).mono fun _ _ read => ⟨read.whole.1, .inr read⟩
    · exact .pure ⟨.start seen.1.valid, .inl rfl⟩
  refine (bound state valid).bind fun lower next read => ?_
  obtain ⟨began, only⟩ := read
  refine (atSign_gives began.valid _ _).bind fun sliced middle seen => ?_
  have began : Reach source .matched state.offset lower middle := began.of_header.stays seen.1
  split
  · refine (sign_gives began.valid _).bind fun colon next second => ?_
    have began : Whole source .matched state.offset (lower ++ colon) next :=
      ⟨began.append second.colon.whole.1, by simp [second.whole.2]⟩
    refine (bound next began.valid).bind fun upper next read => ?_
    have began := began.append read.1.of_header
    refine (atSign_gives began.valid _ _).bind fun again next seen => ?_
    have began := began.stays seen.1
    split
    · refine (sign_gives began.valid _).bind fun mark next second => ?_
      refine (bound next second.whole.valid).bind fun last now read => .pure ?_
      exact (began.append (second.colon.whole.1.append read.1.of_header)).node _ (by decide) nofun
    · exact .pure ((began.append (.start began.valid)).node _ (by decide) nofun)
  · split
    · exact .failure
    · next filled =>
      rcases only with rfl | single
      · exact absurd rfl filled
      · exact .pure (single.stays seen.1).of_header

section Extended

variable {offset : Nat} {value : Pieces}

theorem role_of (role : String) (tree : Tree) :
    (tree.withRole role).label.role = some role ∧ (tree.withRole role).kind = tree.kind := by
  cases tree
  exact ⟨rfl, rfl⟩

private theorem part_withRole {tree : Tree} (part : IsPart tree) (role : String) :
    IsPart (tree.withRole role) := by
  refine ⟨?_, by rw [withRole_solid, part.solid], by rw [isHeard_withRole, part.heard]⟩
  cases tree
  exact part.named

/-- An access to an attribute. -/
theorem access_gives (first : Single source .header offset value state) :
    Gives (do
      let dot ← sign "."
      let name ← identifier
      return Pieces.node "attribute"
        (Pieces.role "object" value ++ dot ++ Pieces.role "attribute" name) : Parser Pieces) state
      (Single source .header offset) := by
  refine (inert_sign_gives first.whole.valid (by decide)).bind fun dot next second => ?_
  refine (identifier_gives second.whole.valid).bind fun name last third => .pure ?_
  obtain ⟨object, one, -⟩ := first
  obtain ⟨sign, two, separates⟩ := second
  obtain ⟨label, three, part, kind⟩ := third
  have one := one.role "object"
  have three := three.role "attribute"
  have reach := one.toReach.append (two.toReach.append three.toReach)
  have row : Row [object.withRole "object", sign, label.withRole "attribute"]
      (object.withRole "object" :: (dot ++ Pieces.role "attribute" name).trees) := by
    rw [Pieces.trees_append, ← List.append_nil (Pieces.role "attribute" name).trees]
    exact .part one.solid (two.row (three.row .nil))
  rw [List.append_assoc]
  exact (one.construct reach nofun (by decide) (.access rfl row (role_of _ _).1 separates
    (role_of _ _).1 ((role_of _ _).2.trans kind) (part_withRole part _) rfl)).single

/-- A subscript. -/
theorem subscript_gives (obeys : Obeys source grammar)
    (first : Single source .header offset value state) :
    Gives (do
      let opened ← sign "["
      let _ ← peek { string := true }
      let item ← subscriptItem grammar
      let all ← restOfList "]" (subscriptItem grammar)
        (Pieces.role "value" value ++ opened ++ item)
      return Pieces.node "subscript" all : Parser Pieces) state
      (Single source .header offset) := by
  refine (sign_gives first.whole.valid _).bind fun opened next second => ?_
  refine (peek_gives second.whole.valid _).bind fun _ now seen => ?_
  have second := second.stays seen.1
  refine (subscriptItem_gives obeys _ second.whole.valid).bind fun item middle third => ?_
  refine (restOfList_gives (by decide) (subscriptItem_gives obeys) third.whole.valid _).bind
    fun all last read => .pure ?_
  obtain ⟨tail, rfl, rest⟩ := read
  have rest : Tail source "]" .ready now.offset (item ++ tail) last :=
    .after third.whole.1 (listing_part third) rest
  have bracketed := Ending.brackets squares second rest.toEnding
  obtain ⟨object, one, -⟩ := first
  obtain ⟨sign, two, opens⟩ := second
  have one := one.role "value"
  have reach := one.toReach.append bracketed
  have row : Row [object.withRole "value", sign] (object.withRole "value" :: opened.trees) := by
    rw [← List.append_nil opened.trees]
    exact .part one.solid (two.row .nil)
  have construct : Construct source (object.withRole "value").span.startByte "subscript"
      (object.withRole "value" :: (opened ++ (item ++ tail)).trees) := by
    rw [Pieces.trees_append]
    exact .subscript rfl row (role_of _ _).1 opens rest.listing rfl
  rw [List.append_assoc, List.append_assoc]
  exact (one.construct reach nofun (by decide) construct).single

/-- A call. -/
theorem call_gives (obeys : Obeys source grammar)
    (first : Single source .header offset value state) :
    Gives (do
      let given ← arguments grammar
      return Pieces.node "call"
        (Pieces.role "function" value ++ Pieces.role "arguments" given) : Parser Pieces) state
      (Single source .header offset) := by
  refine (arguments_gives obeys first.whole.valid).bind fun given next second => .pure ?_
  obtain ⟨function, one, -⟩ := first
  obtain ⟨list, two, part, kinds⟩ := second
  have one := one.role "function"
  have two := two.role "arguments"
  have element : IsElement (list.withRole "arguments") :=
    ⟨⟨by cases list; exact part.named, two.solid, two.heard⟩, two.ends_tree two.ends⟩
  have row : Row [function.withRole "function", list.withRole "arguments"]
      (function.withRole "function" :: (Pieces.role "arguments" given).trees) := by
    rw [← List.append_nil (Pieces.role "arguments" given).trees]
    exact .part one.solid (two.row .nil)
  exact (one.construct (one.toReach.append two.toReach) nofun (by decide)
    (.call rfl row (role_of _ _).1 (role_of _ _).1 (by rw [(role_of _ _).2]; exact kinds)
      rfl element)).single

theorem extendOperand_gives (obeys : Obeys source grammar) (after : After) (calls : Bool)
    (first : Single source .header offset value state) :
    Gives (extendOperand grammar after calls value) state (Single source .header offset) := by
  refine Gives.extend (Single source .header offset) first fun value now first => ?_
  have more : ∀ {now : ParseState} {parser : Parser Pieces},
      Gives parser now (Single source .header offset) →
      Gives (parser >>= fun pieces => return some pieces) now fun result next =>
        Single source .header offset (result.getD value) next :=
    fun gives => gives.bind fun _ _ read => .pure read
  refine (peekLexeme_gives first.whole.valid _).bind fun lexeme next seen => ?_
  have first := first.stays seen.1
  split
  · have step := more (access_gives first)
    simpa only [bind_assoc, pure_bind] using step
  · have step := more (subscript_gives obeys first)
    simpa only [bind_assoc, pure_bind] using step
  · split
    · have step := more (call_gives obeys first)
      simpa only [bind_assoc, pure_bind] using step
    · exact .pure first
  · exact .pure first

end Extended

theorem atom_gives (obeys : Obeys source grammar) (after : After) (valid : state.Valid source) :
    Gives (atom grammar after) state (Single source .header state.offset) := by
  refine (peekLexeme_gives valid _).bind fun lexeme next seen => ?_
  rw [← seen.1.offset]
  have valid := seen.1.valid
  have sees := seen.2.1
  -- A literal is no bracket, whatever its text.
  have literal : ∀ kind : String, lexeme.hasText = true →
      (constructs ++ atoms).contains kind = false →
      (∀ text, lexeme.Covers text → Inert kind text ∧ text.head? ≠ some '\n') →
      Gives (leaf kind true) next (Single source .header next.offset) :=
    fun kind has free inert => named_leaf_gives valid sees has free inert
  split
  · exact stringLiteral_gives obeys after valid
  · exact literal _ rfl (by decide) fun _ covers => ⟨⟨rfl, rfl, nofun, nofun⟩, covers.2⟩
  · exact literal _ rfl (by decide) fun _ covers => ⟨⟨rfl, rfl, nofun, nofun⟩, covers.2⟩
  · exact literal _ rfl (by decide) fun _ covers => ⟨.of_word covers (by decide), fresh_of_word covers⟩
  · exact literal _ rfl (by decide) fun _ covers => ⟨.of_word covers (by decide), fresh_of_word covers⟩
  · exact literal _ rfl (by decide) fun _ covers => ⟨.of_word covers (by decide), fresh_of_word covers⟩
  · split
    · next name =>
      exact (name_leaf_gives valid sees (name_not_lambda name)).mono fun _ _ read => read.single
    · exact .failure
  · refine literal _ rfl (by decide) fun text covers => ?_
    rw [covers.1]
    exact ⟨.of_text (by decide), by decide⟩
  · exact parenthesised_gives obeys valid
  · exact listDisplay_gives obeys valid
  · exact braceDisplay_gives obeys valid
  · exact .failure

theorem starred_gives (obeys : Obeys source grammar) (after : After) (valid : state.Valid source) :
    Gives (starred grammar after) state (Single source .header state.offset) := by
  refine (inert_sign_gives valid (by decide)).bind fun star next first => ?_
  have read : ∀ calls, Gives (do
      let value ← extendOperand grammar after calls (← atom grammar after)
      if isStarred (Pieces.kind value) then return Pieces.node "list_splat" (star ++ value)
      else failure : Parser Pieces) next (Single source .header state.offset) := by
    intro calls
    refine (atom_gives obeys after first.whole.valid).bind fun base now second => ?_
    refine (extendOperand_gives obeys after calls second).bind fun value last second => ?_
    split
    · exact .pure ((first.whole.append second.whole.1).node _ (by decide) nofun)
    · exact .failure
  exact (read true).orElse (read false)

theorem operand_gives (obeys : Obeys source grammar) (after : After) (valid : state.Valid source) :
    Gives (operand grammar after) state (Single source .header state.offset) := by
  refine (atSign_gives valid _ _).bind fun found next seen => ?_
  rw [← seen.1.offset]
  exact .either (fun _ => starred_gives obeys after seen.1.valid)
    (fun _ => atom_gives obeys after seen.1.valid)
    fun base _ read => extendOperand_gives obeys after true read

theorem awaited_gives (obeys : Obeys source grammar) (after : After) (valid : state.Valid source) :
    Gives (awaited grammar after) state (Single source .header state.offset) := by
  refine .orElse ?_ (operand_gives obeys after valid)
  refine (inert_keyword_gives valid (by decide) (by decide)).bind fun word next first => ?_
  refine (peekLexeme_gives first.whole.valid _).bind fun lexeme now seen => ?_
  have first := first.stays seen.1
  split
  · refine (obeys (.arithmetic 21 after) now first.whole.valid).bind fun value last second => .pure ?_
    exact (first.whole.append second.whole.1).node _ (by decide) nofun
  · exact .failure

end

end LambdaLayout.Python
