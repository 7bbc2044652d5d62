import LambdaLayout.Proofs.ReadParameters
import LambdaLayout.Python.Expression

/-!
Expressions. Operators extend what was read before them to a larger single tree. None of the words
and signs between operands bears on the nesting of brackets or lambdas, so the tokens of an
expression may always stand in the header of a lambda.
-/

namespace LambdaLayout.Python

open LambdaLayout.Python.Tree
open LambdaLayout.Python.Parser

section

variable {source : Text} {grammar : Grammar} {state : ParseState}

theorem Obeys.arithmetic (obeys : Obeys source grammar) (valid : state.Valid source) (level : Nat)
    (after : After) :
    Gives (grammar (.arithmetic level after)) state (Single source .header state.offset) :=
  obeys _ state valid

private theorem arithmetic_inert {text : String} {levels : Nat × Nat}
    (found : arithmeticLevel? text = some levels) : isInert text = true := by
  unfold arithmeticLevel? at found
  split at found <;> first | decide | cases found

theorem arithmetic_gives (obeys : Obeys source grammar) (level : Nat) (after : After)
    (valid : state.Valid source) :
    Gives (arithmetic grammar level after) state (Single source .header state.offset) := by
  refine (anySign_gives valid _ (by decide)).bind fun result next read => ?_
  extract_lets operations
  have goes : ∀ (first : Pieces) (next : ParseState), Single source .header state.offset first next →
      Gives (operations first) next (Single source .header state.offset) := by
    intro first next began
    refine Gives.extend _ began fun left now single => ?_
    refine (peekLexeme_gives single.whole.valid _).bind fun lexeme now seen => ?_
    have single := single.stays seen.1
    split
    · split
      · next found =>
        split
        · refine (inert_sign_gives single.whole.valid (arithmetic_inert found)).bind
            fun mark _ second => ?_
          have began := single.whole.append second.whole.1
          refine (obeys.arithmetic began.valid _ _).bind fun value _ third => .pure ?_
          exact (began.append third.whole.1).node _ (by decide) nofun
        · exact .pure single
      · exact .pure single
    · exact .pure single
  split
  · obtain ⟨text, first⟩ := read
    refine (obeys.arithmetic first.whole.valid _ _).bind fun value last second => ?_
    have single := (first.whole.append second.whole.1).node "unary_operator" (by decide) nofun
    exact (Gives.pure single).bind goes
  · refine (atWord_gives read.valid _ _).bind fun awaits now seen => ?_
    rw [← read.offset, ← seen.1.offset] at goes ⊢
    exact .either (fun _ => awaited_gives obeys after seen.1.valid)
      (fun _ => operand_gives obeys after seen.1.valid) goes

/-- Two words that are one operator. -/
private theorem joined_words {offset : Nat} {left right : String} {word more : Pieces}
    {next : ParseState} (first : Reads source .header left offset word state)
    (second : Reads source .header right state.offset more next) (kind : String)
    (free : (constructs ++ atoms).contains kind = false) :
    Reach source .header offset (Pieces.close kind false (word ++ more)) next := by
  have built : constructs.contains kind = false ∧ atoms.contains kind = false := by
    simpa [not_or] using free
  have reach := first.whole.1.append second.whole.1
  obtain ⟨tree, one, sign⟩ := first
  obtain ⟨lead, split, skipped⟩ := one.lead
  have split : word ++ more = lead.map Piece.tree ++ .tree tree :: more := by
    rw [split, List.append_assoc, List.singleton_append]
  obtain ⟨last, next_one, next_sign⟩ := second
  obtain ⟨between, next_split, extra⟩ := next_one.lead
  have leaves : ∀ part ∈ Pieces.trees (.tree tree :: more), isClosed part = true := by
    intro part mem
    rw [Pieces.trees_tree, next_split, Pieces.trees_append, Pieces.trees_map] at mem
    rcases List.mem_cons.mp mem with rfl | mem
    · exact sign.closed
    rcases List.mem_append.mp mem with skipped | mem
    · have among : part ∈ more.trees := by
        rw [next_split, Pieces.trees_append, Pieces.trees_map]
        exact List.mem_append_left _ skipped
      exact ((next_one.laid.clean part among).1.extra (extra part skipped)).1
    · rw [List.mem_singleton.mp mem]
      exact next_sign.closed
  obtain ⟨span, whole, -⟩ := reach.close nofun split skipped one.solid built.2 nofun
    (fun _ => .other free) fun _ => ⟨built.1, leaves⟩
  exact whole

theorem comparison_sign_gives (after : After) (valid : state.Valid source) :
    Gives (comparison? after) state fun result next =>
      match result with
      | none => Stays source state next
      | some pieces => Reach source .header state.offset pieces next := by
  refine (peekLexeme_gives valid _).bind fun lexeme next seen => ?_
  rw [← seen.1.offset]
  have valid := seen.1.valid
  split
  · refine (anySign_gives valid _ (by decide)).mono fun result last read => ?_
    split at read
    · exact seen.1.trans read
    · obtain ⟨text, first⟩ := read
      exact first.whole.1
  · exact (inert_keyword_gives valid (by decide) (by decide)).bind fun _ _ read =>
      .pure read.whole.1
  · refine (inert_keyword_gives valid (by decide) (by decide)).bind fun word now first => ?_
    refine (inert_keyword_gives first.whole.valid (by decide) (by decide)).bind
      fun more last second => .pure ?_
    exact joined_words first second _ (by decide)
  · refine (inert_keyword_gives valid (by decide) (by decide)).bind fun word now first => ?_
    refine (atWord_gives first.whole.valid _ _).bind fun negated now seen => ?_
    have first := first.stays seen.1
    split
    · refine (inert_keyword_gives first.whole.valid (by decide) (by decide)).bind
        fun more last second => .pure ?_
      exact joined_words first second _ (by decide)
    · exact .pure first.whole.1
  · exact .pure seen.1

theorem comparison_gives (obeys : Obeys source grammar) (after : After)
    (valid : state.Valid source) :
    Gives (comparison grammar after) state (Single source .header state.offset) := by
  refine (obeys.arithmetic valid _ _).bind fun first next began => ?_
  refine (Gives.extend (Joined source .header state.offset) (.of_single began) ?_).bind
    fun read last joined => .pure (joined.node _ (by decide) nofun)
  rintro ⟨pieces, flag⟩ now joined
  refine (comparison_sign_gives after joined.1.valid).bind fun result next read => ?_
  split
  · exact .pure (joined.stays read)
  · have began := joined.1.append read
    exact (obeys.arithmetic began.valid _ _).bind fun value last third =>
      .pure (.of_whole (began.append third.whole.1))

theorem term_gives (obeys : Obeys source grammar) (after : After) {body : Rule}
    (reads : ∀ now : ParseState, now.Valid source →
      Gives (grammar body) now (Single source .header now.offset)) (valid : state.Valid source) :
    Gives (term grammar after body) state (Single source .header state.offset) := by
  refine (peekLexeme_gives valid _).bind fun lexeme next seen => ?_
  rw [← seen.1.offset]
  have valid := seen.1.valid
  split
  · refine (inert_keyword_gives valid (by decide) (by decide)).bind fun word now first => ?_
    refine (obeys.expression first.whole.valid _ _).bind fun value last second => .pure ?_
    exact (first.whole.append second.whole.1).node _ (by decide) nofun
  · exact lambda_gives obeys valid reads
  · refine (comparison_gives obeys after valid).bind fun value now first => ?_
    refine (atSign_gives first.whole.valid _ _).bind fun named now seen => ?_
    have first := first.stays seen.1
    split
    · refine (inert_sign_gives first.whole.valid (by decide)).bind fun walrus now second => ?_
      have began := first.whole.append second.whole.1
      refine (obeys.expression began.valid _ _).bind fun value last third => .pure ?_
      exact (began.append third.whole.1).node _ (by decide) nofun
    · exact .pure first

theorem expression_gives (obeys : Obeys source grammar) (level : Nat) (after : After) {body : Rule}
    (reads : ∀ now : ParseState, now.Valid source →
      Gives (grammar body) now (Single source .header now.offset)) (valid : state.Valid source) :
    Gives (expression grammar level after body) state (Single source .header state.offset) := by
  refine (term_gives obeys after reads valid).bind fun first next began => ?_
  refine Gives.extend _ began fun left now single => ?_
  refine (peekLexeme_gives single.whole.valid _).bind fun lexeme now seen => ?_
  have single := single.stays seen.1
  -- An operator that is a word, with the operand after it.
  have grows : ∀ {word : Pieces} {name : String} {next : ParseState},
      Reads source .header name now.offset word next →
      Whole source .header state.offset (left ++ word) next :=
    fun read => single.whole.append read.whole.1
  split
  · split
    · refine (inert_keyword_gives single.whole.valid (by decide) (by decide)).bind fun _ _ read => ?_
      refine (obeys.expression read.whole.valid _ _).bind fun _ _ right => .pure ?_
      exact ((grows read).append right.whole.1).node _ (by decide) nofun
    · exact .pure single
  · split
    · refine (inert_keyword_gives single.whole.valid (by decide) (by decide)).bind fun _ _ read => ?_
      refine (obeys.expression read.whole.valid _ _).bind fun _ _ right => .pure ?_
      exact ((grows read).append right.whole.1).node _ (by decide) nofun
    · exact .pure single
  · split
    · refine (inert_keyword_gives single.whole.valid (by decide) (by decide)).bind fun _ _ read => ?_
      refine (obeys.expression read.whole.valid _ _).bind fun _ _ name => .pure ?_
      have target := name.whole.node "as_pattern_target" (by decide) nofun
      exact ((grows read).append target.whole.1).node _ (by decide) nofun
    · exact .pure single
  · split
    · refine (inert_keyword_gives single.whole.valid (by decide) (by decide)).bind fun _ _ read => ?_
      refine (obeys.expression read.whole.valid _ _).bind fun _ _ condition => ?_
      have began := (grows read).append condition.whole.1
      refine (inert_keyword_gives began.valid (by decide) (by decide)).bind fun _ _ read => ?_
      have began := began.append read.whole.1
      refine (obeys.expression began.valid _ _).bind fun _ _ value => .pure ?_
      exact (began.append value.whole.1).node _ (by decide) nofun
    · exact .pure single
  · exact .pure single

end

end LambdaLayout.Python
