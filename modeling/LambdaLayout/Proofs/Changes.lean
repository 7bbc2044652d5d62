import LambdaLayout.Proofs.Rendering

/-!
A pass that counts a change has another text as its result. One edit might grow by what the next one
shrinks, so it does not suffice that each of them changes its own stretch. But what replaces a call
has as many closing parentheses as the call and ends with one, as the call does. If the whole text
stays the same, the first edit therefore ends where its call ends, and so on through all of them.
-/

namespace LambdaLayout

open LambdaLayout.Python (Parsed Tree)
open LambdaLayout.Python.Tree (Placed)
open LambdaLayout.Reformat (Mark)
open LambdaLayout.Text (Holds byteLength)

section Parentheses

variable {commented last : Bool} {marks before after : List Mark} {text : Text}

/-- The closing parentheses of a text are those of its tokens. -/
theorem Written.count_closing (written : Written commented marks text last) :
    text.count ')' = (marks.flatMap Prod.snd).count ')' := by
  induction written with
  | nil => rfl
  | @blank _ _ c _ _ space _ ih =>
    have other : c ≠ ')' := by
      rintro rfl
      exact absurd space (by decide)
    rw [List.count_cons_of_ne other, ih]
  | @continued _ hidden _ _ hides _ ih =>
    have none : hidden.count ')' = 0 := by rcases hides with rfl | rfl | rfl <;> decide
    rw [List.count_append, none, ih, Nat.zero_add]
  | token _ _ ih => rw [List.count_append, ih, List.flatMap_cons, List.count_append]
  | comment _ ih => rw [List.count_append, ih, List.flatMap_cons, List.count_append]

theorem Rearranged.count_closing (rearranged : Rearranged before after) :
    (before.flatMap Prod.snd).count ')' = (after.flatMap Prod.snd).count ')' := by
  have comma : Mark.comma.2.count ')' = 0 := by decide
  induction rearranged with
  | nil => rfl
  | keep _ ih => rw [List.flatMap_cons, List.flatMap_cons, List.count_append, List.count_append, ih]
  | drop _ _ ih => rw [List.flatMap_cons, List.count_append, comma, ih, Nat.zero_add]
  | hoist _ _ _ ih =>
    simp only [List.flatMap_append, List.flatMap_cons, List.count_append, comma, ih, Nat.zero_add]

/-- Of two texts with as many closing parentheses that both end with one, neither starts the other.
-/
theorem closed_unique {first second rest others : Text}
    (same : first ++ rest = second ++ others) (count : first.count ')' = second.count ')')
    (one : first.getLast? = some ')') (two : second.getLast? = some ')') : first = second := by
  have longer : ∀ {short more : Text}, (short ++ more).count ')' = short.count ')' →
      (short ++ more).getLast? = some ')' → more = [] := by
    intro short more count ends
    rcases List.eq_nil_or_concat more with none | ⟨front, c, is⟩
    · exact none
    · rw [is, List.concat_eq_append, ← List.append_assoc, List.getLast?_concat] at ends
      obtain rfl := Option.some.inj ends
      rw [is, List.concat_eq_append, List.count_append, List.count_append,
        List.count_singleton_self] at count
      omega
  rcases List.append_eq_append_iff.mp same with ⟨more, is, -⟩ | ⟨more, is, -⟩
  · rw [is] at count two
    rw [is, longer count.symm two, List.append_nil]
  · rw [is] at count one
    rw [is, longer count one, List.append_nil]

end Parentheses

section Spliced

variable {source text whole : Text} {start stop : Nat} {calls : List Node} {shown : Node → Text}

/-- Edits that put back what was there give the source. -/
theorem spliced_same
    (kept : ∀ call ∈ calls, Holds source call.span.startByte (shown call) call.span.endByte)
    (spliced : Spliced source stop start (calls.map (Layout.editOf shown)) text) :
    Holds source start text stop := by
  induction calls generalizing start text with
  | nil =>
    cases spliced with
    | rest held => exact held
  | cons call rest ih =>
    cases spliced with
    | edit gap _ later =>
      have after := ih (fun other mem => kept other (List.mem_cons_of_mem _ mem)) later
      exact (gap.append (kept call List.mem_cons_self)).append after

/-- If the result is the source, and the edits have the parentheses of what they replace, then they
put back what was there. -/
theorem kept_of_spliced_same
    (closed : ∀ call ∈ calls, (shown call).getLast? = some ')' ∧
      ∀ old, Holds source call.span.startByte old call.span.endByte →
        old.getLast? = some ')' ∧ (shown call).count ')' = old.count ')')
    (held : Holds source start text stop)
    (spliced : Spliced source stop start (calls.map (Layout.editOf shown)) text) :
    ∀ call ∈ calls, Holds source call.span.startByte (shown call) call.span.endByte := by
  induction calls generalizing start text with
  | nil => nofun
  | cons call rest ih =>
    cases spliced with
    | @edit _ _ _ gap old later_text gap_held replaced later =>
      obtain ⟨ends, facts⟩ := closed call List.mem_cons_self
      obtain ⟨old_ends, count⟩ := facts old replaced
      obtain ⟨after, after_held⟩ := Text.holds_between replaced.boundaries.2 held.boundaries.2
        later.ordered
      have same := held.unique ((gap_held.append replaced).append after_held)
      rw [List.append_assoc, List.append_assoc] at same
      have tail : shown call ++ later_text = old ++ after := List.append_cancel_left same
      have equal := closed_unique tail count ends old_ends
      rw [equal] at tail
      have rest_same : later_text = after := List.append_cancel_left tail
      rw [← rest_same] at after_held
      have later_kept := ih (fun other mem => closed other (List.mem_cons_of_mem _ mem)) after_held
        later
      intro other mem
      rcases List.mem_cons.mp mem with rfl | mem
      · rw [equal]
        exact replaced
      · exact later_kept other mem

/-- The result ends with a parenthesis if the source does and all edits do. -/
theorem spliced_closed (closed : ∀ call ∈ calls, (shown call).getLast? = some ')')
    (ends : ∀ middle old, start ≤ middle → Holds source middle old stop →
      old = [] ∨ old.getLast? = some ')')
    (spliced : Spliced source stop start (calls.map (Layout.editOf shown)) text) :
    text.getLast? = some ')' ∨ (text = [] ∧ start = stop) := by
  induction calls generalizing start text with
  | nil =>
    cases spliced with
    | rest held =>
      rcases ends start text (Nat.le_refl _) held with rfl | closed
      · exact .inr ⟨rfl, held.empty⟩
      · exact .inl closed
  | cons call rest ih =>
    cases spliced with
    | @edit _ _ _ gap old later_text gap_held replaced later =>
      have own : (shown call).getLast? = some ')' := closed call List.mem_cons_self
      have first := Nat.le_trans gap_held.ordered replaced.ordered
      refine .inl ?_
      rw [List.getLast?_append, List.getLast?_append]
      rcases ih (fun other mem => closed other (List.mem_cons_of_mem _ mem))
        (fun middle old after => ends middle old (Nat.le_trans first after)) later with
        after | ⟨none, -⟩
      · rw [after]
        rfl
      · rw [none]
        exact congrArg (Option.or · gap.getLast?) own

end Spliced

namespace Layout

variable {parsed : Parsed} {layout : Layout} {call : Node} {text old : Text}

/-- An extended lambda ends with a parenthesis. -/
theorem lambda_closed (is : Node.IsLambda parsed call)
    (held : Holds parsed.source call.span.startByte old call.span.endByte) :
    old.getLast? = some ')' := by
  obtain ⟨⟨tree, placed, rfl⟩, parts, keyword, shape, -⟩ := is
  obtain ⟨last, last_placed, sign, mem, ends⟩ := lambda_end placed shape
  rw [Node.span_of_tree] at held
  have own := last_placed.sits.holds
  rw [sign.text last_placed.sits, ends] at own
  obtain ⟨front, back, split, -, back_held⟩ := held.cut own.boundaries.1
    (placed.sits.token_bounds mem).1 own.ordered
  rw [split, back_held.unique own, List.getLast?_append]
  rfl

/-- What is laid out or copied in the place of an extended lambda ends with a parenthesis. -/
private theorem rendered_closed (grammatical : parsed.Grammatical) (of : Of parsed layout)
    (depth : Nat) : ∀ {call : Node} {base text : Text} {row : Nat}, Node.IsLambda parsed call →
      callText layout depth call base = .ok text ∨
        rangeText layout depth call.span.extent row base = .ok text →
      text.getLast? = some ')' := by
  induction depth with
  | zero =>
    rintro call base text row - (ran | ran)
    · rw [callText] at ran; cases ran
    · rw [rangeText] at ran; cases ran
  | succ depth ih =>
    rintro call base text row is (ran | ran)
    · obtain ⟨parts, callee, parameters, block, -, -, -, -, -, rfl⟩ := callText_ok ran
      rw [List.getLast?_append]
      rfl
    · obtain ⟨-, shown, answers, spliced⟩ := rangeText_ok grammatical of ran
      obtain ⟨old, held⟩ :
          ∃ old, Holds parsed.source call.span.startByte old call.span.endByte := by
        obtain ⟨⟨tree, placed, rfl⟩, -⟩ := is
        rw [Node.span_of_tree]
        exact ⟨_, placed.sits.holds⟩
      have closed := lambda_closed is held
      have inner : ∀ other ∈ layout.outermostCalls call.span.extent true,
          (shown other).getLast? = some ')' := by
        intro other mem
        obtain ⟨among, base, -, answer⟩ := answers other mem
        exact ih (of.lambdas other among) answer
      have tails : ∀ middle tail, call.span.startByte ≤ middle →
          Holds parsed.source middle tail call.span.endByte →
          tail = [] ∨ tail.getLast? = some ')' := by
        intro middle tail first tail_held
        obtain ⟨front, back, split, -, back_held⟩ := held.cut tail_held.boundaries.1 first
          tail_held.ordered
        rw [split, back_held.unique tail_held, List.getLast?_append] at closed
        cases ends : tail.getLast? with
        | none => exact .inl (List.getLast?_eq_none_iff.mp ends)
        | some c =>
          rw [ends] at closed
          exact .inr closed
      rcases spliced_closed inner tails spliced with done | ⟨-, empty⟩
      · exact done
      · have width := held.length
        have none : old = [] := Text.byteLength_eq_zero.mp (by omega)
        rw [none] at closed
        cases closed

/-- What stands in the place of an extended lambda after a pass has as many closing parentheses as
the call had and ends with one. -/
theorem standIn_closed (grammatical : parsed.Grammatical) (of : Of parsed layout)
    (mem : call ∈ layout.calls)
    (held : Holds parsed.source call.span.startByte old call.span.endByte) :
    (layout.standIn call).getLast? = some ')' ∧
      (layout.standIn call).count ')' = old.count ')' := by
  have is := of.lambdas call mem
  rw [standIn]
  split
  · next text ran =>
    rw [replacement] at ran
    have laid := Attempt.orElse_ok ran
    refine ⟨rendered_closed grammatical of _ is laid, ?_⟩
    have blank := lineIndent_blank layout call.span.startByte
    have sound := sound_at grammatical of (depthFor call.span.length)
    obtain ⟨first, last, -⟩ := lambda_divides is
    have renders : Renders (tokensIn parsed call.span.startByte call.span.endByte) text := by
      obtain ⟨⟨tree, placed, rfl⟩, -⟩ := is
      rcases laid with laid | copied
      · rw [Node.span_of_tree, placed.tokensIn_eq]
        exact sound.call placed blank laid
      · exact sound.range first last blank copied
    obtain ⟨marks, rearranged, written⟩ := renders
    obtain ⟨flag, before, -⟩ := (first.strewn last held.ordered).written held
    rw [written.count_closing, before.count_closing, rearranged.count_closing]
  · rw [of.source, Text.slice?_iff.mpr held]
    exact ⟨lambda_closed is held, rfl⟩

end Layout

namespace Reformat

/-- Whatever parser reads the result: a pass over a parsed source counts changes exactly if its
result is another text. -/
theorem of_parsed_changes_iff {keyword : Text} {parsed : Parsed} {parse : Text → Parsed}
    {reformat : Reformat} (grammatical : parsed.hasErrors = false → parsed.Grammatical)
    (ran : ofParsed keyword parsed parse = .ok reformat) :
    reformat.hasChanges = true ↔ reformat.output ≠ parsed.source := by
  cases sound : parsed.hasErrors with
  | true =>
    rw [ofParsed, sound, if_pos rfl] at ran
    cases ran
    exact iff_of_false (by simp [hasChanges, unchanged]) fun other => other rfl
  | false =>
    have grammatical := grammatical sound
    obtain ⟨calls, confirms, spliced, counted⟩ := of_parsed_spliced grammatical sound ran
    have of := confirms.layout grammatical sound
    have whole : Holds parsed.source 0 parsed.source (byteLength parsed.source) :=
      ⟨[], [], by simp, rfl, rfl⟩
    rw [hasChanges, decide_eq_true_iff, counted, List.length_pos_iff, ne_eq, ne_eq, not_iff_not,
      List.filter_eq_nil_iff]
    -- A call is unchanged if what stands in its place is what the source has there.
    let layout := Layout.make parsed.source (Token.tokenize parsed) calls
    have unchanged_iff : ∀ call, ¬ layout.isChanged call = true ↔
        Holds parsed.source call.span.startByte (layout.standIn call) call.span.endByte := by
      intro call
      rw [Layout.isChanged, bne_iff_ne, ne_eq, not_not, Text.slice?_iff]
      rfl
    constructor
    · intro kept
      exact (spliced_same (fun call mem => (unchanged_iff call).mp (kept call mem)) spliced).unique
        whole
    · intro same call mem
      refine (unchanged_iff call).mpr (kept_of_spliced_same ?_ (same ▸ whole) spliced call mem)
      intro other among
      have inside := (Layout.mem_outermostFrom among).1
      obtain ⟨old, held⟩ := of.holds inside
      refine ⟨(Layout.standIn_closed grammatical of inside held).1, fun old held => ?_⟩
      exact ⟨Layout.lambda_closed (of.lambdas other inside) held,
        (Layout.standIn_closed grammatical of inside held).2⟩

/-- A pass counts changes exactly if its result is another text than the source. -/
theorem has_changes_iff (keyword source : Text) {reformat : Reformat}
    (ran : ofSource keyword source = .ok reformat) :
    reformat.hasChanges = true ↔ reformat.output ≠ source :=
  of_parsed_changes_iff Python.parse_grammatical ran

/-- The theorem applies to a source whose call is laid out. -/
theorem has_changes_comma :
    ∃ reformat, ofSource defaultKeyword "f = def_(lambda: [a,])\n".toList = .ok reformat ∧
      (reformat.hasChanges = true ↔ reformat.output ≠ "f = def_(lambda: [a,])\n".toList) ∧
      reformat.hasChanges = true := by
  have ran : ofSource defaultKeyword "f = def_(lambda: [a,])\n".toList =
      .ok ⟨"f = def_(lambda: [\n    a\n])\n".toList, 1⟩ := ok_of_to_option (by decide +kernel)
  exact ⟨_, ran, has_changes_iff _ _ ran, rfl⟩

end Reformat

end LambdaLayout
