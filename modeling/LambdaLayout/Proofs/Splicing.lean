import LambdaLayout.Layout
import LambdaLayout.Proofs.Places

/-!
Replacing stretches of a text. What comes about is described from the left: the text up to the first
stretch stays, the new text follows, and after the stretch it goes on in the same way. Edits are
made from the right, each in a text that is still the source as far as the edit reaches, and the two
agree.
-/

namespace LambdaLayout

open LambdaLayout.Text (Boundary Holds byteLength)

/-- A stretch of the source is cut at any boundary inside it. -/
theorem Text.Holds.cut {source text : Text} {start middle stop : Nat}
    (held : Holds source start text stop) (boundary : Boundary source middle)
    (reached : start ≤ middle) (inside : middle ≤ stop) :
    ∃ left right, text = left ++ right ∧ Holds source start left middle ∧
      Holds source middle right stop := by
  obtain ⟨left, first⟩ := Text.holds_between held.boundaries.1 boundary reached
  obtain ⟨right, second⟩ := Text.holds_between boundary held.boundaries.2 inside
  exact ⟨left, right, held.unique (first.append second), first, second⟩

theorem Text.Holds.nil {source : Text} {offset : Nat} (boundary : Boundary source offset) :
    Holds source offset [] offset := by
  obtain ⟨before, after, whole, size⟩ := boundary
  exact ⟨before, after, by simpa using whole, size, by simpa using size⟩

/-- What the source from an offset up to the last one becomes when the edits are made: they come in
order and lie apart, each takes the place of a piece of the source, and all else stays. -/
inductive Spliced (source : Text) (stop : Nat) : Nat → List Edit → Text → Prop where
  | rest {start : Nat} {text : Text} (kept : Holds source start text stop) :
      Spliced source stop start [] text
  | edit {start : Nat} {edit : Edit} {edits : List Edit} {gap old text : Text}
      (kept : Holds source start gap edit.start) (replaced : Holds source edit.start old edit.stop)
      (later : Spliced source stop edit.stop edits text) :
      Spliced source stop start (edit :: edits) (gap ++ edit.text ++ text)

namespace Spliced

variable {source gap text : Text} {start middle stop : Nat} {edits : List Edit}

theorem ordered (spliced : Spliced source stop start edits text) : start ≤ stop := by
  induction spliced with
  | rest kept => exact kept.ordered
  | edit kept replaced _ ih => exact Nat.le_trans kept.ordered (Nat.le_trans replaced.ordered ih)

/-- More of the source may stand before the first edit. -/
theorem extend (kept : Holds source start gap middle)
    (spliced : Spliced source stop middle edits text) :
    Spliced source stop start edits (gap ++ text) := by
  cases spliced with
  | rest rest => exact .rest (kept.append rest)
  | edit next replaced later =>
    rw [← List.append_assoc, ← List.append_assoc]
    exact .edit (kept.append next) replaced later

/-- What stands before the first edit may be cut. -/
theorem cut (spliced : Spliced source stop start edits text) (boundary : Boundary source middle)
    (reached : start ≤ middle) (inside : middle ≤ stop)
    (before : ∀ edit ∈ edits, middle ≤ edit.start) :
    ∃ gap rest, text = gap ++ rest ∧ Holds source start gap middle ∧
      Spliced source stop middle edits rest := by
  cases spliced with
  | rest kept =>
    obtain ⟨left, right, whole, first, second⟩ := kept.cut boundary reached inside
    exact ⟨left, right, whole, first, .rest second⟩
  | edit kept replaced later =>
    obtain ⟨left, right, whole, first, second⟩ :=
      kept.cut boundary reached (before _ List.mem_cons_self)
    refine ⟨left, _, ?_, first, .edit second replaced later⟩
    rw [whole]
    simp only [List.append_assoc]

end Spliced

namespace Edit

/-- An edit that reaches no further than the part of a text that is still as in the source, where
the text starts at an offset of the source. -/
theorem replace_some {source pre tail text : Text} {offset reach : Nat} {edit : Edit}
    (kept : Holds source offset pre reach) (after : offset ≤ edit.start)
    (ordered : edit.start ≤ edit.stop) (inside : edit.stop ≤ reach)
    (made : replace? (pre ++ tail) ⟨edit.start - offset, edit.stop - offset, edit.text⟩ =
      some text) :
    ∃ front old gap, text = front ++ edit.text ++ gap ++ tail ∧
      Holds source offset front edit.start ∧ Holds source edit.start old edit.stop ∧
      Holds source edit.stop gap reach := by
  have width := kept.length
  cases first : Text.splitAtByte (pre ++ tail) (edit.start - offset) with
  | none => simp [replace?, first] at made
  | some parts =>
  cases second : Text.splitAtByte (pre ++ tail) (edit.stop - offset) with
  | none => simp [replace?, first, second] at made
  | some others =>
  obtain ⟨front, after_front⟩ := parts
  obtain ⟨before_gap, after_gap⟩ := others
  obtain ⟨whole, front_size⟩ := Text.splitAtByte_some first
  obtain ⟨again, stop_size⟩ := Text.splitAtByte_some second
  -- Both cuts fall into the part that is still as in the source.
  obtain ⟨gap, upto_gap⟩ := Text.prefix_of_shorter again.symm (by omega)
  obtain ⟨old, upto_old⟩ := Text.prefix_of_shorter (whole.symm.trans again) (by omega)
  rw [upto_gap, List.append_assoc] at again
  have rest : after_gap = gap ++ tail := (List.append_cancel_left again).symm
  rw [upto_gap, upto_old] at kept
  obtain ⟨first_two, gap_held⟩ := kept.of_append
  obtain ⟨front_held, old_held⟩ := first_two.of_append
  rw [Text.byteLength_append] at *
  have start : offset + byteLength front = edit.start := by omega
  have stop : offset + (byteLength front + byteLength old) = edit.stop := by
    have size := congrArg byteLength upto_old
    rw [Text.byteLength_append] at size
    omega
  rw [start] at front_held old_held
  rw [stop] at old_held gap_held
  refine ⟨front, old, gap, ?_, front_held, old_held, gap_held⟩
  simp only [replace?, first, second, rest, bind, Option.bind, pure, Option.some.injEq] at made
  rw [← made]
  simp only [List.append_assoc]

theorem apply_ok {source text : Text} {edit : Edit} (made : apply source edit = .ok text) :
    replace? source edit = some text := by
  rw [apply] at made
  split at made
  · cases made
  · split at made
    · next replaced => rw [replaced]; cases made; rfl
    · cases made

/-- Edits made from the right. The text is as in the source up to where the last edit began, and
from there on it has the edits made so far. -/
private theorem applyInOrder_spliced {source pre tail output : Text} {reach stop : Nat}
    {todo done : List Edit} (kept : Holds source 0 pre reach)
    (spliced : Spliced source stop reach done tail)
    (ordered : ∀ edit ∈ todo, edit.start ≤ edit.stop) (inside : ∀ edit ∈ todo, edit.stop ≤ reach)
    (apart : todo.Pairwise fun left right => right.stop ≤ left.start)
    (made : applyInOrder (pre ++ tail) todo = .ok output) :
    Spliced source stop 0 (todo.reverse ++ done) output := by
  induction todo generalizing pre tail reach done with
  | nil =>
    cases made
    exact spliced.extend kept
  | cons edit rest ih =>
    obtain ⟨before, apart⟩ := List.pairwise_cons.mp apart
    have own := ordered edit List.mem_cons_self
    rw [applyInOrder] at made
    cases step : apply (pre ++ tail) edit with
    | error fault => simp [step, bind, Except.bind] at made
    | ok text =>
      rw [step] at made
      obtain ⟨front, old, gap, whole, front_held, old_held, gap_held⟩ :=
        replace_some kept (Nat.zero_le _) own (inside edit List.mem_cons_self) (apply_ok step)
      have next :
          Spliced source stop edit.start (edit :: done) ([] ++ edit.text ++ (gap ++ tail)) :=
        .edit (.nil old_held.boundaries.1) old_held (spliced.extend gap_held)
      rw [List.reverse_cons, List.append_assoc]
      refine ih front_held next (fun other mem => ordered other (List.mem_cons_of_mem _ mem)) before
        apart ?_
      rw [whole] at made
      simp only [List.append_assoc] at made
      exact made

/-- However edits that lie apart are given, they are made from the last one backwards. -/
private theorem descending_eq {edits ordered : List Edit} (perm : edits.Perm ordered)
    (filled : ∀ edit ∈ ordered, edit.start < edit.stop)
    (apart : ordered.Pairwise fun left right => left.stop ≤ right.start) :
    (edits.mergeSort fun left right => right.start ≤ left.start) = ordered.reverse := by
  let descending := fun left right : Edit => decide (right.start ≤ left.start)
  have transitive : ∀ a b c : Edit, descending a b = true → descending b c = true →
      descending a c = true := by
    simp only [descending, decide_eq_true_eq]
    omega
  have total : ∀ a b : Edit, (descending a b || descending b a) = true := by
    simp only [descending, Bool.or_eq_true, decide_eq_true_eq]
    omega
  have reversed : ordered.reverse.Pairwise fun left right => descending left right = true := by
    refine List.pairwise_reverse.mpr (apart.imp_of_mem fun {left right} first _ before => ?_)
    have own := filled left first
    simp only [descending, decide_eq_true_eq]
    omega
  have sorted := (List.mergeSort_perm edits descending).trans perm
  refine List.Perm.eq_of_pairwise ?_ (List.pairwise_mergeSort transitive total edits) reversed
    (sorted.trans ordered.reverse_perm.symm)
  intro left right first second down up
  have one := sorted.mem_iff.mp first
  have two := List.mem_reverse.mp second
  have left_filled := filled left one
  have right_filled := filled right two
  simp only [descending, decide_eq_true_eq] at down up
  rcases Python.Tree.order_of_pairwise apart one two with same | before | before
  · exact same
  · omega
  · omega

/-- The order in which edits that lie apart are given makes no difference. -/
theorem applyAll_perm {source : Text} {edits ordered : List Edit} (perm : edits.Perm ordered)
    (filled : ∀ edit ∈ ordered, edit.start < edit.stop)
    (apart : ordered.Pairwise fun left right => left.stop ≤ right.start) :
    applyAll source edits = applyAll source ordered := by
  rw [applyAll, applyAll, descending_eq perm filled apart, descending_eq (.refl _) filled apart]

/-- Edits that come in order and lie apart are all made, and nothing else is. -/
theorem applyAll_spliced {source output : Text} {edits : List Edit}
    (filled : ∀ edit ∈ edits, edit.start < edit.stop)
    (inside : ∀ edit ∈ edits, edit.stop ≤ byteLength source)
    (apart : edits.Pairwise fun left right => left.stop ≤ right.start)
    (made : applyAll source edits = .ok output) :
    Spliced source (byteLength source) 0 edits output := by
  have whole : Holds source 0 source (byteLength source) := ⟨[], [], by simp, rfl, rfl⟩
  have nothing : Spliced source (byteLength source) (byteLength source) [] [] :=
    .rest (.nil whole.boundaries.2)
  have ran : applyInOrder (source ++ []) edits.reverse = .ok output := by
    rw [List.append_nil, ← descending_eq (.refl _) filled apart]
    exact made
  have spliced := applyInOrder_spliced whole nothing
    (fun edit mem => Nat.le_of_lt (filled edit (List.mem_reverse.mp mem)))
    (fun edit mem => inside edit (List.mem_reverse.mp mem)) (List.pairwise_reverse.mpr apart) ran
  rw [List.reverse_reverse, List.append_nil] at spliced
  exact spliced

/-- An edit is made in a text that still has, from an offset of the source on, what the source has
up to the end of the edit. -/
theorem replace_fits {source pre tail old : Text} {offset reach : Nat} {edit : Edit}
    (kept : Holds source offset pre reach) (after : offset ≤ edit.start)
    (inside : edit.stop ≤ reach) (stands : Holds source edit.start old edit.stop) :
    ∃ text, replace? (pre ++ tail) ⟨edit.start - offset, edit.stop - offset, edit.text⟩ =
      some text := by
  obtain ⟨front, rest, split, first, from_edit⟩ :=
    kept.cut stands.boundaries.1 after (Nat.le_trans stands.ordered inside)
  obtain ⟨own, gap, parts, second, -⟩ := from_edit.cut stands.boundaries.2 stands.ordered inside
  have start : edit.start - offset = byteLength front := by
    have width := first.length
    omega
  have stop : edit.stop - offset = byteLength (front ++ own) := by
    have width := first.length
    have own_width := second.length
    rw [Text.byteLength_append]
    omega
  have upto : pre ++ tail = front ++ (own ++ (gap ++ tail)) := by
    rw [split, parts]
    simp only [List.append_assoc]
  have through : pre ++ tail = (front ++ own) ++ (gap ++ tail) := by
    rw [upto, List.append_assoc]
  have one : Text.splitAtByte (pre ++ tail) (edit.start - offset) =
      some (front, own ++ (gap ++ tail)) := by
    rw [upto, start, Text.splitAtByte_append]
  have two : Text.splitAtByte (pre ++ tail) (edit.stop - offset) =
      some (front ++ own, gap ++ tail) := by
    rw [through, stop, Text.splitAtByte_append]
  exact ⟨_, by simp only [replace?, one, two]; rfl⟩

/-- Edits made from the right all fit, as each finds the source as it was up to its end. -/
private theorem applyInOrder_fits {source pre tail : Text} {reach : Nat} {todo : List Edit}
    (kept : Holds source 0 pre reach)
    (stands : ∀ edit ∈ todo, ∃ old, Holds source edit.start old edit.stop)
    (inside : ∀ edit ∈ todo, edit.stop ≤ reach)
    (apart : todo.Pairwise fun left right => right.stop ≤ left.start) :
    ∃ output, applyInOrder (pre ++ tail) todo = .ok output := by
  induction todo generalizing pre tail reach with
  | nil => exact ⟨_, rfl⟩
  | cons edit rest ih =>
    obtain ⟨before, apart⟩ := List.pairwise_cons.mp apart
    obtain ⟨old, own⟩ := stands edit List.mem_cons_self
    have upto := inside edit List.mem_cons_self
    obtain ⟨text, made⟩ := @replace_fits _ _ tail _ _ _ edit kept (Nat.zero_le _) upto own
    obtain ⟨front, _, gap, whole, front_held, -⟩ :=
      replace_some kept (Nat.zero_le _) own.ordered upto made
    have short : ¬byteLength (pre ++ tail) < edit.stop := by
      have width := kept.length
      rw [Text.byteLength_append]
      omega
    have step : apply (pre ++ tail) edit = .ok text := by
      rw [apply, if_neg short, show edit.replace? (pre ++ tail) = some text from made]
    obtain ⟨output, later⟩ := @ih front (edit.text ++ gap ++ tail) edit.start front_held
      (fun other mem => stands other (List.mem_cons_of_mem _ mem)) before apart
    refine ⟨output, ?_⟩
    rw [applyInOrder, step, ← later, whole]
    simp only [List.append_assoc]
    rfl

/-- Edits that come in order and lie apart, each in the place of a piece of the source, are all
made. -/
theorem applyAll_fits {source : Text} {edits : List Edit}
    (filled : ∀ edit ∈ edits, edit.start < edit.stop)
    (stands : ∀ edit ∈ edits, ∃ old, Holds source edit.start old edit.stop)
    (apart : edits.Pairwise fun left right => left.stop ≤ right.start) :
    ∃ output, applyAll source edits = .ok output := by
  have whole : Holds source 0 source (byteLength source) := ⟨[], [], by simp, rfl, rfl⟩
  obtain ⟨output, made⟩ := @applyInOrder_fits source source [] _ edits.reverse whole
    (fun edit mem => stands edit (List.mem_reverse.mp mem))
    (fun edit mem => (stands edit (List.mem_reverse.mp mem)).choose_spec.bounded)
    (List.pairwise_reverse.mpr apart)
  refine ⟨output, ?_⟩
  rw [applyAll, descending_eq (.refl _) filled apart, ← made, List.append_nil]

end Edit

namespace Layout

/-- The edit that puts a text in the place of a node. -/
def editOf (text : Node → Text) (node : Node) : Edit :=
  ⟨node.span.startByte, node.span.endByte, text node⟩

/-- The text of an attempt, or none if it fails. -/
def Attempt.text (attempt : Attempt) : Text := attempt.toOption.getD []

/-- Calls that come in order and lie apart in a stretch of the source are all replaced by what is
given for them, and nothing else is. -/
theorem replaceCalls_spliced {source text output : Text} {offset stop : Nat}
    {nested : Node → Attempt} {calls : List Node} (held : Holds source offset text stop)
    (inside : ∀ call ∈ calls, offset ≤ call.span.startByte ∧ call.span.endByte ≤ stop)
    (stands : ∀ call ∈ calls, ∃ old, Holds source call.span.startByte old call.span.endByte)
    (apart : calls.Pairwise fun left right => left.span.endByte ≤ right.span.startByte)
    (ran : replaceCalls nested offset text calls = .ok output) :
    (∀ call ∈ calls, nested call = .ok (nested call).text) ∧
      Spliced source stop offset (calls.map (editOf fun call => (nested call).text)) output := by
  induction calls generalizing output with
  | nil =>
    cases ran
    exact ⟨nofun, .rest held⟩
  | cons call rest ih =>
    obtain ⟨before, apart⟩ := List.pairwise_cons.mp apart
    obtain ⟨after, upto⟩ := inside call List.mem_cons_self
    obtain ⟨old, own⟩ := stands call List.mem_cons_self
    rw [replaceCalls] at ran
    cases later : replaceCalls nested offset text rest with
    | error refusal => simp [later, bind, Except.bind] at ran
    | ok inner =>
    cases given : nested call with
    | error refusal => simp [later, given, bind, Except.bind] at ran
    | ok replacement =>
    simp only [later, given, bind, Except.bind] at ran
    obtain ⟨answers, spliced⟩ := ih (fun other mem => inside other (List.mem_cons_of_mem _ mem))
      (fun other mem => stands other (List.mem_cons_of_mem _ mem)) apart later
    refine ⟨?_, ?_⟩
    · intro other mem
      rcases List.mem_cons.mp mem with rfl | mem
      · rw [given]; rfl
      · exact answers other mem
    · -- Up to the end of the call the text is still as in the source.
      obtain ⟨gap, tail, whole, gap_held, tail_spliced⟩ := spliced.cut own.boundaries.2
        (Nat.le_trans after own.ordered) upto (by simpa [editOf] using before)
      split at ran
      · next made =>
        cases ran
        rw [whole] at made
        have same : editOf (fun call => (nested call).text) call =
            ⟨call.span.startByte, call.span.endByte, replacement⟩ := by
          rw [editOf, given]
          rfl
        obtain ⟨front, former, none, result, front_held, former_held, none_held⟩ :=
          @Edit.replace_some _ _ _ _ _ _ ⟨_, _, replacement⟩ gap_held after own.ordered
            (Nat.le_refl _) made
        have empty : none = [] := none_held.unique (.nil own.boundaries.2)
        rw [result, empty, List.append_nil, List.map_cons, same]
        exact .edit front_held former_held tail_spliced
      · cases ran

/-- Calls that come in order and lie apart in a stretch of the source can all be replaced. -/
theorem replaceCalls_fits {source text : Text} {offset stop : Nat}
    {nested : Node → Attempt} {calls : List Node} (held : Holds source offset text stop)
    (inside : ∀ call ∈ calls, offset ≤ call.span.startByte ∧ call.span.endByte ≤ stop)
    (stands : ∀ call ∈ calls, ∃ old, Holds source call.span.startByte old call.span.endByte)
    (apart : calls.Pairwise fun left right => left.span.endByte ≤ right.span.startByte)
    (answers : ∀ call ∈ calls, ∃ shown, nested call = .ok shown) :
    ∃ output, replaceCalls nested offset text calls = .ok output := by
  induction calls with
  | nil => exact ⟨text, rfl⟩
  | cons call rest ih =>
    obtain ⟨before, apart⟩ := List.pairwise_cons.mp apart
    obtain ⟨after, upto⟩ := inside call List.mem_cons_self
    obtain ⟨old, own⟩ := stands call List.mem_cons_self
    obtain ⟨shown, given⟩ := answers call List.mem_cons_self
    have later_inside := fun other mem => inside other (List.mem_cons_of_mem call mem)
    have later_stands := fun other mem => stands other (List.mem_cons_of_mem call mem)
    obtain ⟨inner, later⟩ := ih later_inside later_stands apart
      fun other mem => answers other (List.mem_cons_of_mem _ mem)
    obtain ⟨-, spliced⟩ := replaceCalls_spliced held later_inside later_stands apart later
    -- Up to the end of the call the text is still as in the source.
    obtain ⟨gap, tail, whole, gap_held, -⟩ := spliced.cut own.boundaries.2
      (Nat.le_trans after own.ordered) upto (by simpa [editOf] using before)
    obtain ⟨output, made⟩ := @Edit.replace_fits _ _ tail _ _ _ ⟨_, _, shown⟩ gap_held after
      (Nat.le_refl _) own
    refine ⟨output, ?_⟩
    rw [replaceCalls, later]
    simp only [given, bind, Except.bind, whole, made]
    rfl

end Layout

end LambdaLayout
