import LambdaLayout.Proofs.Outermost

/-!
The outermost calls of a range are its maximal ones. A call of the range is maximal if no other call
of the range has a range around its own. However the calls are given, if any two of them lie in each
other or apart, each maximal range is found once, from left to right, and every call of the range
lies in what is found.
-/

namespace LambdaLayout.Layout

open LambdaLayout.Python.Tree (Nested order_of_pairwise)
open LambdaLayout.Span (contains_iff)

/-- The span lies in the range, and is not left out for being the whole of it. -/
def Counts (extent : Extent) (strict : Bool) (span : Span) : Prop :=
  extent.start ≤ span.startByte ∧ span.endByte ≤ extent.stop ∧
    ¬(strict = true ∧ span.extent = extent)

/-- The call counts, and any call that counts and has a range around that of this one has the same
range. -/
structure IsMaximal (calls : List Node) (extent : Extent) (strict : Bool) (call : Node) : Prop where
  mem : call ∈ calls
  counts : Counts extent strict call.span
  maximal : ∀ other ∈ calls, Counts extent strict other.span →
    other.span.contains call.span = true → other.span.extent = call.span.extent

theorem isWithin_iff {extent : Extent} {strict : Bool} {call : Node} :
    isWithin extent strict call = true ↔ Counts extent strict call.span := by
  unfold isWithin Counts
  simp only [Extent.contains, Bool.and_eq_true, decide_eq_true_eq, Bool.not_eq_true',
    Bool.and_eq_false_iff, beq_eq_false_iff_ne, and_assoc]
  cases strict <;> simp [Span.extent]

section Found

variable {source : Text} {tokens : List Token} {calls : List Node} {extent : Extent}
  {strict : Bool} {call outer : Node}

theorem counts_of_found
    (mem : call ∈ (make source tokens calls).outermostCalls extent strict) :
    call ∈ calls ∧ Counts extent strict call.span := by
  obtain ⟨among, within⟩ := mem_outermostFrom mem
  exact ⟨mem_of_make among, isWithin_iff.mp within⟩

/-- A call that counts lies in one that is found. -/
theorem found_around (mem : call ∈ calls) (counts : Counts extent strict call.span) :
    ∃ outer ∈ (make source tokens calls).outermostCalls extent strict,
      outer.span.contains call.span = true := by
  obtain ⟨other, kept, same⟩ := @mem_make source tokens calls call mem
  rw [← same] at counts ⊢
  exact outermost_covers kept (isWithin_iff.mpr counts)

/-- No call that is found lies in another one. -/
theorem found_eq_of_contains
    (first : outer ∈ (make source tokens calls).outermostCalls extent strict)
    (second : call ∈ (make source tokens calls).outermostCalls extent strict)
    (contains : outer.span.contains call.span = true) : outer = call := by
  rw [contains_iff] at contains
  rcases order_of_pairwise (outermost_rises make_sorted) first second with same | rises | rises
  · exact same
  · exact absurd contains.2 (Nat.not_le.mpr rises.2)
  · exact absurd contains.1 (Nat.not_le.mpr rises.1)

theorem found_maximal (mem : call ∈ (make source tokens calls).outermostCalls extent strict) :
    IsMaximal calls extent strict call := by
  obtain ⟨among, counts⟩ := counts_of_found mem
  refine ⟨among, counts, fun other there other_counts around => ?_⟩
  obtain ⟨outer, found, outside⟩ := @found_around source tokens _ _ _ _ there other_counts
  rw [contains_iff] at around outside
  have same : outer = call := found_eq_of_contains found mem (contains_iff.mpr (by omega))
  subst same
  simp only [Span.extent, Extent.mk.injEq]
  omega

theorem found_of_maximal (maximal : IsMaximal calls extent strict call) :
    ∃ outer ∈ (make source tokens calls).outermostCalls extent strict,
      outer.span.extent = call.span.extent := by
  obtain ⟨outer, found, around⟩ := @found_around source tokens _ _ _ _ maximal.mem maximal.counts
  obtain ⟨among, counts⟩ := counts_of_found found
  exact ⟨outer, found, maximal.maximal outer among counts around⟩

theorem found_apart (nested : ∀ left ∈ calls, ∀ right ∈ calls, Nested left.span right.span) :
    ((make source tokens calls).outermostCalls extent strict).Pairwise fun left right =>
      left.span.startByte < right.span.startByte ∧ left.span.endByte ≤ right.span.startByte := by
  refine (outermost_rises make_sorted).imp_of_mem fun {left right} first second rises => ?_
  exact ⟨rises.1, rises.apart
    (nested left (counts_of_found first).1 right (counts_of_found second).1)⟩

/-- A call that is not empty lies in one of the calls that are found and in no second one. -/
theorem found_around_unique
    (nested : ∀ left ∈ calls, ∀ right ∈ calls, Nested left.span right.span) (mem : call ∈ calls)
    (counts : Counts extent strict call.span)
    (proper : call.span.startByte < call.span.endByte) :
    ∃! outer, outer ∈ (make source tokens calls).outermostCalls extent strict ∧
      outer.span.contains call.span = true := by
  obtain ⟨outer, taken, around⟩ := @found_around source tokens _ _ _ _ mem counts
  refine ⟨outer, ⟨taken, around⟩, ?_⟩
  rintro other ⟨also, outside⟩
  rw [contains_iff] at around outside
  rcases order_of_pairwise (found_apart nested) also taken with same | apart | apart
  · exact same
  · omega
  · omega

/-- In whatever order calls are given of which any two lie in each other or apart: what is found for
a range are its maximal calls, one for each of their ranges, in the order of their starts and apart
from each other. Every call of the range lies in one of them, and in exactly one unless it is
empty. -/
theorem outermost_calls_maximal
    (nested : ∀ left ∈ calls, ∀ right ∈ calls, Nested left.span right.span) (extent : Extent)
    (strict : Bool) :
    let found := (make source tokens calls).outermostCalls extent strict
    (∀ call ∈ found, IsMaximal calls extent strict call) ∧
      (∀ call, IsMaximal calls extent strict call →
        ∃ outer ∈ found, outer.span.extent = call.span.extent) ∧
      (found.Pairwise fun left right =>
        left.span.startByte < right.span.startByte ∧ left.span.endByte ≤ right.span.startByte) ∧
      ∀ call ∈ calls, Counts extent strict call.span →
        (∃ outer ∈ found, outer.span.contains call.span = true) ∧
          (call.span.startByte < call.span.endByte →
            ∃! outer, outer ∈ found ∧ outer.span.contains call.span = true) := by
  intro found
  refine ⟨fun call mem => found_maximal mem, fun call => found_of_maximal, found_apart nested, ?_⟩
  intro call mem counts
  exact ⟨found_around mem counts, found_around_unique nested mem counts⟩

/-- In a range that is itself a call the two calls next below it are found, and the one inside the
first of them is not, though it comes first and twice. -/
theorem outermost_calls_maximal_strict :
    let call (start stop : Nat) : Node := .call ⟨start, stop, .origin, .origin⟩ default []
    let calls := [call 2 5, call 12 20, call 0 10, call 0 30, call 2 5]
    (make [] [] calls).outermostCalls ⟨0, 30⟩ true = [call 0 10, call 12 20] ∧
      IsMaximal calls ⟨0, 30⟩ true (call 12 20) ∧
      ∃! outer, outer ∈ (make [] [] calls).outermostCalls ⟨0, 30⟩ true ∧
        outer.span.contains (call 2 5).span = true := by
  intro call calls
  have nested : ∀ left ∈ calls, ∀ right ∈ calls, Nested left.span right.span := by
    unfold Nested
    decide
  have sorted : calls.mergeSort precedes =
      [call 0 30, call 0 10, call 2 5, call 2 5, call 12 20] := by
    simp [calls, call, precedes, Node.span, List.mergeSort, List.MergeSort.Internal.splitInTwo]
  have found : (make [] [] calls).outermostCalls ⟨0, 30⟩ true = [call 0 10, call 12 20] := by
    rw [make, sorted]
    rfl
  obtain ⟨maximal, -, -, covered⟩ := @outermost_calls_maximal [] [] calls nested ⟨0, 30⟩ true
  have inside := covered (call 2 5) List.mem_cons_self (isWithin_iff.mp (by decide))
  exact ⟨found, maximal _ (by simp [found]), inside.2 (by decide)⟩

/-- An empty call that stands where two calls meet lies in both, and both are found. -/
theorem outermost_calls_meet :
    let call (start stop : Nat) : Node := .call ⟨start, stop, .origin, .origin⟩ default []
    let calls := [call 0 5, call 5 10, call 5 5]
    (∀ left ∈ calls, ∀ right ∈ calls, Nested left.span right.span) ∧
      Counts ⟨0, 10⟩ false (call 5 5).span ∧
      ¬∃! outer, outer ∈ (make [] [] calls).outermostCalls ⟨0, 10⟩ false ∧
        outer.span.contains (call 5 5).span = true := by
  intro call calls
  have sorted : calls.mergeSort precedes = [call 0 5, call 5 10, call 5 5] := by
    simp [calls, call, precedes, Node.span, List.mergeSort, List.MergeSort.Internal.splitInTwo]
  have found : (make [] [] calls).outermostCalls ⟨0, 10⟩ false = [call 0 5, call 5 10] := by
    rw [make, sorted]
    rfl
  refine ⟨by unfold Nested; decide, isWithin_iff.mp (by decide), ?_⟩
  rintro ⟨outer, -, only⟩
  have first := only (call 0 5) ⟨by simp [found], by decide⟩
  have second := only (call 5 10) ⟨by simp [found], by decide⟩
  exact absurd (congrArg (fun node => node.span.startByte) (first.trans second.symm)) (by decide)

end Found

end LambdaLayout.Layout
