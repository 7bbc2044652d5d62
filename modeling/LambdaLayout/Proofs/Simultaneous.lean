import LambdaLayout.Proofs.Splicing

/-!
Edits made all at once. From left to right the text between the edits stays, and the text of each
edit takes the place of its range. When the ranges do not overlap, edits made one after the other
from the right come to the same, in whatever order they are given.
-/

namespace LambdaLayout

open LambdaLayout.Text (Boundary Holds byteLength)

namespace Edit

/-- What the source becomes from an offset on, when the edits are made all at once. They come from
left to right; if they do not, or if one of them does not fit, there is none. -/
def together? (source : Text) (start : Nat) : List Edit → Option Text
  | [] => Text.slice? source start (byteLength source)
  | edit :: rest => do
    let gap ← Text.slice? source start edit.start
    let after ← together? source edit.stop rest
    return gap ++ edit.text ++ after

/-- The edits from left to right. -/
def leftToRight (edits : List Edit) : List Edit :=
  edits.mergeSort fun left right => left.start ≤ right.start

theorem together_of_spliced {source text : Text} {start : Nat} {edits : List Edit}
    (spliced : Spliced source (byteLength source) start edits text) :
    together? source start edits = some text := by
  induction spliced with
  | rest kept => exact Text.slice?_iff.mpr kept
  | edit kept _ _ ih => simp [together?, Text.slice?_iff.mpr kept, ih]

/-- From left to right, edits that do not overlap lie apart. -/
theorem leftToRight_apart {edits : List Edit} (filled : ∀ edit ∈ edits, edit.start < edit.stop)
    (disjoint : edits.Pairwise fun left right =>
      left.stop ≤ right.start ∨ right.stop ≤ left.start) :
    (leftToRight edits).Pairwise fun left right => left.stop ≤ right.start := by
  have perm := List.mergeSort_perm edits fun left right => left.start ≤ right.start
  have sorted : (leftToRight edits).Pairwise fun left right => left.start ≤ right.start := by
    let ascending := fun left right : Edit => decide (left.start ≤ right.start)
    have transitive : ∀ a b c : Edit, ascending a b = true → ascending b c = true →
        ascending a c = true := by
      simp only [ascending, decide_eq_true_eq]
      omega
    have total : ∀ a b : Edit, (ascending a b || ascending b a) = true := by
      simp only [ascending, Bool.or_eq_true, decide_eq_true_eq]
      omega
    simpa [leftToRight, ascending] using List.pairwise_mergeSort transitive total edits
  have still : (leftToRight edits).Pairwise fun left right =>
      left.stop ≤ right.start ∨ right.stop ≤ left.start :=
    perm.symm.pairwise disjoint fun {left right} apart => apart.symm
  refine (sorted.and still).imp_of_mem fun {left right} first second both => ?_
  have left_filled := filled left (perm.mem_iff.mp first)
  have right_filled := filled right (perm.mem_iff.mp second)
  omega

/-- Edits whose ranges hold something, start and end between characters of the source and do not
overlap are all made, in whatever order they are given: the result is what the source becomes when
they are made all at once, from left to right. -/
theorem apply_all_together {source : Text} {edits : List Edit}
    (filled : ∀ edit ∈ edits, edit.start < edit.stop)
    (placed : ∀ edit ∈ edits, Boundary source edit.start ∧ Boundary source edit.stop)
    (disjoint : edits.Pairwise fun left right =>
      left.stop ≤ right.start ∨ right.stop ≤ left.start) :
    ∃ output, together? source 0 (leftToRight edits) = some output ∧
      ∀ others, others.Perm edits → applyAll source others = .ok output := by
  have perm : (leftToRight edits).Perm edits := List.mergeSort_perm _ _
  have apart := leftToRight_apart filled disjoint
  have still_filled : ∀ edit ∈ leftToRight edits, edit.start < edit.stop := fun edit mem =>
    filled edit (perm.mem_iff.mp mem)
  have stands : ∀ edit ∈ leftToRight edits, ∃ old, Holds source edit.start old edit.stop := by
    intro edit mem
    have among := perm.mem_iff.mp mem
    exact Text.holds_between (placed edit among).1 (placed edit among).2
      (Nat.le_of_lt (filled edit among))
  have inside : ∀ edit ∈ leftToRight edits, edit.stop ≤ byteLength source := by
    intro edit mem
    obtain ⟨old, held⟩ := stands edit mem
    exact held.bounded
  obtain ⟨output, made⟩ := applyAll_fits still_filled stands apart
  refine ⟨output, together_of_spliced (applyAll_spliced still_filled inside apart made), ?_⟩
  intro others same
  rw [applyAll_perm (same.trans perm.symm) still_filled apart, made]

/-- The edit at the end is given first, and the two at the beginning touch each other. -/
theorem apply_all_together_touching :
    let edits : List Edit := [⟨4, 6, "EF!".toList⟩, ⟨0, 1, []⟩, ⟨1, 3, "bc".toList⟩]
    together? "aédef".toList 0 (leftToRight edits) = some "bcdEF!".toList ∧
      applyAll "aédef".toList edits = .ok "bcdEF!".toList ∧
      applyAll "aédef".toList edits.reverse = .ok "bcdEF!".toList := by
  intro edits
  have placed : ∀ edit ∈ edits, Boundary "aédef".toList edit.start ∧
      Boundary "aédef".toList edit.stop := by
    simp only [edits, List.mem_cons, List.not_mem_nil, or_false, forall_eq_or_imp, forall_eq]
    exact ⟨⟨⟨"aéd".toList, "ef".toList, rfl, rfl⟩, "aédef".toList, [], rfl, rfl⟩,
      ⟨⟨[], "aédef".toList, rfl, rfl⟩, "a".toList, "édef".toList, rfl, rfl⟩,
      ⟨"a".toList, "édef".toList, rfl, rfl⟩, "aé".toList, "def".toList, rfl, rfl⟩
  obtain ⟨output, once, made⟩ := apply_all_together (by decide) placed (by decide)
  have sorted : leftToRight edits = [⟨0, 1, []⟩, ⟨1, 3, "bc".toList⟩, ⟨4, 6, "EF!".toList⟩] := by
    simp [edits, leftToRight, List.mergeSort, List.MergeSort.Internal.splitInTwo]
  have whole : together? "aédef".toList 0 (leftToRight edits) = some "bcdEF!".toList := by
    rw [sorted]
    rfl
  rw [whole] at once
  obtain rfl := Option.some.inj once
  exact ⟨whole, made edits (.refl _), made edits.reverse (List.reverse_perm _)⟩

end Edit

end LambdaLayout
