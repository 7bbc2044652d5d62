import LambdaLayout.Text.Basic
import LambdaLayout.Source.Position

/-!
Cutting a text at byte offsets. A text that stands between two offsets of a source is what is found
when the source is split there, so a cut is fixed by its offset, and pieces that meet join to one.
The position of an offset is counted along the text before it.
-/

namespace LambdaLayout

namespace Text

@[simp] theorem byteLength_nil : byteLength [] = 0 := rfl

@[simp] theorem byteLength_cons (c : Char) (text : Text) :
    byteLength (c :: text) = c.utf8Size + byteLength text := rfl

@[simp] theorem byteLength_append (left right : Text) :
    byteLength (left ++ right) = byteLength left + byteLength right := by
  induction left with
  | nil => simp
  | cons c left ih => rw [List.cons_append, byteLength_cons, byteLength_cons, ih, Nat.add_assoc]

theorem byteLength_eq_zero {text : Text} : byteLength text = 0 ↔ text = [] := by
  cases text with
  | nil => simp
  | cons c text =>
    have positive := c.utf8Size_pos
    simp only [byteLength_cons, reduceCtorEq, iff_false]
    omega

theorem byteLength_pos {text : Text} (some : text ≠ []) : 0 < byteLength text :=
  Nat.pos_of_ne_zero fun zero => some (byteLength_eq_zero.mp zero)

/-- A text splits where its first part ends. -/
theorem splitAtByte_append (left right : Text) :
    splitAtByte (left ++ right) (byteLength left) = some (left, right) := by
  induction left with
  | nil => cases right <;> rfl
  | cons c left ih =>
    obtain ⟨n, size⟩ : ∃ n, c.utf8Size + byteLength left = n + 1 :=
      ⟨c.utf8Size + byteLength left - 1, by have := c.utf8Size_pos; omega⟩
    have fits : c.utf8Size ≤ n + 1 := by omega
    have rest : n + 1 - c.utf8Size = byteLength left := by omega
    rw [List.cons_append, byteLength_cons, size, splitAtByte, if_pos fits, rest, ih]
    rfl

/-- The parts of a split make up the text, and the first has the bytes asked for. -/
theorem splitAtByte_some {text : Text} (found : splitAtByte text offset = some (left, right)) :
    text = left ++ right ∧ byteLength left = offset := by
  induction text generalizing offset left right with
  | nil =>
    cases offset with
    | zero => cases found; exact ⟨rfl, rfl⟩
    | succ n => cases found
  | cons c text ih =>
    cases offset with
    | zero => cases found; exact ⟨rfl, rfl⟩
    | succ n =>
      rw [splitAtByte] at found
      split at found
      · next fits =>
        obtain ⟨⟨front, back⟩, inner, same⟩ := Option.map_eq_some_iff.mp found
        cases same
        obtain ⟨whole, size⟩ := ih inner
        refine ⟨by rw [whole]; rfl, ?_⟩
        simp only [byteLength_cons, size]
        omega
      · cases found

/-- Two splits of a text at one offset are the same. -/
theorem split_unique {left right left' right' : Text} (same : left ++ right = left' ++ right')
    (size : byteLength left = byteLength left') : left = left' ∧ right = right' := by
  have first := splitAtByte_append left right
  rw [same, size, splitAtByte_append] at first
  cases first
  exact ⟨rfl, rfl⟩

/-- The source has the text between the two offsets. -/
def Holds (source : Text) (start : Nat) (text : Text) (stop : Nat) : Prop :=
  ∃ before after, source = before ++ text ++ after ∧ byteLength before = start ∧
    byteLength (before ++ text) = stop

theorem slice?_iff {source text : Text} :
    slice? source start stop = some text ↔ Holds source start text stop := by
  constructor
  · intro found
    rw [slice?] at found
    split at found
    · next ordered =>
      cases first : splitAtByte source start with
      | none => rw [first] at found; cases found
      | some parts =>
        obtain ⟨before, rest⟩ := parts
        cases second : splitAtByte rest (stop - start) with
        | none => simp [first, second] at found
        | some inner =>
          obtain ⟨middle, after⟩ := inner
          simp [first, second] at found
          subst found
          obtain ⟨whole, left⟩ := splitAtByte_some first
          obtain ⟨tail, size⟩ := splitAtByte_some second
          refine ⟨before, after, by rw [whole, tail, List.append_assoc], left, ?_⟩
          rw [byteLength_append]
          omega
    · cases found
  · rintro ⟨before, after, whole, left, size⟩
    rw [byteLength_append] at size
    have ordered : start ≤ stop := by omega
    have width : stop - start = byteLength text := by omega
    rw [slice?, if_pos ordered, whole, ← left, List.append_assoc, splitAtByte_append]
    simp only [bind, Option.bind]
    rw [left, width, splitAtByte_append]
    rfl

namespace Holds

variable {source text left right : Text} {start middle stop : Nat}

theorem ordered (holds : Holds source start text stop) : start ≤ stop := by
  obtain ⟨before, after, -, size, total⟩ := holds
  rw [byteLength_append] at total
  omega

theorem length (holds : Holds source start text stop) : stop = start + byteLength text := by
  obtain ⟨before, after, -, size, total⟩ := holds
  rw [byteLength_append] at total
  omega

theorem bounded (holds : Holds source start text stop) : stop ≤ byteLength source := by
  obtain ⟨before, after, whole, -, total⟩ := holds
  rw [whole, byteLength_append, total]
  exact Nat.le_add_right _ _

theorem unique (first : Holds source start left stop) (second : Holds source start right stop) :
    left = right := by
  have found := slice?_iff.mpr first
  rw [slice?_iff.mpr second] at found
  exact (Option.some.inj found).symm

/-- Texts that meet join. -/
theorem append (first : Holds source start left middle) (second : Holds source middle right stop) :
    Holds source start (left ++ right) stop := by
  obtain ⟨before, after, whole, size, total⟩ := first
  obtain ⟨front, back, again, width, sum⟩ := second
  rw [whole, List.append_assoc front] at again
  obtain ⟨same, rest⟩ := split_unique again (total.trans width.symm)
  refine ⟨before, back, ?_, size, ?_⟩
  · rw [whole, rest, same]
    simp only [List.append_assoc]
    rw [← List.append_assoc before, same]
  · rw [← List.append_assoc, same]
    exact sum

/-- A text that is put together is cut where its first part ends. -/
theorem of_append (whole : Holds source start (left ++ right) stop) :
    Holds source start left (start + byteLength left) ∧
      Holds source (start + byteLength left) right stop := by
  obtain ⟨before, after, split, size, total⟩ := whole
  refine ⟨⟨before, right ++ after, by simp [split], size, by simp [size]⟩,
    before ++ left, after, by simp [split], by simp [size], ?_⟩
  rw [← total, List.append_assoc]

theorem empty (holds : Holds source start [] stop) : start = stop := by
  have size := holds.length
  simpa using size.symm

end Holds

end Text

end LambdaLayout
