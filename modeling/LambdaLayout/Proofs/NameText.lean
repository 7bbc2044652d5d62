import LambdaLayout.Text.Basic
import LambdaLayout.Text.Letter
import Mathlib.Data.List.DropRight

/-!
Trimming, splitting and the characters of names. No character of a name is blank, so a name is
trimmed already. Trimming takes only blanks away, and what holds of pieces holds of the text that
they make with separators between them.
-/

namespace LambdaLayout.Text

/-- The characters of names. -/
def isNameChar (c : Char) : Bool := c == '_' || isLetterOrDigit c

/-- The blanks beyond ASCII, as ranges of code points. -/
private def wideBlanks : List (Nat × Nat) :=
  [(0x85, 0x85), (0xA0, 0xA0), (0x1680, 0x1680), (0x2000, 0x200A), (0x2028, 0x2029),
   (0x202F, 0x202F), (0x205F, 0x205F), (0x3000, 0x3000)]

private theorem ascii_blank {c : Char} (blank : isBlank c = true) (small : c.toNat < 128) :
    c = '\t' ∨ c = '\n' ∨ c = '\x0b' ∨ c = '\x0c' ∨ c = '\r' ∨ c = ' ' := by
  simp only [isBlank, Bool.or_eq_true, Bool.and_eq_true, decide_eq_true_eq, beq_iff_eq] at blank
  simp only [← Char.toNat_inj]
  have codes : '\t'.toNat = 9 ∧ '\n'.toNat = 10 ∧ '\x0b'.toNat = 11 ∧ '\x0c'.toNat = 12 ∧
    '\r'.toNat = 13 ∧ ' '.toNat = 32 := by decide
  omega

private theorem wide_blank {c : Char} (blank : isBlank c = true) (large : ¬c.toNat < 128) :
    ∃ range ∈ wideBlanks, range.1 ≤ c.toNat ∧ c.toNat ≤ range.2 := by
  simp only [isBlank, Bool.or_eq_true, Bool.and_eq_true, decide_eq_true_eq, beq_iff_eq] at blank
  simp only [wideBlanks, List.exists_mem_cons_iff, List.not_mem_nil, false_and, exists_false,
    or_false]
  omega

private theorem wideBlanks_apart : (alphabeticRanges ++ numericRanges).all (fun range =>
    wideBlanks.all fun blank => Nat.blt blank.2 range.1 || Nat.blt range.2 blank.1) = true := by
  decide +kernel

private theorem wide_blank_in_no_range {c : Char} (blank : isBlank c = true)
    (large : ¬c.toNat < 128) : inRanges (alphabeticRanges ++ numericRanges) c = false := by
  obtain ⟨wide, listed, bounds⟩ := wide_blank blank large
  refine List.any_eq_false.mpr fun range mem => ?_
  have apart := List.all_eq_true.mp (List.all_eq_true.mp wideBlanks_apart range mem) wide listed
  simp only [Bool.or_eq_true, Nat.blt_eq] at apart
  simp only [Bool.and_eq_true, decide_eq_true_eq]
  omega

/-- No character of a name is blank. -/
theorem nameChar_not_blank {c : Char} (name : isNameChar c = true) : isBlank c = false := by
  cases blank : isBlank c with
  | false => rfl
  | true =>
    by_cases small : c.toNat < 128
    · rcases ascii_blank blank small with rfl | rfl | rfl | rfl | rfl | rfl <;>
        exact absurd name (by decide)
    · have outside := wide_blank_in_no_range blank small
      rw [inRanges, List.any_append, Bool.or_eq_false_iff] at outside
      have line : c ≠ '_' := by rintro rfl; exact small (by decide)
      simp [isNameChar, isLetterOrDigit, line, small, inRanges, outside.1, outside.2] at name

theorem isName_chars {text : Text} (name : isName text = true) :
    text ≠ [] ∧ ∀ c ∈ text, isNameChar c = true := by
  cases text with
  | nil => cases name
  | cons first rest =>
    rw [isName, Bool.and_eq_true] at name
    refine ⟨List.cons_ne_nil _ _, fun c mem => ?_⟩
    rcases List.mem_cons.mp mem with rfl | later
    · have start := name.1
      simp only [Bool.or_eq_true, isLetter] at start
      simp only [isNameChar, Bool.or_eq_true, isLetterOrDigit]
      refine start.imp id fun letter => ?_
      split at letter
      · next small => simp [small, Char.isAlphanum, letter]
      · next large => simp [large, letter]
    · exact List.all_eq_true.mp name.2 c later

/-- The text without its blanks. -/
def dense (text : Text) : Text := text.filter fun c => !isBlank c

section Trimming

variable {text : Text}

@[simp] theorem dense_append (left right : Text) : dense (left ++ right) = dense left ++ dense right :=
  List.filter_append left right

@[simp] theorem dense_cons {c : Char} (solid : isBlank c = false) (rest : Text) :
    dense (c :: rest) = c :: dense rest := by
  rw [dense, List.filter_cons_of_pos (by rw [solid]; rfl)]
  rfl

theorem dense_of_solid (solid : ∀ c ∈ text, isBlank c = false) : dense text = text :=
  List.filter_eq_self.mpr fun c mem => by rw [solid c mem]; rfl

theorem dense_trimStart (text : Text) : dense (trimStart text) = dense text := by
  induction text with
  | nil => rfl
  | cons c rest ih =>
    rw [trimStart]
    cases blank : isBlank c with
    | true =>
      rw [List.dropWhile_cons_of_pos blank, dense, dense,
        List.filter_cons_of_neg (by rw [blank]; decide)]
      exact ih
    | false => rw [List.dropWhile_cons_of_neg (by rw [blank]; decide)]

/-- Trimming takes only blanks away. -/
theorem dense_trim (text : Text) : dense (trim text) = dense text := by
  have backwards : dense (trimEnd (trimStart text)) = dense (trimStart text) := by
    rw [trimEnd, dense, List.filter_reverse]
    change (dense (trimStart (trimStart text).reverse)).reverse = dense (trimStart text)
    rw [dense_trimStart, dense, List.filter_reverse, List.reverse_reverse]
    rfl
  rw [trim, backwards, dense_trimStart]

/-- A character that is not blank is not lost by trimming. -/
theorem mem_trim {c : Char} (mem : c ∈ text) (solid : isBlank c = false) : c ∈ trim text := by
  have kept : c ∈ dense (trim text) := by
    rw [dense_trim]
    exact List.mem_filter.mpr ⟨mem, by rw [solid]; rfl⟩
  exact (List.mem_filter.mp kept).1

theorem trimStart_of_solid (solid : ∀ c ∈ text, isBlank c = false) : trimStart text = text := by
  cases text with
  | nil => rfl
  | cons c rest =>
    rw [trimStart, List.dropWhile_cons_of_neg (by rw [solid c List.mem_cons_self]; decide)]

/-- A text without blanks is trimmed already. -/
theorem trim_of_solid (solid : ∀ c ∈ text, isBlank c = false) : trim text = text := by
  have backwards : trimStart text.reverse = text.reverse :=
    trimStart_of_solid fun c mem => solid c (List.mem_reverse.mp mem)
  rw [trim, trimStart_of_solid solid, trimEnd]
  change (trimStart text.reverse).reverse = text
  rw [backwards, List.reverse_reverse]

/-- What trimming leaves is part of the text. -/
theorem mem_of_trim {c : Char} (mem : c ∈ trim text) : c ∈ text := by
  rw [trim, trimEnd, List.mem_reverse] at mem
  exact (List.dropWhile_sublist _).subset
    (List.mem_reverse.mp ((List.dropWhile_sublist _).subset mem))

/-- What stands before a character that is not blank is trimmed by itself. -/
theorem trimStart_append {c : Char} (solid : isBlank c = false) (front back : Text) :
    trimStart (front ++ c :: back) = trimStart front ++ c :: back := by
  induction front with
  | nil =>
    rw [List.nil_append, trimStart, List.dropWhile_cons_of_neg (by rw [solid]; decide)]
    rfl
  | cons first front ih =>
    cases blank : isBlank first with
    | true =>
      rw [List.cons_append, trimStart, trimStart, List.dropWhile_cons_of_pos blank,
        List.dropWhile_cons_of_pos blank]
      exact ih
    | false =>
      rw [List.cons_append, trimStart, trimStart,
        List.dropWhile_cons_of_neg (by rw [blank]; decide),
        List.dropWhile_cons_of_neg (by rw [blank]; decide)]
      rfl

theorem trimEnd_append {c : Char} (solid : isBlank c = false) (front back : Text) :
    trimEnd (front ++ c :: back) = front ++ c :: trimEnd back := by
  have backwards := trimStart_append solid back.reverse front.reverse
  rw [trimEnd, List.reverse_append, List.reverse_cons, List.append_assoc, List.singleton_append]
  change (trimStart (back.reverse ++ c :: front.reverse)).reverse = _
  rw [backwards]
  simp [trimEnd, trimStart]

theorem trim_append {c : Char} (solid : isBlank c = false) (front back : Text) :
    trim (front ++ c :: back) = trimStart front ++ c :: trimEnd back := by
  rw [trim, trimStart_append solid, trimEnd_append solid]

theorem trim_trimStart (text : Text) : trim (trimStart text) = trim text := by
  have again : trimStart (trimStart text) = trimStart text := List.dropWhile_idempotent _ _
  rw [trim, again, trim]

theorem trim_name (name : isName text = true) : trim text = text :=
  trim_of_solid fun c mem => nameChar_not_blank ((isName_chars name).2 c mem)

end Trimming

section Splitting

variable {separator : Char} {text front back : Text}

/-- The characters of pieces with separators between them. -/
theorem mem_intercalate {c : Char} {pieces : List Text}
    (mem : c ∈ [separator].intercalate pieces) : c = separator ∨ ∃ piece ∈ pieces, c ∈ piece := by
  induction pieces with
  | nil => cases mem
  | cons first rest ih =>
    cases rest with
    | nil =>
      rw [List.intercalate_singleton] at mem
      exact .inr ⟨first, List.mem_cons_self, mem⟩
    | cons next rest =>
      rw [List.intercalate_cons_cons, List.mem_append, List.mem_append, List.mem_singleton] at mem
      rcases mem with (here | sign) | later
      · exact .inr ⟨first, List.mem_cons_self, here⟩
      · exact .inl sign
      · exact (ih later).imp_right fun ⟨piece, among, inside⟩ =>
          ⟨piece, List.mem_cons_of_mem _ among, inside⟩

/-- One more piece stands behind a separator. -/
theorem intercalate_concat {pieces : List Text} (some : pieces ≠ []) (last : Text) :
    [separator].intercalate (pieces ++ [last]) =
      [separator].intercalate pieces ++ separator :: last := by
  induction pieces with
  | nil => exact absurd rfl some
  | cons first rest ih =>
    cases rest with
    | nil => simp [List.intercalate_cons_cons, List.intercalate_singleton]
    | cons next rest =>
      have later := ih (List.cons_ne_nil _ _)
      rw [List.cons_append] at later
      rw [List.cons_append, List.cons_append, List.intercalate_cons_cons,
        List.intercalate_cons_cons, later]
      simp only [List.append_assoc]

theorem dense_intercalate (solid : isBlank separator = false) (pieces : List Text) :
    dense ([separator].intercalate pieces) = [separator].intercalate (pieces.map dense) := by
  induction pieces with
  | nil => rfl
  | cons first rest ih =>
    cases rest with
    | nil => rw [List.map_singleton, List.intercalate_singleton, List.intercalate_singleton]
    | cons next rest =>
      rw [List.map_cons] at ih ⊢
      rw [List.map_cons, List.intercalate_cons_cons, List.intercalate_cons_cons, ← ih,
        dense_append, dense_append, dense_cons solid]
      rfl

theorem splitOnce_free (free : separator ∉ text) : splitOnce separator text = none := by
  induction text with
  | nil => rfl
  | cons c rest ih =>
    rw [List.mem_cons, not_or] at free
    rw [splitOnce, beq_eq_false_iff_ne.mpr (Ne.symm free.1), if_neg (by decide), ih free.2]
    rfl

theorem splitOnce_append (free : separator ∉ front) :
    splitOnce separator (front ++ separator :: back) = some (front, back) := by
  induction front with
  | nil => simp [splitOnce]
  | cons c front ih =>
    rw [List.mem_cons, not_or] at free
    rw [List.cons_append, splitOnce, beq_eq_false_iff_ne.mpr (Ne.symm free.1),
      if_neg (by decide), ih free.2]
    rfl

theorem splitOnce_some (found : splitOnce separator text = some (front, back)) :
    text = front ++ separator :: back := by
  induction text generalizing front with
  | nil => cases found
  | cons c rest ih =>
    rw [splitOnce] at found
    split at found
    · next same =>
      cases found
      rw [eq_of_beq same]
      rfl
    · obtain ⟨⟨before, after⟩, inner, same⟩ := Option.map_eq_some_iff.mp found
      cases same
      rw [ih inner]
      rfl

/-- The separator occurs last in one place only. -/
theorem last_unique {left right : Text}
    (same : left ++ separator :: front = right ++ separator :: back) (free : separator ∉ front)
    (free' : separator ∉ back) : left = right ∧ front = back := by
  have backwards : splitOnce separator (front.reverse ++ separator :: left.reverse) = _ :=
    splitOnce_append (mt List.mem_reverse.mp free)
  have other : splitOnce separator (back.reverse ++ separator :: right.reverse) = _ :=
    splitOnce_append (mt List.mem_reverse.mp free')
  have mirrored : front.reverse ++ separator :: left.reverse =
      back.reverse ++ separator :: right.reverse := by
    simpa using congrArg List.reverse same
  rw [mirrored, other] at backwards
  simpa [eq_comm, and_comm] using backwards

end Splitting

end LambdaLayout.Text
