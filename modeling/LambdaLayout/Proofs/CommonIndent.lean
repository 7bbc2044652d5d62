import LambdaLayout.Proofs.NameText
import LambdaLayout.Text.Dedent
import Mathlib.Data.List.Forall2

/-!
Taking away common indentation. The indentation that the lines of a text share is the longest
string of spaces and tabs that starts every line with something on it. Just this is taken from each
of these lines, and blank lines lose at most spaces and tabs in front; the ends of lines stay. What
is left shares no indentation, so taking it away once more changes nothing, and lines that are
indented further, all by the same string, come out the same.
-/

namespace LambdaLayout.Text

/-- The string is made of spaces and tabs, and starts every line with something on it. -/
structure IsShared (text indent : Text) : Prop where
  spaces : ∀ c ∈ indent, isIndent c = true
  starts : ∀ line ∈ linesWithEnds text, isBlankLine line = false → indent <+: line

/-- The longest such string, or the empty one if there is no line with something on it. -/
structure IsCommonIndent (text indent : Text) : Prop where
  shared : IsShared text indent
  longest : (∃ line ∈ linesWithEnds text, isBlankLine line = false) →
    ∀ other, IsShared text other → other.length ≤ indent.length
  empty : (∀ line ∈ linesWithEnds text, isBlankLine line = true) → indent = []

/-- The line is the other one with spaces and tabs in front. -/
def IsDeeper (line rest : Text) : Prop := ∃ cut, (∀ c ∈ cut, isIndent c = true) ∧ line = cut ++ rest

/-- What is left of a line: one with something on it loses the indentation, and a blank one loses
spaces and tabs in front. -/
def Loses (indent line rest : Text) : Prop :=
  (isBlankLine line = false → line = indent ++ rest) ∧
    (isBlankLine line = true → IsDeeper line rest)

/-- The line ends of a text: its line feeds, each with the carriage return right before it. -/
def lineEnds : Text → List Text
  | [] => []
  | '\r' :: '\n' :: rest => ['\r', '\n'] :: lineEnds rest
  | '\n' :: rest => ['\n'] :: lineEnds rest
  | _ :: rest => lineEnds rest

/-- The text with a string in front of every line that has something on it. -/
def indentLines (front text : Text) : Text :=
  (linesWithEnds text).flatMap fun line => if isBlankLine line then line else front ++ line

/-- The texts are lines that follow one another: each but the last ends with its only line feed. -/
inductive AreLines : List Text → Prop where
  | nil : AreLines []
  | last {line : Text} (unended : '\n' ∉ line) : AreLines [line]
  | cons {body : Text} {lines : List Text} (unended : '\n' ∉ body) (rest : AreLines lines) :
      AreLines ((body ++ ['\n']) :: lines)

section Lines

variable {text line rest body front : Text} {lines rests : List Text} {c : Char}

theorem linesWithEnds_body (unended : '\n' ∉ body) (text : Text) :
    linesWithEnds (body ++ '\n' :: text) = (body ++ ['\n']) :: linesWithEnds text := by
  induction body with
  | nil => rw [List.nil_append, linesWithEnds, if_pos (by decide), List.nil_append]
  | cons c body ih =>
    obtain ⟨first, others⟩ := not_or.mp (List.mem_cons.not.mp unended)
    rw [List.cons_append, linesWithEnds, if_neg (by simpa using Ne.symm first), ih others]
    rfl

theorem linesWithEnds_last (unended : '\n' ∉ line) (some : line ≠ []) :
    linesWithEnds line = [line] := by
  induction line with
  | nil => exact absurd rfl some
  | cons c line ih =>
    obtain ⟨first, others⟩ := not_or.mp (List.mem_cons.not.mp unended)
    rw [linesWithEnds, if_neg (by simpa using Ne.symm first)]
    cases line with
    | nil => rfl
    | cons d line => rw [ih others (List.cons_ne_nil d line)]

/-- A text without a line feed starts the first line of what it is put in front of. -/
theorem linesWithEnds_front (unended : '\n' ∉ line) (some : line ≠ []) (text : Text) :
    ∃ own more, linesWithEnds (line ++ text) = (line ++ own) :: more := by
  induction line with
  | nil => exact absurd rfl some
  | cons c line ih =>
    obtain ⟨first, others⟩ := not_or.mp (List.mem_cons.not.mp unended)
    rw [List.cons_append, linesWithEnds, if_neg (by simpa using Ne.symm first)]
    cases line with
    | nil =>
      rw [List.nil_append]
      cases linesWithEnds text with
      | nil => exact ⟨[], [], rfl⟩
      | cons own more => exact ⟨own, more, rfl⟩
    | cons d line =>
      obtain ⟨own, more, split⟩ := ih others (List.cons_ne_nil d line)
      rw [split]
      exact ⟨own, more, rfl⟩

/-- Lines that follow one another are the lines of the text they make up, except that nothing is
left of an empty last one. -/
theorem AreLines.linesWithEnds (are : AreLines lines) :
    linesWithEnds lines.flatten = lines.filter fun line => !line.isEmpty := by
  induction are with
  | nil => rfl
  | @last line unended =>
    cases line with
    | nil => rfl
    | cons c line =>
      rw [List.flatten_singleton, linesWithEnds_last unended (List.cons_ne_nil c line)]
      rfl
  | @cons body lines unended _ ih =>
    rw [List.flatten_cons, List.append_assoc, List.singleton_append, linesWithEnds_body unended, ih,
      List.filter_cons_of_pos (by simp)]

/-- The lines of a text make it up, and none of them is empty. -/
theorem linesWithEnds_are (text : Text) :
    AreLines (linesWithEnds text) ∧ (linesWithEnds text).flatten = text ∧
      ∀ line ∈ linesWithEnds text, line ≠ [] := by
  induction text with
  | nil => exact ⟨.nil, rfl, nofun⟩
  | cons c text ih =>
    obtain ⟨are, whole, filled⟩ := ih
    rw [linesWithEnds]
    split
    · next feed =>
      obtain rfl : c = '\n' := by simpa using feed
      exact ⟨@AreLines.cons [] _ nofun are, by rw [List.flatten_cons, whole]; rfl,
        List.forall_mem_cons.mpr ⟨List.cons_ne_nil _ _, filled⟩⟩
    · next other =>
      have other : '\n' ≠ c := fun same => other (by rw [same]; exact beq_self_eq_true c)
      split
      · next none =>
        rw [none] at whole
        rw [← whole]
        exact ⟨.last (by simpa using other), rfl, by simp⟩
      · next line lines split =>
        rw [split] at are whole filled
        refine ⟨?_, by rw [← whole]; rfl, List.forall_mem_cons.mpr ⟨List.cons_ne_nil _ _,
          (List.forall_mem_cons.mp filled).2⟩⟩
        cases are with
        | last unended => exact .last (List.mem_cons.not.mpr (not_or.mpr ⟨other, unended⟩))
        | cons unended are =>
          exact @AreLines.cons (c :: _) _ (List.mem_cons.not.mpr (not_or.mpr ⟨other, unended⟩)) are

theorem ne_of_isIndent (space : isIndent c = true) : c ≠ '\n' ∧ c ≠ '\r' := by
  rw [isIndent, Bool.or_eq_true, beq_iff_eq, beq_iff_eq] at space
  rcases space with rfl | rfl <;> decide

/-- Lines stay lines without some of their indentation. -/
theorem AreLines.shortened (are : AreLines lines) (deeper : List.Forall₂ IsDeeper lines rests) :
    AreLines rests := by
  induction deeper with
  | nil => exact are
  | @cons line rest lines rests first deeper ih =>
    obtain ⟨cut, spaces, rfl⟩ := first
    have unended : '\n' ∉ cut := fun mem => (ne_of_isIndent (spaces _ mem)).1 rfl
    generalize whole : cut ++ rest = line at are
    cases are with
    | last free =>
      cases deeper
      rw [← whole] at free
      exact .last fun mem => free (List.mem_append_right _ mem)
    | @cons body _ free are =>
      obtain ⟨inside, rfl, split⟩ | ⟨inside, rfl, split⟩ := List.append_eq_append_iff.mp whole
      · rw [split]
        exact .cons (fun mem => free (List.mem_append_right _ mem)) (ih are)
      · cases inside with
        | nil =>
          rw [← show ['\n'] = rest from split]
          exact @AreLines.cons [] _ nofun (ih are)
        | cons c inside =>
          obtain ⟨rfl, -⟩ := List.cons.inj split
          exact absurd (by simp) unended

/-- Lines stay lines with further indentation. -/
theorem AreLines.lengthened (are : AreLines rests) (deeper : List.Forall₂ IsDeeper lines rests) :
    AreLines lines := by
  induction deeper with
  | nil => exact are
  | @cons line rest lines rests first deeper ih =>
    obtain ⟨cut, spaces, rfl⟩ := first
    have unended : '\n' ∉ cut := fun mem => (ne_of_isIndent (spaces _ mem)).1 rfl
    cases are with
    | last free =>
      cases deeper
      exact .last (List.mem_append.not.mpr (not_or.mpr ⟨unended, free⟩))
    | @cons body _ free are =>
      rw [← List.append_assoc]
      exact .cons (List.mem_append.not.mpr (not_or.mpr ⟨unended, free⟩)) (ih are)

end Lines

section Blanks

variable {text line rest indent : Text} {c : Char}

theorem isBlankLine_iff : isBlankLine line = true ↔ ∀ c ∈ line, isBlank c = true := by
  rw [isBlankLine, List.isEmpty_iff]
  constructor
  · intro none c mem
    by_contra solid
    have kept := mem_trim mem (by simpa using solid)
    rw [none] at kept
    cases kept
  · intro blank
    rw [trim, trimStart, List.dropWhile_eq_nil_iff.mpr blank]
    rfl

theorem isBlank_of_isIndent (space : isIndent c = true) : isBlank c = true := by
  rw [isIndent, Bool.or_eq_true, beq_iff_eq, beq_iff_eq] at space
  rcases space with rfl | rfl <;> decide

/-- Spaces and tabs in front of a line do not make a difference to whether it is blank. -/
theorem isBlankLine_append (spaces : ∀ c ∈ indent, isIndent c = true) (rest : Text) :
    isBlankLine (indent ++ rest) = isBlankLine rest := by
  rw [Bool.eq_iff_iff, isBlankLine_iff, isBlankLine_iff, List.forall_mem_append]
  exact and_iff_right fun c mem => isBlank_of_isIndent (spaces c mem)

/-- A line is its content and its end. -/
theorem dropLineEnd_split (line : Text) :
    line = dropLineEnd line ∨ line = dropLineEnd line ++ ['\n'] ∨
      line = dropLineEnd line ++ ['\r', '\n'] := by
  rw [dropLineEnd]
  cases feed : List.isSuffixOf? ['\n'] line with
  | none => exact .inl rfl
  | some body =>
    have split := (List.append_eq_of_isSuffixOf?_eq_some feed).symm
    dsimp only
    cases back : List.isSuffixOf? ['\r'] body with
    | none => exact .inr (.inl split)
    | some front => exact .inr (.inr (by rw [split, ← List.append_eq_of_isSuffixOf?_eq_some back]; simp))

/-- The end of a line counts neither for its indentation nor for whether it is blank. -/
theorem dropLineEnd_alike (line : Text) :
    indentOf (dropLineEnd line) = indentOf line ∧
      isBlankLine (dropLineEnd line) = isBlankLine line := by
  have unended {body ending : Text} (blank : ∀ c ∈ ending, isBlank c = true)
      (stops : ending.takeWhile isIndent = []) :
      indentOf body = indentOf (body ++ ending) ∧
        isBlankLine body = isBlankLine (body ++ ending) := by
    constructor
    · rw [indentOf, indentOf, List.takeWhile_append]
      split
      · next all =>
        rw [stops, List.append_nil]
        exact (List.takeWhile_prefix isIndent).eq_of_length all
      · rfl
    · rw [Bool.eq_iff_iff, isBlankLine_iff, isBlankLine_iff, List.forall_mem_append]
      exact (and_iff_left blank).symm
  rcases dropLineEnd_split line with same | split | split
  · rw [← same]
    exact ⟨rfl, rfl⟩
  · have alike := @unended (dropLineEnd line) ['\n'] (List.all_eq_true.mp rfl) rfl
    rwa [← split] at alike
  · have alike := @unended (dropLineEnd line) ['\r', '\n'] (List.all_eq_true.mp rfl) rfl
    rwa [← split] at alike

theorem indents_eq (text : Text) :
    ((lines text).filter fun line => !isBlankLine line).map indentOf =
      ((linesWithEnds text).filter fun line => !isBlankLine line).map indentOf := by
  rw [lines, List.filter_map, List.map_map]
  congr 1
  · funext line
    exact (dropLineEnd_alike line).1
  · refine List.filter_congr fun line _ => ?_
    exact congrArg _ (dropLineEnd_alike line).2

end Blanks

section Common

variable {text line front indent other : Text} {c : Char}

/-- What two texts have in common at their start is the greatest text that starts both. -/
theorem prefix_commonStart_iff {left right : Text} :
    front <+: commonStart left right ↔ front <+: left ∧ front <+: right := by
  fun_induction commonStart left right generalizing front with
  | case1 a left b right same ih =>
    obtain rfl : a = b := eq_of_beq same
    cases front with
    | nil => simp
    | cons c front =>
      simp only [List.cons_prefix_cons, ih]
      exact and_and_left
  | case2 a left b right other =>
    have other : a ≠ b := by simpa using other
    cases front with
    | nil => simp
    | cons c front =>
      simp only [List.prefix_nil, reduceCtorEq, List.cons_prefix_cons, false_iff]
      rintro ⟨⟨rfl, -⟩, rfl, -⟩
      exact other rfl
  | case3 left right none =>
    have empty : left = [] ∨ right = [] := by
      cases left with
      | nil => exact .inl rfl
      | cons a left =>
        cases right with
        | nil => exact .inr rfl
        | cons b right => exact (none a left b right rfl rfl).elim
    rw [List.prefix_nil]
    constructor
    · rintro rfl
      exact ⟨List.nil_prefix, List.nil_prefix⟩
    · rintro ⟨first, second⟩
      rcases empty with rfl | rfl
      · exact List.prefix_nil.mp first
      · exact List.prefix_nil.mp second

theorem prefix_foldl_iff {first : Text} {rest : List Text} :
    front <+: rest.foldl commonStart first ↔ front <+: first ∧ ∀ text ∈ rest, front <+: text := by
  induction rest generalizing first with
  | nil => simp
  | cons second rest ih =>
    rw [List.foldl_cons, ih, prefix_commonStart_iff, List.forall_mem_cons, and_assoc]

theorem prefix_indentOf_iff (spaces : ∀ c ∈ front, isIndent c = true) :
    front <+: indentOf line ↔ front <+: line := by
  refine ⟨fun starts => starts.trans (List.takeWhile_prefix _), ?_⟩
  rintro ⟨rest, rfl⟩
  rw [indentOf, List.takeWhile_append_of_pos spaces]
  exact List.prefix_append _ _

/-- Where there is a line with something on it, a string of spaces and tabs starts the common
indentation exactly if it starts every such line. -/
theorem prefix_commonIndent_iff (spaces : ∀ c ∈ front, isIndent c = true)
    (some : ∃ line ∈ linesWithEnds text, isBlankLine line = false) :
    front <+: commonIndent text ↔
      ∀ line ∈ linesWithEnds text, isBlankLine line = false → front <+: line := by
  rw [commonIndent, indents_eq]
  have all : (∀ own ∈ ((linesWithEnds text).filter fun line => !isBlankLine line).map indentOf,
      front <+: own) ↔ ∀ line ∈ linesWithEnds text, isBlankLine line = false → front <+: line := by
    simp only [List.forall_mem_map, List.mem_filter, Bool.not_eq_true', and_imp]
    exact forall₃_congr fun line _ _ => prefix_indentOf_iff spaces
  rw [← all]
  split
  · next none =>
    obtain ⟨line, mem, solid⟩ := some
    rw [List.map_eq_nil_iff, List.filter_eq_nil_iff] at none
    exact absurd (none line mem) (by simp [solid])
  · next first rest listed => rw [prefix_foldl_iff, listed, List.forall_mem_cons]

/-- The common indentation is made of spaces and tabs. -/
theorem commonIndent_spaces (text : Text) : ∀ c ∈ commonIndent text, isIndent c = true := by
  rw [commonIndent]
  split
  · exact nofun
  · next first rest listed =>
    have starts := (prefix_foldl_iff.mp (List.prefix_refl (rest.foldl commonStart first))).1
    have own : first ∈ ((lines text).filter fun line => !isBlankLine line).map indentOf := by
      rw [listed]
      exact List.mem_cons_self
    obtain ⟨line, -, rfl⟩ := List.mem_map.mp own
    exact fun c mem => List.mem_takeWhile_imp (starts.subset mem)

theorem commonIndent_of_blank (blank : ∀ line ∈ linesWithEnds text, isBlankLine line = true) :
    commonIndent text = [] := by
  have none : (linesWithEnds text).filter (fun line => !isBlankLine line) = [] :=
    List.filter_eq_nil_iff.mpr fun line mem => by simp [blank line mem]
  rw [commonIndent, indents_eq, none]
  rfl

/-- There is a line with something on it, or all lines are blank. -/
theorem some_solid_or_blank (text : Text) :
    (∃ line ∈ linesWithEnds text, isBlankLine line = false) ∨
      ∀ line ∈ linesWithEnds text, isBlankLine line = true := by
  by_cases some : ∃ line ∈ linesWithEnds text, isBlankLine line = false
  · exact .inl some
  · exact .inr fun line mem => by simpa using fun solid => some ⟨line, mem, solid⟩

theorem commonIndent_shared (text : Text) : IsShared text (commonIndent text) := by
  refine ⟨commonIndent_spaces text, fun line mem solid => ?_⟩
  exact (prefix_commonIndent_iff (commonIndent_spaces text) ⟨line, mem, solid⟩).mp
    (List.prefix_refl _) line mem solid

/-- The common indentation is what its name says. -/
theorem isCommonIndent_iff : IsCommonIndent text indent ↔ indent = commonIndent text := by
  have shared := commonIndent_shared text
  constructor
  · intro common
    rcases some_solid_or_blank text with some | blank
    · have starts := (prefix_commonIndent_iff common.shared.spaces some).mpr common.shared.starts
      exact starts.eq_of_length_le (common.longest some _ shared)
    · rw [common.empty blank, commonIndent_of_blank blank]
  · rintro rfl
    refine ⟨shared, fun some other also => ?_, commonIndent_of_blank⟩
    exact ((prefix_commonIndent_iff also.spaces some).mpr also.starts).length_le

end Common

section Dedent

variable {text line rest indent front : Text} {lines rests : List Text}

/-- What is left of one line. -/
def dedentLine (indent line : Text) : Text :=
  (indent.isPrefixOf? line).getD (line.dropWhile isIndent)

/-- A line with something on it that starts with the indentation loses it, and a blank one loses
spaces and tabs. -/
theorem dedentLine_loses (spaces : ∀ c ∈ indent, isIndent c = true)
    (starts : isBlankLine line = false → indent <+: line) :
    Loses indent line (dedentLine indent line) := by
  constructor
  · intro solid
    obtain ⟨rest, rfl⟩ := starts solid
    rw [dedentLine, List.isPrefixOf?_eq_some_iff_append_eq.mpr rfl, Option.getD_some]
  · intro _
    rw [dedentLine]
    cases found : indent.isPrefixOf? line with
    | some rest => exact ⟨indent, spaces, (List.append_eq_of_isPrefixOf?_eq_some found).symm⟩
    | none =>
      exact ⟨line.takeWhile isIndent, fun c mem => List.mem_takeWhile_imp mem,
        (List.takeWhile_append_dropWhile).symm⟩

theorem Loses.isDeeper (loses : Loses indent line rest)
    (spaces : ∀ c ∈ indent, isIndent c = true) : IsDeeper line rest := by
  cases blank : isBlankLine line with
  | false => exact ⟨indent, spaces, loses.1 blank⟩
  | true => exact loses.2 blank

/-- A line that does not start with a space or a tab stays as it is. -/
theorem dedentLine_bare (spaces : ∀ c ∈ indent, isIndent c = true) (bare : indentOf line = []) :
    dedentLine indent line = line := by
  have kept : line.dropWhile isIndent = line := by
    have split := List.takeWhile_append_dropWhile (p := isIndent) (l := line)
    rwa [← indentOf, bare, List.nil_append] at split
  rw [dedentLine]
  cases found : indent.isPrefixOf? line with
  | none => exact kept
  | some rest =>
    have split := (List.append_eq_of_isPrefixOf?_eq_some found).symm
    have starts := (prefix_indentOf_iff spaces).mpr ⟨rest, split.symm⟩
    rw [bare, List.prefix_nil] at starts
    rw [split, starts]
    rfl

/-- Each line is dedented by itself. -/
theorem dedent_eq (text : Text) :
    dedent text = ((linesWithEnds text).map (dedentLine (commonIndent text))).flatten := by
  rw [dedent, ← List.flatMap_def]
  split
  · next none =>
    have same : dedentLine [] = id := funext fun line => by rw [dedentLine, List.isPrefixOf?]; rfl
    rw [List.isEmpty_iff.mp none, same, List.flatMap_id, (linesWithEnds_are text).2.1]
  · rfl

/-- What dedenting leaves of each line. -/
theorem dedent_loses (text : Text) :
    List.Forall₂ (Loses (commonIndent text)) (linesWithEnds text)
      ((linesWithEnds text).map (dedentLine (commonIndent text))) := by
  have shared := commonIndent_shared text
  rw [List.forall₂_map_right_iff, List.forall₂_same]
  exact fun line mem => dedentLine_loses shared.spaces (shared.starts line mem)

/-- The lines of the dedented text are what is left of the lines. -/
theorem dedent_lines (text : Text) :
    AreLines ((linesWithEnds text).map (dedentLine (commonIndent text))) ∧
      linesWithEnds (dedent text) =
        ((linesWithEnds text).map (dedentLine (commonIndent text))).filter fun line =>
          !line.isEmpty := by
  have are := (linesWithEnds_are text).1.shortened
    ((dedent_loses text).imp fun line rest loses => loses.isDeeper (commonIndent_spaces text))
  exact ⟨are, by rw [dedent_eq, are.linesWithEnds]⟩

/-- A line with something on it leaves a line of the dedented text with something on it. -/
theorem dedent_solid (mem : line ∈ linesWithEnds text) (solid : isBlankLine line = false) :
    ∃ rest ∈ linesWithEnds (dedent text), isBlankLine rest = false ∧
      line = commonIndent text ++ rest := by
  have spaces := commonIndent_spaces text
  have split := (dedentLine_loses spaces ((commonIndent_shared text).starts line mem)).1 solid
  have kept : isBlankLine (dedentLine (commonIndent text) line) = false := by
    rw [split, isBlankLine_append spaces] at solid
    exact solid
  refine ⟨dedentLine (commonIndent text) line, ?_, kept, split⟩
  rw [(dedent_lines text).2, List.mem_filter]
  refine ⟨List.mem_map_of_mem mem, ?_⟩
  cases left : dedentLine (commonIndent text) line with
  | nil =>
    rw [left] at kept
    cases kept
  | cons c rest => rfl

/-- A text whose first line starts with something after spaces and tabs keeps that line, up to some
of them. -/
theorem dedent_first {c : Char} (spaces : ∀ c ∈ front, isIndent c = true) (solid : isBlank c = false)
    (unended : '\n' ∉ front ++ c :: rest) (text : Text) :
    ∃ cut kept more, front = cut ++ kept ∧
      dedent (front ++ c :: rest ++ text) = kept ++ c :: rest ++ more := by
  obtain ⟨own, others, split⟩ := linesWithEnds_front unended (by simp) text
  let whole := front ++ c :: rest ++ text
  let line := front ++ c :: rest ++ own
  have mem : line ∈ linesWithEnds whole := by
    rw [split]
    exact List.mem_cons_self
  have filled : isBlankLine line = false := by
    rw [Bool.eq_false_iff, ne_eq, isBlankLine_iff]
    intro blank
    have among : c ∈ line := by simp [line]
    rw [blank c among] at solid
    cases solid
  have stops : isIndent c = false := by
    by_contra space
    rw [isBlank_of_isIndent (by simpa using space)] at solid
    cases solid
  have indent : indentOf line = front := by
    rw [indentOf, show line = front ++ c :: (rest ++ own) by simp [line],
      List.takeWhile_append_of_pos spaces, List.takeWhile_cons_of_neg (by simp [stops]),
      List.append_nil]
  have shared := commonIndent_shared whole
  obtain ⟨kept, parts⟩ := (prefix_indentOf_iff shared.spaces).mpr (shared.starts line mem filled)
  rw [indent] at parts
  have left := (dedentLine_loses shared.spaces (shared.starts line mem)).1 filled
  have same : dedentLine (commonIndent whole) line = kept ++ c :: rest ++ own := by
    apply (List.append_right_inj (commonIndent whole)).mp
    rw [← left, ← List.append_assoc, ← List.append_assoc, parts]
  refine ⟨commonIndent whole, kept, own ++ (others.map (dedentLine (commonIndent whole))).flatten,
    parts.symm, ?_⟩
  rw [dedent_eq, split, List.map_cons, List.flatten_cons, same, List.append_assoc]

/-- A dedented text shares no indentation. -/
theorem dedent_common (text : Text) : IsCommonIndent (dedent text) [] := by
  refine ⟨⟨nofun, fun line _ _ => List.nil_prefix⟩, ?_, fun _ => rfl⟩
  rintro ⟨rest, mem, solid⟩ other shared
  -- With the common indentation in front, what the dedented text shares is shared by the text.
  have spaces : ∀ c ∈ commonIndent text ++ other, isIndent c = true :=
    List.forall_mem_append.mpr ⟨commonIndent_spaces text, shared.spaces⟩
  have starts : ∀ line ∈ linesWithEnds text, isBlankLine line = false →
      commonIndent text ++ other <+: line := by
    intro line mem solid
    obtain ⟨rest, left, kept, split⟩ := dedent_solid mem solid
    rw [split, List.prefix_append_right_inj]
    exact shared.starts rest left kept
  have some : ∃ line ∈ linesWithEnds text, isBlankLine line = false := by
    refine (some_solid_or_blank text).resolve_right fun blank => ?_
    rw [(dedent_lines text).2, List.mem_filter] at mem
    obtain ⟨line, among, rfl⟩ := List.mem_map.mp mem.1
    obtain ⟨cut, cut_spaces, split⟩ := (dedentLine_loses (commonIndent_spaces text)
      ((commonIndent_shared text).starts line among)).2 (blank line among)
    have whole := blank line among
    rw [split, isBlankLine_append cut_spaces, solid] at whole
    cases whole
  have shorter := ((prefix_commonIndent_iff spaces some).mpr starts).length_le
  rw [List.length_append] at shorter
  rw [List.length_nil]
  omega

/-- A text that shares no indentation stays as it is. -/
theorem dedent_of_none (none : commonIndent text = []) : dedent text = text := by
  rw [dedent, none]
  rfl

end Dedent

section Ends

variable {text first second cut : Text} {lines rests : List Text} {c : Char}

private theorem last_of_rest {c : Char} {rest : Text} (ended : (c :: rest).getLast? ≠ some '\r') :
    rest.getLast? ≠ some '\r' := by
  cases rest with
  | nil => exact nofun
  | cons d rest => rwa [List.getLast?_cons_cons] at ended

/-- The line ends of two texts follow one another, unless a carriage return and a line feed come
together. -/
theorem lineEnds_append (ended : first.getLast? ≠ some '\r') (second : Text) :
    lineEnds (first ++ second) = lineEnds first ++ lineEnds second := by
  fun_induction lineEnds first with
  | case1 => rfl
  | case2 rest ih =>
    rw [List.cons_append, List.cons_append, lineEnds, ih (last_of_rest (last_of_rest ended)),
      List.cons_append]
  | case3 rest ih => rw [List.cons_append, lineEnds, ih (last_of_rest ended), List.cons_append]
  | case4 c rest pair feed ih =>
    rw [List.cons_append, lineEnds, ih (last_of_rest ended)]
    · intro rest' back same
      cases rest with
      | nil => exact ended (by rw [back]; rfl)
      | cons d rest => exact pair rest back (by rw [(List.cons.inj same).1])
    · exact feed

theorem lineEnds_cut (spaces : ∀ c ∈ cut, isIndent c = true) (rest : Text) :
    lineEnds (cut ++ rest) = lineEnds rest := by
  induction cut with
  | nil => rfl
  | cons c cut ih =>
    obtain ⟨own, others⟩ := List.forall_mem_cons.mp spaces
    obtain ⟨feed, back⟩ := ne_of_isIndent own
    rw [List.cons_append, lineEnds, ih others]
    · exact fun _ is _ => back is
    · exact feed

theorem AreLines.lineEnds (are : AreLines lines) :
    lineEnds lines.flatten = lines.flatMap Text.lineEnds := by
  induction are with
  | nil => rfl
  | last unended => simp
  | @cons body lines unended _ ih =>
    rw [List.flatten_cons, lineEnds_append (by simp), ih, List.flatMap_cons]

/-- Dedenting keeps the ends of lines. -/
theorem dedent_lineEnds (text : Text) : Text.lineEnds (dedent text) = Text.lineEnds text := by
  have kept : ∀ {lines rests : List Text}, List.Forall₂ (Loses (commonIndent text)) lines rests →
      rests.flatMap Text.lineEnds = lines.flatMap Text.lineEnds := by
    intro lines rests loses
    induction loses with
    | nil => rfl
    | cons loses _ ih =>
      obtain ⟨cut, spaces, split⟩ := loses.isDeeper (commonIndent_spaces text)
      rw [List.flatMap_cons, List.flatMap_cons, ih, split, lineEnds_cut spaces]
  have whole := (linesWithEnds_are text).1.lineEnds
  rw [(linesWithEnds_are text).2.1] at whole
  rw [dedent_eq, (dedent_lines text).1.lineEnds, kept (dedent_loses text), whole]

end Ends

section Indented

variable {text front : Text}

/-- A line with a string in front if there is something on it. -/
def indentLine (front line : Text) : Text := if isBlankLine line then line else front ++ line

theorem indentLine_deeper (spaces : ∀ c ∈ front, isIndent c = true) (line : Text) :
    IsDeeper (indentLine front line) line := by
  rw [indentLine]
  split
  · exact ⟨[], nofun, rfl⟩
  · exact ⟨front, spaces, rfl⟩

theorem isBlankLine_indentLine (spaces : ∀ c ∈ front, isIndent c = true) (line : Text) :
    isBlankLine (indentLine front line) = isBlankLine line := by
  obtain ⟨cut, cut_spaces, split⟩ := indentLine_deeper spaces line
  rw [split, isBlankLine_append cut_spaces]

/-- The lines of an indented text are the indented lines. -/
theorem linesWithEnds_indentLines (spaces : ∀ c ∈ front, isIndent c = true) (text : Text) :
    linesWithEnds (indentLines front text) = (linesWithEnds text).map (indentLine front) := by
  obtain ⟨are, -, filled⟩ := linesWithEnds_are text
  have deeper : List.Forall₂ IsDeeper ((linesWithEnds text).map (indentLine front))
      (linesWithEnds text) := by
    rw [List.forall₂_map_left_iff, List.forall₂_same]
    exact fun line _ => indentLine_deeper spaces line
  have same := (are.lengthened deeper).linesWithEnds
  rw [← List.flatMap_def] at same
  refine same.trans (List.filter_eq_self.mpr fun line mem => ?_)
  obtain ⟨own, among, rfl⟩ := List.mem_map.mp mem
  obtain ⟨cut, -, split⟩ := indentLine_deeper spaces own
  rw [split]
  simp [filled own among]

/-- Further indentation adds to the common indentation. -/
theorem commonIndent_indentLines (spaces : ∀ c ∈ front, isIndent c = true)
    (some : ∃ line ∈ linesWithEnds text, isBlankLine line = false) :
    commonIndent (indentLines front text) = front ++ commonIndent text := by
  -- The lines with something on them are those of the text with the string in front.
  have starts (other : Text) :
      (∀ line ∈ linesWithEnds (indentLines front text), isBlankLine line = false →
        other <+: line) ↔
      ∀ line ∈ linesWithEnds text, isBlankLine line = false → other <+: front ++ line := by
    rw [linesWithEnds_indentLines spaces, List.forall_mem_map]
    refine forall₂_congr fun line _ => ?_
    rw [isBlankLine_indentLine spaces]
    refine forall_congr' fun solid => ?_
    rw [indentLine, if_neg (by simp [solid])]
  have some_indented :
      ∃ line ∈ linesWithEnds (indentLines front text), isBlankLine line = false := by
    obtain ⟨line, mem, solid⟩ := some
    refine ⟨indentLine front line, ?_, (isBlankLine_indentLine spaces line).trans solid⟩
    rw [linesWithEnds_indentLines spaces]
    exact List.mem_map_of_mem mem
  have own := commonIndent_spaces text
  have shared := commonIndent_shared text
  have upto : front ++ commonIndent text <+: commonIndent (indentLines front text) := by
    refine (prefix_commonIndent_iff (List.forall_mem_append.mpr ⟨spaces, own⟩) some_indented).mpr
      ((starts _).mpr fun line mem solid => ?_)
    exact (List.prefix_append_right_inj front).mpr (shared.starts line mem solid)
  obtain ⟨more, whole⟩ := upto
  have all := commonIndent_spaces (indentLines front text)
  have back := (starts _).mp (commonIndent_shared (indentLines front text)).starts
  rw [← whole, List.append_assoc] at all back
  have longer := (prefix_commonIndent_iff (List.forall_mem_append.mp all).2 some).mpr
    fun line mem solid => (List.prefix_append_right_inj front).mp (back line mem solid)
  have none : more = [] := by
    have shorter := longer.length_le
    rw [List.length_append] at shorter
    exact List.length_eq_zero_iff.mp (by omega)
  rw [← whole, none, List.append_nil]

/-- Dedenting takes away indentation that was put in front of the lines, if no blank line starts
with a space or a tab. -/
theorem dedent_indentLines (spaces : ∀ c ∈ front, isIndent c = true)
    (bare : ∀ line ∈ linesWithEnds text, isBlankLine line = true → indentOf line = []) :
    dedent (indentLines front text) = dedent text := by
  rcases some_solid_or_blank text with some | blank
  · rw [dedent_eq, dedent_eq, commonIndent_indentLines spaces some,
      linesWithEnds_indentLines spaces, List.map_map]
    refine congrArg List.flatten (List.map_congr_left fun line mem => ?_)
    have own := commonIndent_spaces text
    have all := List.forall_mem_append.mpr ⟨spaces, own⟩
    rw [Function.comp_apply, indentLine]
    split
    · next blank =>
      have kept := bare line mem blank
      rw [dedentLine_bare all kept, dedentLine_bare own kept]
    · next solid =>
      obtain ⟨rest, rfl⟩ := (commonIndent_shared text).starts line mem (by simpa using solid)
      rw [dedentLine, dedentLine, ← List.append_assoc,
        List.isPrefixOf?_eq_some_iff_append_eq.mpr rfl,
        List.isPrefixOf?_eq_some_iff_append_eq.mpr rfl]
      rfl
  · have same : indentLines front text = text := by
      rw [indentLines, List.flatMap_congr fun line mem => if_pos (blank line mem), List.flatMap_id',
        (linesWithEnds_are text).2.1]
    rw [same]

/-- Dedenting takes exactly the common indentation from every line with something on it, and at most
spaces and tabs in front from every blank one, and it keeps the ends of lines. What is left shares
no indentation, so dedenting it again changes nothing; and it is the same if a string of spaces and
tabs was put in front of every line with something on it, unless a blank line starts with a space or
tab. -/
theorem dedent_takes_common (text : Text) :
    (∀ indent, IsCommonIndent text indent ↔ indent = commonIndent text) ∧
    (∃ rests, List.Forall₂ (Loses (commonIndent text)) (linesWithEnds text) rests ∧
      dedent text = rests.flatten) ∧
    lineEnds (dedent text) = lineEnds text ∧
    IsCommonIndent (dedent text) [] ∧
    dedent (dedent text) = dedent text ∧
    ∀ front : Text, (∀ c ∈ front, isIndent c = true) →
      (∀ line ∈ linesWithEnds text, isBlankLine line = true → indentOf line = []) →
      dedent (indentLines front text) = dedent text :=
  ⟨fun _ => isCommonIndent_iff, ⟨_, dedent_loses text, dedent_eq text⟩, dedent_lineEnds text,
    dedent_common text, dedent_of_none (isCommonIndent_iff.mp (dedent_common text)).symm,
    fun _ spaces bare => dedent_indentLines spaces bare⟩

/-- Two spaces put in front are taken away again together with the tab that the lines share. The
blank lines, of which the last has no end, stay as they are. -/
theorem dedent_takes_common_tab :
    let text : Text := "\ta\r\n\n\t  b\n\x0b".toList
    dedent (indentLines "  ".toList text) = dedent text ∧
      dedent text = "a\r\n\n  b\n\x0b".toList := by
  intro text
  obtain ⟨-, -, -, -, -, indented⟩ := dedent_takes_common text
  exact ⟨indented "  ".toList (List.all_eq_true.mp rfl) (by decide), by decide⟩

end Indented

end LambdaLayout.Text
