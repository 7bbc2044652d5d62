import LambdaLayout.Proofs.CommonIndent
import LambdaLayout.Proofs.DefinitionFound
import LambdaLayout.Proofs.FirstToken

/-!
What stands before a statement on its line, and what that makes of the call looked for at the line.
A statement on lines of its own is searched as if it stood by itself without indentation, whatever
is around it. Behind a clause that a word such as `else` opens nothing can be read. Behind anything
else, such as the clause of a condition or a statement and a semicolon, the search is in what begins
with the line, and so not in the statement.
-/

namespace LambdaLayout

open LambdaLayout.Python (Parsed innerWords startsToken)
open LambdaLayout.Text (isBlankLine isIdentifierContinue isIndent indentLines indentOf linesWithEnds)

/-- The first statement is the first node that is neither a comment nor a line continuation, if it
is named. -/
theorem Extract.first_of_front {parsed : Parsed} {tree : Python.Tree}
    (front : parsed.tree.children.find? (fun tree => !tree.isExtra) = some tree)
    (named : tree.label.named = true) : first? parsed = some tree := by
  obtain ⟨solid, before, after, split, skipped⟩ := List.find?_eq_some_iff_append.mp front
  have kinds : tree.isComment = false ∧ (tree.kind == "line_continuation") = false := by
    simpa [Python.Tree.isExtra] using solid
  have kept : (Node.isKept tree && !tree.isComment) = true := by
    rw [Node.isKept, named, kinds.1, bne, kinds.2]
    rfl
  have none : (before.find? fun child => Node.isKept child && !child.isComment) = none := by
    rw [List.find?_eq_none]
    intro other mem
    rcases Python.Tree.extra_kind (by simpa using skipped other mem) with kind | kind <;>
      simp [Node.isKept, Python.Tree.isComment, kind]
  rw [first?, split, List.find?_append, none, Option.none_or]
  exact List.find?_cons_of_pos kept

namespace Definition

/-- A text without a line feed reaches back to the start of its line. -/
private theorem lead_ends {before more : Text} (free : '\n' ∉ more)
    (starts : before ++ more = [] ∨ (before ++ more).getLast? = some '\n') : more = [] := by
  rcases starts with none | last
  · exact (List.append_eq_nil_iff.mp none).2
  · by_contra some
    rw [List.getLast?_append_of_ne_nil _ some] at last
    exact free (List.mem_of_getLast? last)

/-- One text stands before a place on its line. -/
theorem OnLine.unique {source lead other : Text} {offset : Nat} (first : OnLine source offset lead)
    (second : OnLine source offset other) : lead = other := by
  obtain ⟨before, after, whole, size, free, starts⟩ := first
  obtain ⟨before', after', whole', size', free', starts'⟩ := second
  have same := (Text.split_unique (whole.symm.trans whole') (size.trans size'.symm)).1
  obtain ⟨more, rfl, rfl⟩ | ⟨more, rfl, rfl⟩ := List.append_eq_append_iff.mp same
  · rw [lead_ends (fun mem => free (List.mem_append_left _ mem)) starts', List.nil_append]
  · rw [lead_ends (fun mem => free' (List.mem_append_left _ mem)) starts, List.nil_append]

/-- The innermost statement at a line of a file reads as the one text, and the other text stands
before it on its line. -/
def FoundAt (files : FileSystem) (path : Text) (line : Nat) (parse : Text → Parsed)
    (front body : Text) : Prop :=
  ∃ bytes source statement, files.read path = .ok bytes ∧ Utf8.decode bytes = .ok source ∧
    innermost? (line - 1) (parse source).tree.children = some statement ∧
    Text.Holds source statement.span.startByte body statement.span.endByte ∧
    OnLine source statement.span.startByte front

section Lines

variable {files : FileSystem} {path body keyword identifier front rest : Text} {line : Nat}
  {parse : Text → Parsed}

/-- The call is looked for in the line up to the statement and the statement. -/
theorem FoundAt.call_eq (found : FoundAt files path line parse front body) :
    callInFile files path line keyword identifier parse =
      Extract.call (front ++ body) keyword identifier parse := by
  obtain ⟨bytes, source, statement, read, decoded, innermost, covers, before⟩ := found
  obtain ⟨other, also, cut⟩ := inSource_eq innermost covers
  rw [before.unique also]
  exact callInFile_eq (other ++ body) read decoded cut

theorem FoundAt.unended (found : FoundAt files path line parse front body) : '\n' ∉ front := by
  obtain ⟨_, _, _, -, -, -, -, _, _, -, -, free, -⟩ := found
  exact free

/-- For a statement on lines of its own, the call is looked for in the text of the statement by
itself, wherever the statement stands and however far its lines are indented. -/
theorem call_on_own_lines {text : Text} (found : FoundAt files path line parse front body)
    (spaces : ∀ c ∈ front, isIndent c = true) (lines : front ++ body = indentLines front text)
    (bare : ∀ line ∈ linesWithEnds text, isBlankLine line = true → indentOf line = []) :
    callInFile files path line keyword identifier parse =
      Extract.call text keyword identifier parse := by
  rw [found.call_eq, lines, Extract.call, Extract.call, Text.dedent_indentLines spaces bare]

/-- A statement on one line of its own is searched by itself. -/
theorem call_on_own_line (found : FoundAt files path line parse front body)
    (spaces : ∀ c ∈ front, isIndent c = true) (single : '\n' ∉ body)
    (solid : isBlankLine body = false) :
    callInFile files path line keyword identifier parse =
      Extract.call body keyword identifier parse := by
  have some : body ≠ [] := by
    rintro rfl
    cases solid
  have lines : linesWithEnds body = [body] := Text.linesWithEnds_last single some
  apply call_on_own_lines found spaces
  · rw [indentLines, lines, List.flatMap_singleton, if_neg (by simp [solid])]
  · rw [lines]
    intro line mem blank
    rw [List.mem_singleton.mp mem, solid] at blank
    cases blank

/-- Behind a word that no statement starts with, such as `else`, nothing can be read. -/
theorem call_behind_word {word : String} {c : Char}
    (found : FoundAt files path line Python.parse (front ++ (word.toList ++ c :: rest)) body)
    (spaces : ∀ c ∈ front, isIndent c = true) (inner : word ∈ innerWords)
    (ends : isIdentifierContinue c = false) (name : Text.isName keyword = true)
    (label : identifier = [] ∨ Text.isName identifier = true) :
    ∃ reason, callInFile files path line keyword identifier = .error (.unparsable reason) := by
  obtain ⟨d, tail, spelled, starts, -⟩ := (Python.plain_of_inner inner).first
  have free : '\n' ∉ front ++ d :: (tail ++ c :: rest) := by
    have unended := found.unended
    rwa [spelled] at unended
  obtain ⟨cut, kept, more, split, dedented⟩ :=
    Text.dedent_first spaces (Python.solid_of_starts starts) free body
  have whole : Text.dedent (front ++ (word.toList ++ c :: rest) ++ body) =
      kept ++ (word.toList ++ (c :: rest ++ more)) := by
    rw [spelled, ← List.append_assoc (d :: tail)]
    simpa using dedented
  have kept_spaces : ∀ c ∈ kept, isIndent c = true :=
    fun c mem => spaces c (split ▸ List.mem_append_right cut mem)
  have unread := Python.read_refuses inner
    (@Python.read_word word kept (c :: rest ++ more) inner kept_spaces (by simpa using ends))
  rw [found.call_eq]
  apply (Extract.call_unparsable_iff _ _ _).mpr
  rw [whole]
  exact ⟨⟨_, Extract.singleCall_eq name label⟩, Python.errors_of_unread unread⟩

/-- Behind anything else the search is in the first statement of what begins with the line, which
starts with the line and so before the statement, if that can be read. -/
theorem call_behind_token {c : Char}
    (found : FoundAt files path line Python.parse (front ++ c :: rest) body)
    (spaces : ∀ c ∈ front, isIndent c = true) (starts : startsToken c = true)
    (name : Text.isName keyword = true)
    (label : identifier = [] ∨ Text.isName identifier = true) :
    let answer := callInFile files path line keyword identifier
    let text := Text.dedent (front ++ c :: rest ++ body)
    let again := Python.parse text
    ∃ indent more, indent <:+ front ∧ text = indent ++ c :: rest ++ more ∧
      (again.hasErrors = true ∧ (∃ reason, answer = .error (.unparsable reason)) ∨
        again.hasErrors = false ∧ ∃ first, Extract.first? again = some first ∧
          first.span.startByte ≤ Text.byteLength indent ∧
          answer = Extract.onlyMatch (Extract.sought keyword identifier) identifier
            (Node.ofTree again first)) := by
  intro answer text again
  obtain ⟨cut, kept, more, split, dedented⟩ :=
    Text.dedent_first spaces (Python.solid_of_starts starts) found.unended body
  have given : answer = Extract.call (front ++ c :: rest ++ body) keyword identifier :=
    found.call_eq
  refine ⟨kept, more, ⟨cut, split.symm⟩, dedented, ?_⟩
  cases sound : again.hasErrors with
  | true =>
    refine .inl ⟨rfl, ?_⟩
    rw [given]
    exact (Extract.call_unparsable_iff _ _ _).mpr ⟨⟨_, Extract.singleCall_eq name label⟩, sound⟩
  | false =>
    have kept_spaces : ∀ c ∈ kept, isIndent c = true :=
      fun c mem => spaces c (split ▸ List.mem_append_right cut mem)
    have whole : text = kept ++ c :: (rest ++ more) := by
      rw [← List.cons_append, ← List.append_assoc]
      exact dedented
    have leads := @Python.front_starts kept (rest ++ more) c kept_spaces starts
    rw [← whole] at leads
    obtain ⟨first, front, named, begins⟩ := leads sound
    have is := Extract.first_of_front front named
    refine .inr ⟨rfl, first, is, begins, ?_⟩
    rw [given, Extract.call_eq Python.parse_lawful name label _ sound, is]

/-- Line 2 is in the second statement only, but the first one is searched. -/
example :
    let source := "a; x = def_(lambda: [1,\n 2])\n".toList
    let text := "a; x = def_(lambda: [1,\n 2])".toList
    (inSource source 2).toOption = some text ∧
      (Extract.first? (Python.parse text)).map (fun first => first.span.endByte) = some 1 ∧
      (Extract.call text "def_".toList []).toOption.isNone = true := by
  decide +kernel

end Lines

end Definition

end LambdaLayout
