import LambdaLayout.Proofs.PatternRead

/-!
Patterns that are paths of names, and the dotted form of nodes. Where no identifier and no attribute
name holds a dot, a path of names fits just the nodes whose dotted form is its text, and with one
argument it fits just the calls of such nodes with one argument, comments aside.
-/

namespace LambdaLayout

namespace Node

/-- The identifier of a name, or the attribute name of an access. -/
def word? : Node → Option Text
  | name _ id => some id
  | access _ _ label _ => some label
  | _ => none

/-- No identifier and no attribute name in the node holds a dot. -/
def IsDotless (node : Node) : Prop := ∀ inner ∈ node.preorder, ∀ word ∈ inner.word?, '.' ∉ word

section

variable {span labelSpan : Span} {object function : Node} {label id : Text} {arguments : List Node}

theorem mem_preorder (node : Node) : node ∈ node.preorder := by
  cases node <;> simp [preorder]

theorem IsDotless.id_free (dotless : IsDotless (.name span id)) : '.' ∉ id :=
  dotless _ (mem_preorder _) id rfl

theorem IsDotless.label_free (dotless : IsDotless (.access span object label labelSpan)) :
    '.' ∉ label :=
  dotless _ (mem_preorder _) label rfl

theorem IsDotless.of_access (dotless : IsDotless (.access span object label labelSpan)) :
    object.IsDotless := fun inner mem =>
  dotless inner (List.mem_cons_of_mem _ mem)

theorem IsDotless.of_call (dotless : IsDotless (.call span function arguments)) :
    function.IsDotless := fun inner mem =>
  dotless inner (List.mem_cons_of_mem _ (List.mem_append_left _ mem))

end

end Node

namespace Pattern

section

variable {text : Text} {pattern : Pattern}

/-- A path of names fits the nodes whose dotted form is its text. -/
theorem IsPath.fits_iff (path : IsPath pattern) (named : '?' ∉ pattern.pathText) {node : Node}
    (dotless : node.IsDotless) : pattern.fits node = true ↔ node.path? = some pattern.pathText := by
  induction path generalizing node with
  | any => exact absurd (by rw [pathText, segments]; exact List.mem_singleton_self '?') named
  | @name id valid =>
    have free : '.' ∉ id := fun mem =>
      absurd ((Text.isName_chars valid).2 '.' mem) (by decide)
    rw [pathText_name]
    cases node with
    | name span found =>
      simp only [fits, Node.path?, beq_iff_eq, Option.some.injEq]
      exact ⟨Eq.symm, Eq.symm⟩
    | access span object label labelSpan =>
      simp only [fits, Node.path?, Bool.false_eq_true, Option.map_eq_some_iff, false_iff]
      rintro ⟨front, -, rfl⟩
      exact free (by simp)
    | _ => simp [fits, Node.path?]
  | @access object label path valid ih =>
    rw [path.pathText_access] at named ⊢
    cases label with
    | none => exact absurd (by simp) named
    | some label =>
      rw [Option.getD_some] at named ⊢
      have free : '.' ∉ label := fun mem =>
        absurd ((Text.isName_chars (valid label rfl)).2 '.' mem) (by decide)
      cases node with
      | name span found =>
        simp only [fits, Node.path?, Bool.false_eq_true, Option.some.injEq, false_iff]
        rintro rfl
        exact dotless.id_free (by simp)
      | access span below found labelSpan =>
        have inner := ih (fun mem => named (List.mem_append_left _ mem)) dotless.of_access
        simp only [fits, Node.path?, Bool.and_eq_true, inner, Option.all_some, beq_iff_eq,
          Option.map_eq_some_iff]
        constructor
        · rintro ⟨dotted, rfl⟩
          exact ⟨_, dotted, rfl⟩
        · rintro ⟨front, dotted, same⟩
          -- Neither label holds a dot, so both texts are cut at the same one.
          obtain ⟨rfl, rfl⟩ := Text.last_unique same dotless.label_free free
          exact ⟨dotted, rfl⟩
      | _ => simp [fits, Node.path?]

/-- A text without parentheses is read as a path. -/
theorem path_of_read (plain : '(' ∉ text) (read : ofText text = .ok pattern) :
    IsPath pattern ∧ pattern.pathText = Text.trim text := by
  have spells := ofText_ok_iff.mp read
  generalize whole : Text.trim text = trimmed at spells
  cases spells with
  | path path => exact ⟨path, rfl⟩
  | call => exact absurd (Text.mem_of_trim (by rw [whole]; simp)) plain

/-- One argument that may be anything fits just the single nodes. -/
theorem fitsAll_one (nodes : List Node) : fitsAll [any] nodes = true ↔ ∃ node, nodes = [node] := by
  rcases nodes with _ | ⟨first, _ | ⟨second, rest⟩⟩ <;> simp [fitsAll, fits]

end

/-- A path of names fits a node without dots in its words iff the dotted form of the node is the text
of the path. With one argument it fits just the calls of what has that dotted form, with one argument
among any number of comments. -/
theorem path_fits_dotted {text : Text} {pattern : Pattern} {node : Node}
    (plain : '(' ∉ text ∧ '?' ∉ text) (read : ofText text = .ok pattern)
    (dotless : node.IsDotless) :
    (pattern.fits node = true ↔ node.path? = some (Text.trim text)) ∧
      ∃ call, ofText (text ++ "(?)".toList) = .ok call ∧
        (call.fits node = true ↔ ∃ span function arguments,
          node = .call span function arguments ∧
          (∃ argument, arguments.filter (fun node => !node.isComment) = [argument]) ∧
          function.path? = some (Text.trim text)) := by
  obtain ⟨path, written⟩ := path_of_read plain.1 read
  have named : '?' ∉ pattern.pathText := by
    rw [written]
    exact mt Text.mem_of_trim plain.2
  rw [← written]
  refine ⟨path.fits_iff named dotless, _, ofText_one_iff.mpr ⟨_, path, written, rfl⟩, ?_⟩
  cases node with
  | call span function arguments =>
    rw [fits, Bool.and_eq_true, fitsAll_one, path.fits_iff named dotless.of_call]
    constructor
    · rintro ⟨dotted, one⟩
      exact ⟨_, _, _, rfl, one, dotted⟩
    · rintro ⟨_, _, _, ⟨⟩, one, dotted⟩
      exact ⟨dotted, one⟩
  | _ => simp [fits]

/-- A call of `a.b` with one argument between two comments has that shape. -/
theorem path_fits_dotted_comments :
    let text := " a.b ".toList
    let pattern : Pattern := .access (.name "a".toList) (some "b".toList)
    let node : Node := .call default
      (.access default (.name default "a".toList) "b".toList default)
      [.comment default "# c.d".toList, .name default "x".toList, .comment default "# e".toList]
    ('(' ∉ text ∧ '?' ∉ text) ∧ ofText text = .ok pattern ∧ node.IsDotless ∧
      (pattern.fits node = true ↔ node.path? = some (Text.trim text)) ∧
      ∃ call, ofText (text ++ "(?)".toList) = .ok call ∧ call.fits node = true := by
  intro text pattern node
  have plain : '(' ∉ text ∧ '?' ∉ text := by decide
  have read : ofText text = .ok pattern := rfl
  have dotless : node.IsDotless := by unfold Node.IsDotless; decide
  obtain ⟨path, call, written, fits⟩ := path_fits_dotted plain read dotless
  exact ⟨plain, read, dotless, path, call, written, fits.mpr ⟨_, _, _, rfl, ⟨_, rfl⟩, rfl⟩⟩

end Pattern

end LambdaLayout
