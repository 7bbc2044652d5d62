import LambdaLayout.Proofs.PatternGrammar

/-!
The patterns of calls with one argument. A text followed by a question mark in parentheses is read iff
it is a path, blanks around it aside, so a keyword is read back as it stands: alone, with any label
under it or with a given one. The texts for the keyword and the label are put together unseen: a
keyword with blanks in front, one that is a path of its own, and open segments are taken as well.
-/

namespace LambdaLayout.Pattern

section

variable {text keyword identifier : Text} {pattern : Pattern}

/-- No parenthesis stands in what is between the parentheses of a call. -/
theorem Asks.free {arguments : Option (List Pattern)} (asks : Asks text arguments) : '(' ∉ text := by
  cases asks with
  | nothing => nofun
  | any => decide
  | paths filled each read =>
    intro mem
    rcases Text.mem_intercalate mem with sign | ⟨piece, among, inside⟩
    · cases sign
    · obtain ⟨path, valid, same⟩ := path_of_piece each read among
      have left := Text.mem_trim inside (by decide)
      rw [← same] at left
      exact valid.free (by decide) left

/-- A text is read as what is called with one argument iff it is a path. -/
theorem ofText_one_iff : ofText (text ++ "(?)".toList) = .ok pattern ↔
    ∃ function, IsPath function ∧ function.pathText = Text.trim text ∧
      pattern = callWith function [any] := by
  have signs : text ++ "(?)".toList = text ++ '(' :: ['?', ')'] := rfl
  have trimmed : Text.trim (text ++ '(' :: ['?', ')']) =
      Text.trimStart text ++ '(' :: ['?', ')'] := Text.trim_append (by decide) _ _
  have one : readArguments ['?'] = .ok (some [any]) := rfl
  rw [signs, ofText_ok_iff, trimmed]
  constructor
  · intro spells
    generalize whole : Text.trimStart text ++ '(' :: ['?', ')'] = given at spells
    cases spells with
    | path path => exact absurd (by rw [← whole]; simp) (path.free (by decide) : '(' ∉ _)
    | @call before inner function arguments path called asks =>
      have free : '(' ∉ inner ++ [')'] := by
        intro mem
        rcases List.mem_append.mp mem with inside | last
        · exact asks.free (Text.mem_trim inside (by decide))
        · exact absurd last (by decide)
      obtain ⟨front, back⟩ := Text.last_unique whole (by decide) free
      obtain rfl : ['?'] = inner := List.append_cancel_right back
      refine ⟨function, path, by rw [called, ← front, Text.trim_trimStart], ?_⟩
      rw [readArguments_iff.mpr asks] at one
      rw [Except.ok.inj one]
      rfl
  · rintro ⟨function, path, same, rfl⟩
    exact .call path (by rw [same, Text.trim_trimStart]) (readArguments_iff.mp one)

/-- The keyword with one argument. -/
theorem ofText_bare (name : Text.isName keyword = true) :
    ofText (keyword ++ "(?)".toList) = .ok (.callWith (.name keyword) [.any]) :=
  ofText_one_iff.mpr ⟨_, .name name, (Text.trim_name name).symm ▸ pathText_name keyword, rfl⟩

/-- A name under the keyword, which may be left open, with one argument. -/
theorem ofText_under (label : Option Text) (name : Text.isName keyword = true)
    (valid : ∀ id ∈ label, Text.isName id = true) :
    ofText (keyword ++ '.' :: label.getD ['?'] ++ "(?)".toList) =
      .ok (.callWith (.access (.name keyword) label) [.any]) := by
  have path : IsPath (.access (.name keyword) label) := .access (.name name) valid
  refine ofText_one_iff.mpr ⟨_, path, ?_, rfl⟩
  have written : pathText (.access (.name keyword) label) = keyword ++ '.' :: label.getD ['?'] := by
    rw [(IsPath.name name).pathText_access, pathText_name]
  rw [← written, Text.trim_of_solid path.solid]

/-- Any name under the keyword with one argument. -/
theorem ofText_labelled (name : Text.isName keyword = true) :
    ofText (keyword ++ ".?(?)".toList) =
      .ok (.callWith (.access (.name keyword) none) [.any]) := by
  have read := ofText_under none name nofun
  rwa [List.append_assoc] at read

/-- The name under the keyword with one argument. -/
theorem ofText_named (name : Text.isName keyword = true) (label : Text.isName identifier = true) :
    ofText (keyword ++ '.' :: identifier ++ "(?)".toList) =
      .ok (.callWith (.access (.name keyword) (some identifier)) [.any]) :=
  ofText_under (some identifier) name fun _ is => Option.mem_some.mp is ▸ label

/-- The keyword with the name under it, if one is given. -/
def underKeyword (keyword identifier : Text) : Text :=
  if identifier = [] then keyword else keyword ++ '.' :: identifier

theorem singleCallText_eq (keyword identifier : Text) :
    singleCallText keyword identifier = underKeyword keyword identifier ++ "(?)".toList := by
  rw [singleCallText, underKeyword]
  split <;> rfl

theorem isPathText_under_iff : IsPathText (Text.trim (underKeyword keyword identifier)) ↔
    if identifier = [] then IsPathText (Text.trim keyword)
    else IsPathText (Text.trimStart keyword) ∧ IsPathText (Text.trimEnd identifier) := by
  rw [underKeyword]
  split
  · rfl
  · rw [Text.trim_append (by decide), isPathText_append_iff]

end

/-- The pattern of a call of the keyword, or of the identifier under it, calls the path that the two
make up, blanks around it aside, with one argument. There is none iff one of the two is no path, where
blanks in front of the keyword and behind what is given last do not count. For names it calls just
them. -/
theorem singleCall_answers (keyword identifier : Text) :
    (∀ pattern, singleCall keyword identifier = .ok pattern ↔
      ∃ function, IsPath function ∧
        function.pathText = Text.trim (underKeyword keyword identifier) ∧
        pattern = .callWith function [.any]) ∧
    ((∃ pattern, singleCall keyword identifier = .ok pattern) ↔
      if identifier = [] then IsPathText (Text.trim keyword)
      else IsPathText (Text.trimStart keyword) ∧ IsPathText (Text.trimEnd identifier)) ∧
    (Text.isName keyword = true → (identifier = [] ∨ Text.isName identifier = true) →
      singleCall keyword identifier = .ok (.callWith
        (if identifier = [] then .name keyword else .access (.name keyword) (some identifier))
        [.any])) := by
  have answers : ∀ pattern, singleCall keyword identifier = .ok pattern ↔
      ∃ function, IsPath function ∧
        function.pathText = Text.trim (underKeyword keyword identifier) ∧
        pattern = .callWith function [.any] := by
    intro pattern
    rw [singleCall, singleCallText_eq, ofText_one_iff]
  refine ⟨answers, ?_, fun name label => ?_⟩
  · rw [← isPathText_under_iff, isPathText_iff]
    constructor
    · rintro ⟨pattern, read⟩
      obtain ⟨function, path, same, -⟩ := (answers pattern).mp read
      exact ⟨function, path, same⟩
    · rintro ⟨function, path, same⟩
      exact ⟨_, (answers _).mpr ⟨function, path, same, rfl⟩⟩
  · rw [singleCall, singleCallText]
    split
    · exact ofText_bare name
    · next some => exact ofText_named name (label.resolve_left some)

/-- Blanks in front of the keyword are taken, and the pattern calls the name without them. -/
theorem singleCall_answers_names :
    singleCall "def_".toList "fib".toList =
        .ok (.callWith (.access (.name "def_".toList) (some "fib".toList)) [.any]) ∧
      ∃ pattern, singleCall " def_".toList "?".toList = .ok pattern := by
  refine ⟨(singleCall_answers _ _).2.2 (by decide) (.inr (by decide)), ?_⟩
  rw [(singleCall_answers " def_".toList "?".toList).2.1, if_neg (by decide)]
  exact ⟨isPathText_iff.mpr ⟨_, .name (by decide : Text.isName "def_".toList = true), rfl⟩,
    isPathText_iff.mpr ⟨_, .any, rfl⟩⟩

/-- A keyword that is no name is taken when it is a path, and the pattern has its shape. -/
theorem singleCall_takes_path :
    Text.isName "a.b".toList = false ∧
      singleCall "a.b".toList [] =
        .ok (.callWith (.access (.name "a".toList) (some "b".toList)) [.any]) :=
  ⟨by decide, rfl⟩

end LambdaLayout.Pattern
