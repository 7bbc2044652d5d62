import LambdaLayout.Pattern
import LambdaLayout.Proofs.NameText

/-!
The grammar of patterns. A path is made of segments with dots between them, each a question mark or a
name; a pattern is a path, or a path with an argument list in parentheses. Reading accepts exactly the
texts of this grammar, blanks around the paths aside, gives only paths and calls of paths, and inverts
writing.
-/

namespace LambdaLayout.Pattern

/-- A question mark or a name. -/
def IsSegment (text : Text) : Prop := text = ['?'] ∨ Text.isName text = true

/-- One or more segments with dots between them. -/
def IsPathText (text : Text) : Prop :=
  ∃ segments : List Text, segments ≠ [] ∧ (∀ segment ∈ segments, IsSegment segment) ∧
    text = ['.'].intercalate segments

/-- What may stand between the parentheses of a call. -/
inductive IsArgumentText : Text → Prop where
  /-- No arguments. -/
  | nothing : IsArgumentText []
  /-- Any arguments. -/
  | any : IsArgumentText ['?', '?']
  /-- One or more paths with commas between them, each possibly among blanks. -/
  | paths {pieces : List Text} (some : pieces ≠ [])
      (each : ∀ piece ∈ pieces, IsPathText (Text.trim piece)) :
      IsArgumentText ([','].intercalate pieces)

/-- The texts of patterns. -/
inductive IsPatternText : Text → Prop where
  /-- A path. -/
  | path {text : Text} (path : IsPathText text) : IsPatternText text
  /-- A path, possibly followed by blanks, and an argument list that ends the text. -/
  | call {function inner : Text} (called : IsPathText (Text.trim function))
      (given : IsArgumentText (Text.trim inner)) :
      IsPatternText (function ++ '(' :: (inner ++ [')']))

/-- The segments of a path. What is left open is a question mark. -/
def segments : Pattern → List Text
  | any => [['?']]
  | name id => [id]
  | access object label => segments object ++ [label.getD ['?']]
  | _ => []

/-- The text of a path. -/
def pathText (pattern : Pattern) : Text := ['.'].intercalate pattern.segments

/-- The text of the arguments of a call. -/
def argumentText : Option (List Pattern) → Text
  | none => ['?', '?']
  | some arguments => [','].intercalate (arguments.map pathText)

/-- The text of a path or of a call of a path. -/
def written : Pattern → Text
  | call function => function.pathText ++ '(' :: (argumentText none ++ [')'])
  | callWith function arguments =>
    function.pathText ++ '(' :: (argumentText (some arguments) ++ [')'])
  | pattern => pattern.pathText

/-- A path of names, each of which may be left open. -/
inductive IsPath : Pattern → Prop where
  | any : IsPath any
  | name {id : Text} (valid : Text.isName id = true) : IsPath (name id)
  | access {object : Pattern} {label : Option Text} (path : IsPath object)
      (valid : ∀ id ∈ label, Text.isName id = true) : IsPath (access object label)

/-- A path, or a call of a path whose arguments are left open or a list of paths. -/
inductive IsWritten : Pattern → Prop where
  | path {pattern : Pattern} (path : IsPath pattern) : IsWritten pattern
  | call {function : Pattern} (path : IsPath function) : IsWritten (call function)
  | callWith {function : Pattern} {arguments : List Pattern} (path : IsPath function)
      (each : ∀ argument ∈ arguments, IsPath argument) : IsWritten (callWith function arguments)

section Paths

variable {text segment : Text} {object pattern : Pattern} {rest front back : List Text}

/-- The characters of paths. -/
def isPathChar (c : Char) : Bool := Text.isNameChar c || c == '?' || c == '.'

theorem pathChar_solid {c : Char} (char : isPathChar c = true) : Text.isBlank c = false := by
  simp only [isPathChar, Bool.or_eq_true, beq_iff_eq] at char
  rcases char with (name | rfl) | rfl
  · exact Text.nameChar_not_blank name
  · decide
  · decide

theorem name_not_open {id : Text} (valid : Text.isName id = true) : id ≠ ['?'] := by
  rintro rfl
  exact absurd valid (by decide)

/-- No segment holds a dot. -/
theorem IsSegment.chars (valid : IsSegment segment) :
    ∀ c ∈ segment, isPathChar c = true ∧ c ≠ '.' := by
  intro c mem
  rcases valid with rfl | name
  · rw [List.mem_singleton.mp mem]
    decide
  · have char := (Text.isName_chars name).2 c mem
    refine ⟨by rw [isPathChar, char]; rfl, ?_⟩
    rintro rfl
    exact absurd char (by decide)

/-- Segments with dots between them are found again. -/
theorem splitOn_segments {parts : List Text} (some : parts ≠ [])
    (valid : ∀ segment ∈ parts, IsSegment segment) :
    List.splitOn '.' (['.'].intercalate parts) = parts :=
  List.splitOn_intercalate '.' (fun segment mem dot => ((valid segment mem).chars '.' dot).2 rfl) some

theorem IsPath.segments_valid (path : IsPath pattern) :
    pattern.segments ≠ [] ∧ ∀ segment ∈ pattern.segments, IsSegment segment := by
  induction path with
  | any => exact ⟨by simp [segments], by simp [segments, IsSegment]⟩
  | name valid => exact ⟨by simp [segments], by simp [segments, IsSegment, valid]⟩
  | @access object label path valid ih =>
    refine ⟨by simp [segments], fun segment mem => ?_⟩
    rw [segments, List.mem_append, List.mem_singleton] at mem
    rcases mem with front | rfl
    · exact ih.2 segment front
    · cases label with
      | none => exact .inl rfl
      | some id => exact .inr (valid id rfl)

theorem pathText_name (id : Text) : (name id).pathText = id := List.intercalate_singleton

/-- The text of an access is that of its object, a dot and the label. -/
theorem IsPath.pathText_access (path : IsPath object) (label : Option Text) :
    (Pattern.access object label).pathText = object.pathText ++ '.' :: label.getD ['?'] := by
  rw [pathText, segments, pathText]
  exact Text.intercalate_concat path.segments_valid.1 _

theorem IsPath.chars (path : IsPath pattern) : ∀ c ∈ pattern.pathText, isPathChar c = true := by
  intro c mem
  rcases Text.mem_intercalate mem with rfl | ⟨segment, among, inside⟩
  · decide
  · exact ((path.segments_valid.2 segment among).chars c inside).1

theorem IsPath.solid (path : IsPath pattern) : ∀ c ∈ pattern.pathText, Text.isBlank c = false :=
  fun c mem => pathChar_solid (path.chars c mem)

/-- No path holds a sign that is not its own. -/
theorem IsPath.free {sign : Char} (path : IsPath pattern) (other : isPathChar sign = false) :
    sign ∉ pattern.pathText := by
  intro mem
  rw [path.chars sign mem] at other
  cases other

theorem IsPath.written_eq (path : IsPath pattern) : pattern.written = pattern.pathText := by
  cases path <;> rfl

theorem headSegment_ok (ran : headSegment segment = .ok pattern) :
    IsPath pattern ∧ pattern.segments = [segment] := by
  rw [headSegment] at ran
  split at ran
  · next open_ =>
    cases ran
    exact ⟨.any, by rw [segments, open_]⟩
  · split at ran
    · next valid =>
      cases ran
      exact ⟨.name valid, rfl⟩
    · cases ran

theorem labelSegments_ok (ran : labelSegments object rest = .ok pattern) (path : IsPath object) :
    IsPath pattern ∧ pattern.segments = object.segments ++ rest := by
  induction rest generalizing object with
  | nil =>
    cases ran
    exact ⟨path, (List.append_nil _).symm⟩
  | cons segment rest ih =>
    rw [labelSegments] at ran
    split at ran
    · next open_ =>
      obtain ⟨whole, parts⟩ := ih ran (.access path nofun)
      exact ⟨whole, by rw [parts, segments, open_, List.append_assoc]; rfl⟩
    · split at ran
      · next valid =>
        obtain ⟨whole, parts⟩ := ih ran (.access path fun id mem => Option.mem_some.mp mem ▸ valid)
        exact ⟨whole, by rw [parts, segments, List.append_assoc]; rfl⟩
      · cases ran

theorem labelSegments_append (front back : List Text) (object : Pattern) :
    labelSegments object (front ++ back) =
      labelSegments object front >>= fun object => labelSegments object back := by
  induction front generalizing object with
  | nil => rfl
  | cons segment front ih =>
    rw [List.cons_append, labelSegments, labelSegments]
    split
    · exact ih _
    · split
      · exact ih _
      · rfl

theorem labelSegments_some (valid : ∀ segment ∈ rest, IsSegment segment) (object : Pattern) :
    ∃ pattern, labelSegments object rest = .ok pattern := by
  induction rest generalizing object with
  | nil => exact ⟨object, rfl⟩
  | cons segment rest ih =>
    have later := ih fun other mem => valid other (List.mem_cons_of_mem _ mem)
    rw [labelSegments]
    rcases valid segment List.mem_cons_self with rfl | name
    · rw [if_pos rfl]
      exact later _
    · rw [if_neg (name_not_open name), if_pos name]
      exact later _

/-- The segments of a path are read as that path. -/
theorem IsPath.read_segments (path : IsPath pattern) : ∃ head rest, pattern.segments = head :: rest ∧
    (headSegment head >>= fun object => labelSegments object rest) = .ok pattern := by
  induction path with
  | any => exact ⟨_, [], rfl, rfl⟩
  | @name id valid =>
    refine ⟨id, [], rfl, ?_⟩
    rw [headSegment, if_neg (name_not_open valid), if_pos valid]
    rfl
  | @access object label path valid ih =>
    obtain ⟨head, rest, parts, ran⟩ := ih
    refine ⟨head, rest ++ [label.getD ['?']], by rw [segments, parts]; rfl, ?_⟩
    have last : labelSegments object [label.getD ['?']] = .ok (Pattern.access object label) := by
      cases label with
      | none => rfl
      | some id =>
        rw [Option.getD_some, labelSegments, if_neg (name_not_open (valid id rfl)),
          if_pos (valid id rfl), labelSegments]
    calc (headSegment head >>= fun start => labelSegments start (rest ++ [label.getD ['?']]))
        = (headSegment head >>= fun start => labelSegments start rest) >>= fun object =>
            labelSegments object [label.getD ['?']] := by
          simp only [labelSegments_append, bind_assoc]
      _ = .ok (Pattern.access object label) := by rw [ran]; exact last

/-- Reading a path inverts writing one. -/
theorem readPath_iff : readPath text = .ok pattern ↔ IsPath pattern ∧ pattern.pathText = text := by
  constructor
  · intro ran
    rw [readPath] at ran
    split at ran
    · cases ran
    · next head rest split =>
      cases first : headSegment head with
      | error flaw => rw [first] at ran; cases ran
      | ok object =>
        rw [first] at ran
        obtain ⟨start, one⟩ := headSegment_ok first
        obtain ⟨path, parts⟩ := labelSegments_ok ran start
        rw [one, List.singleton_append, ← split] at parts
        exact ⟨path, by rw [pathText, parts, List.intercalate_splitOn]⟩
  · rintro ⟨path, rfl⟩
    obtain ⟨some, valid⟩ := path.segments_valid
    obtain ⟨head, rest, parts, ran⟩ := path.read_segments
    have split : List.splitOn '.' pattern.pathText = head :: rest := by
      rw [← parts]
      exact splitOn_segments some valid
    rw [readPath, split]
    exact ran

/-- The texts of paths are those that are made of segments. -/
theorem isPathText_iff : IsPathText text ↔ ∃ pattern, IsPath pattern ∧ pattern.pathText = text := by
  constructor
  · rintro ⟨parts, some, valid, rfl⟩
    cases parts with
    | nil => exact absurd rfl some
    | cons head rest =>
      obtain ⟨object, first⟩ : ∃ object, headSegment head = .ok object := by
        rw [headSegment]
        rcases valid head List.mem_cons_self with open_ | name
        · exact ⟨_, if_pos open_⟩
        · rw [if_neg (name_not_open name), if_pos name]
          exact ⟨_, rfl⟩
      obtain ⟨pattern, ran⟩ :=
        labelSegments_some (fun other mem => valid other (List.mem_cons_of_mem _ mem)) object
      obtain ⟨start, one⟩ := headSegment_ok first
      obtain ⟨path, whole⟩ := labelSegments_ok ran start
      exact ⟨pattern, path, by rw [pathText, whole, one, List.singleton_append]⟩
  · rintro ⟨pattern, path, rfl⟩
    exact ⟨pattern.segments, path.segments_valid.1, path.segments_valid.2, rfl⟩

/-- The pieces between the dots of a path are its segments. -/
theorem isPathText_split : IsPathText text ↔ ∀ segment ∈ List.splitOn '.' text, IsSegment segment := by
  constructor
  · rintro ⟨parts, some, valid, rfl⟩
    rwa [splitOn_segments some valid]
  · intro valid
    exact ⟨_, List.splitOn_ne_nil '.' text, valid, (List.intercalate_splitOn '.').symm⟩

theorem isPathText_append_iff {left right : Text} :
    IsPathText (left ++ '.' :: right) ↔ IsPathText left ∧ IsPathText right := by
  rw [isPathText_split, isPathText_split, isPathText_split, List.splitOn_append_cons_self,
    List.forall_mem_append]

end Paths

/-- The text between the parentheses of a call, and what it asks of the arguments. -/
inductive Asks : Text → Option (List Pattern) → Prop where
  | nothing : Asks [] (some [])
  | any : Asks ['?', '?'] none
  | paths {pieces : List Text} {arguments : List Pattern} (filled : pieces ≠ [])
      (each : ∀ argument ∈ arguments, IsPath argument)
      (read : arguments.map pathText = pieces.map Text.trim) :
      Asks ([','].intercalate pieces) (some arguments)

/-- A call with the arguments asked for. -/
def callOf (function : Pattern) : Option (List Pattern) → Pattern
  | none => call function
  | some arguments => callWith function arguments

/-- A text without blanks around it, and the pattern it stands for. -/
inductive Spells : Text → Pattern → Prop where
  | path {pattern : Pattern} (path : IsPath pattern) : Spells pattern.pathText pattern
  | call {before inner : Text} {function : Pattern} {arguments : Option (List Pattern)}
      (path : IsPath function) (called : function.pathText = Text.trim before)
      (given : Asks (Text.trim inner) arguments) :
      Spells (before ++ '(' :: (inner ++ [')'])) (callOf function arguments)

section Reading

variable {text : Text} {pattern : Pattern} {arguments : Option (List Pattern)}

theorem readPaths_iff {pieces : List Text} {paths : List Pattern} :
    (pieces.mapM fun piece => readPath (Text.trim piece)) = .ok paths ↔
      (∀ path ∈ paths, IsPath path) ∧ paths.map pathText = pieces.map Text.trim := by
  induction pieces generalizing paths with
  | nil => cases paths <;> simp [pure, Except.pure]
  | cons piece pieces ih =>
    rw [List.mapM_cons]
    constructor
    · intro ran
      cases one : readPath (Text.trim piece) with
      | error flaw => rw [one] at ran; cases ran
      | ok first =>
        cases others : pieces.mapM fun piece => readPath (Text.trim piece) with
        | error flaw => rw [one, others] at ran; cases ran
        | ok rest =>
          rw [one, others] at ran
          cases ran
          obtain ⟨path, is⟩ := readPath_iff.mp one
          obtain ⟨each, same⟩ := ih.mp others
          exact ⟨List.forall_mem_cons.mpr ⟨path, each⟩, by rw [List.map_cons, List.map_cons, is, same]⟩
    · rintro ⟨each, same⟩
      cases paths with
      | nil => cases same
      | cons first rest =>
        obtain ⟨path, each⟩ := List.forall_mem_cons.mp each
        rw [List.map_cons, List.map_cons] at same
        obtain ⟨is, same⟩ := List.cons.inj same
        rw [readPath_iff.mpr ⟨path, is⟩, ih.mpr ⟨each, same⟩]
        rfl

section Pieces

variable {pieces : List Text} {paths : List Pattern} (each : ∀ path ∈ paths, IsPath path)
  (read : paths.map pathText = pieces.map Text.trim)

include each read

/-- A piece of a list is the text of one of its paths, possibly among blanks. -/
theorem path_of_piece {piece : Text} (mem : piece ∈ pieces) :
    ∃ path, IsPath path ∧ path.pathText = Text.trim piece := by
  have among : Text.trim piece ∈ paths.map pathText := by
    rw [read]
    exact List.mem_map_of_mem mem
  obtain ⟨path, inside, same⟩ := List.mem_map.mp among
  exact ⟨path, each path inside, same⟩

theorem piece_free {piece : Text} (mem : piece ∈ pieces) : ',' ∉ piece := by
  intro comma
  obtain ⟨path, valid, same⟩ := path_of_piece each read mem
  have inside := Text.mem_trim comma (by decide)
  rw [← same] at inside
  exact valid.free (by decide) inside

/-- The pieces of a list without blanks are its paths. -/
theorem dense_pieces : pieces.map Text.dense = paths.map pathText := by
  calc pieces.map Text.dense
      = (pieces.map Text.trim).map Text.dense := by
        rw [List.map_map]
        exact List.map_congr_left fun piece _ => (Text.dense_trim piece).symm
    _ = (paths.map pathText).map Text.dense := by rw [read]
    _ = paths.map pathText := by
        rw [List.map_map]
        exact List.map_congr_left fun path mem => Text.dense_of_solid (each path mem).solid

end Pieces

theorem readArguments_iff {inner : Text} :
    readArguments inner = .ok arguments ↔ Asks (Text.trim inner) arguments := by
  rw [readArguments]
  generalize Text.trim inner = inner
  constructor
  · intro ran
    split at ran
    · next open_ =>
      cases ran
      rw [open_]
      exact .any
    · split at ran
      · next empty =>
        cases ran
        rw [empty]
        exact .nothing
      · cases each : (List.splitOn ',' inner).mapM fun argument => readPath (Text.trim argument) with
        | error flaw => rw [each] at ran; cases ran
        | ok paths =>
          rw [each] at ran
          cases ran
          have whole : [','].intercalate (List.splitOn ',' inner) = inner :=
            List.intercalate_splitOn ','
          rw [← whole]
          obtain ⟨valid, read⟩ := readPaths_iff.mp each
          exact .paths (List.splitOn_ne_nil ',' inner) valid read
  · intro given
    cases given with
    | nothing => rfl
    | any => rfl
    | @paths pieces paths filled each read =>
      have split := List.splitOn_intercalate ',' (fun _ mem => piece_free each read mem) filled
      have ran := readPaths_iff.mpr ⟨each, read⟩
      -- A text without commas is its only piece, and neither of these two is a path.
      have other : ∀ text : Text, ',' ∉ text → readPath (Text.trim text) = .error (.head text) →
          [','].intercalate pieces ≠ text := by
        intro text free refused same
        have alone : pieces = [text] := by
          have one : List.splitOn ',' ([','].intercalate [text]) = [text] :=
            List.splitOn_intercalate ',' (by simpa using free) (List.cons_ne_nil _ _)
          rw [List.intercalate_singleton] at one
          rw [← split, same, one]
        rw [alone, List.mapM_cons, refused] at ran
        cases ran
      rw [if_neg (other ['?', '?'] (by decide) rfl), if_neg (other [] (by decide) rfl), split, ran]
      rfl

theorem read_iff : read text = .ok pattern ↔ Spells (Text.trim text) pattern := by
  rw [read]
  generalize Text.trim text = text
  constructor
  · intro ran
    split at ran
    · obtain ⟨path, rfl⟩ := readPath_iff.mp ran
      exact .path path
    · next before rest cut =>
      split at ran
      · cases ran
      · next inner closed =>
        rw [Text.splitOnce_some cut, ← List.append_eq_of_isSuffixOf?_eq_some closed]
        cases given : readArguments inner with
        | error flaw => rw [given] at ran; cases ran
        | ok arguments =>
          cases called : readPath (Text.trim before) with
          | error flaw => rw [given, called] at ran; cases ran
          | ok function =>
            rw [given, called] at ran
            obtain ⟨path, is⟩ := readPath_iff.mp called
            have result : pattern = callOf function arguments := by
              cases arguments <;> cases ran <;> rfl
            rw [result]
            exact .call path is (readArguments_iff.mp given)
  · intro spells
    cases spells with
    | path path =>
      rw [Text.splitOnce_free (path.free (by decide))]
      exact readPath_iff.mpr ⟨path, rfl⟩
    | @call before inner function arguments path called given =>
      have free : '(' ∉ before := by
        intro mem
        have inside := Text.mem_trim mem (by decide)
        rw [← called] at inside
        exact path.free (by decide) inside
      rw [Text.splitOnce_append free]
      have whole : readPath (Text.trim before) = .ok function := readPath_iff.mpr ⟨path, called⟩
      simp only [List.isSuffixOf?_eq_some_iff_append_eq.mpr rfl, readArguments_iff.mpr given, whole, bind, Except.bind]
      cases arguments <;> rfl

theorem ofText_ok_iff : ofText text = .ok pattern ↔ Spells (Text.trim text) pattern := by
  rw [← read_iff, ofText]
  cases read text with
  | ok found => simp
  | error flaw => simp

theorem paths_of_pieces {pieces : List Text}
    (each : ∀ piece ∈ pieces, IsPathText (Text.trim piece)) :
    ∃ paths : List Pattern, (∀ path ∈ paths, IsPath path) ∧
      paths.map pathText = pieces.map Text.trim := by
  induction pieces with
  | nil => exact ⟨[], nofun, rfl⟩
  | cons piece pieces ih =>
    obtain ⟨here, later⟩ := List.forall_mem_cons.mp each
    obtain ⟨first, path, is⟩ := isPathText_iff.mp here
    obtain ⟨rest, valid, same⟩ := ih later
    exact ⟨first :: rest, List.forall_mem_cons.mpr ⟨path, valid⟩,
      by rw [List.map_cons, List.map_cons, is, same]⟩

theorem isArgumentText_iff : IsArgumentText text ↔ ∃ arguments, Asks text arguments := by
  constructor
  · intro accepted
    cases accepted with
    | nothing => exact ⟨_, .nothing⟩
    | any => exact ⟨_, .any⟩
    | paths filled each =>
      obtain ⟨paths, valid, read⟩ := paths_of_pieces each
      exact ⟨_, .paths filled valid read⟩
  · rintro ⟨arguments, asks⟩
    cases asks with
    | nothing => exact .nothing
    | any => exact .any
    | paths filled each read =>
      exact .paths filled fun piece mem => isPathText_iff.mpr (path_of_piece each read mem)

/-- The texts that stand for a pattern are those of the grammar. -/
theorem isPatternText_iff : IsPatternText text ↔ ∃ pattern, Spells text pattern := by
  constructor
  · intro accepted
    cases accepted with
    | path path =>
      obtain ⟨pattern, valid, rfl⟩ := isPathText_iff.mp path
      exact ⟨pattern, .path valid⟩
    | call called given =>
      obtain ⟨function, path, is⟩ := isPathText_iff.mp called
      obtain ⟨arguments, asks⟩ := isArgumentText_iff.mp given
      exact ⟨_, .call path is asks⟩
  · rintro ⟨pattern, spells⟩
    cases spells with
    | path path => exact .path (isPathText_iff.mpr ⟨_, path, rfl⟩)
    | call path is asks =>
      exact .call (isPathText_iff.mpr ⟨_, path, is⟩) (isArgumentText_iff.mpr ⟨_, asks⟩)

/-- What a text stands for is a path or a call of one, and its text is the text without blanks. -/
theorem Spells.written (spells : Spells text pattern) :
    IsWritten pattern ∧ pattern.written = Text.dense text := by
  cases spells with
  | path path => exact ⟨.path path, by rw [path.written_eq, Text.dense_of_solid path.solid]⟩
  | @call before inner function arguments path called given =>
    have front : Text.dense before = function.pathText := by
      rw [← Text.dense_trim, ← called, Text.dense_of_solid path.solid]
    have whole : Text.dense (before ++ '(' :: (inner ++ [')'])) =
        function.pathText ++ '(' :: (Text.dense (Text.trim inner) ++ [')']) := by
      rw [Text.dense_append, Text.dense_cons (by decide), Text.dense_append, front, Text.dense_trim]
      rfl
    rw [whole]
    generalize Text.trim inner = inner at given
    cases given with
    | nothing => exact ⟨.callWith path nofun, rfl⟩
    | any => exact ⟨.call path, rfl⟩
    | paths filled each read =>
      refine ⟨.callWith path each, ?_⟩
      rw [Text.dense_intercalate (by decide), dense_pieces each read]
      rfl

/-- The text of paths asks for them. -/
theorem asks_written (each : ∀ paths ∈ arguments, ∀ path ∈ paths, IsPath path) :
    Asks (argumentText arguments) arguments ∧
      ∀ c ∈ argumentText arguments, Text.isBlank c = false := by
  cases arguments with
  | none => exact ⟨.any, List.forall_mem_cons.mpr ⟨rfl, List.forall_mem_singleton.mpr rfl⟩⟩
  | some paths =>
    have valid := each paths rfl
    constructor
    · cases paths with
      | nil => exact .nothing
      | cons first rest =>
        refine .paths (List.cons_ne_nil _ _) valid ?_
        rw [List.map_map]
        exact List.map_congr_left fun path mem => (Text.trim_of_solid (valid path mem).solid).symm
    · intro c mem
      rcases Text.mem_intercalate mem with rfl | ⟨piece, among, inside⟩
      · decide
      · obtain ⟨path, is, rfl⟩ := List.mem_map.mp among
        exact (valid path is).solid c inside

/-- A call is read back from its text. -/
theorem ofText_callOf {function : Pattern} (path : IsPath function)
    (each : ∀ paths ∈ arguments, ∀ path ∈ paths, IsPath path) :
    ofText (function.pathText ++ '(' :: (argumentText arguments ++ [')'])) =
      .ok (callOf function arguments) := by
  obtain ⟨asks, solid⟩ := asks_written each
  have whole : ∀ c ∈ function.pathText ++ '(' :: (argumentText arguments ++ [')']),
      Text.isBlank c = false := by
    intro c mem
    simp only [List.mem_append, List.mem_cons, List.not_mem_nil, or_false] at mem
    rcases mem with front | rfl | inner | rfl
    · exact path.solid c front
    · decide
    · exact solid c inner
    · decide
  rw [ofText_ok_iff, Text.trim_of_solid whole]
  exact .call path (Text.trim_of_solid path.solid).symm (by rw [Text.trim_of_solid solid]; exact asks)

/-- A pattern of the grammar is read back from its text. -/
theorem ofText_written (valid : IsWritten pattern) : ofText pattern.written = .ok pattern := by
  cases valid with
  | path path =>
    rw [path.written_eq, ofText_ok_iff, Text.trim_of_solid path.solid]
    exact .path path
  | @call function path =>
    exact (ofText_callOf path nofun : ofText (function.pathText ++ _) = .ok (callOf function none))
  | callWith path each =>
    exact ofText_callOf path fun paths is => Option.mem_some.mp is ▸ each

end Reading

/-- A text is read as a pattern iff it belongs to the grammar, blanks around it aside. A path or a call
of paths is what its text is read as, and whatever is read is one of these, with a text that differs
from what was read by blanks only. -/
theorem ofText_grammar (text : Text) :
    ((∃ pattern, ofText text = .ok pattern) ↔ IsPatternText (Text.trim text)) ∧
      (∀ pattern, IsWritten pattern → ofText pattern.written = .ok pattern) ∧
      ∀ pattern, ofText text = .ok pattern →
        IsWritten pattern ∧ pattern.written = Text.dense text := by
  refine ⟨?_, fun pattern valid => ofText_written valid, fun pattern read => ?_⟩
  · simp only [ofText_ok_iff, isPatternText_iff]
  · obtain ⟨valid, same⟩ := (ofText_ok_iff.mp read).written
    exact ⟨valid, by rw [same, Text.dense_trim]⟩

/-- Blanks may stand around the paths of a call and around its arguments. -/
theorem ofText_grammar_blanks :
    let pattern := callWith (access (name "a".toList) none)
      [name "x".toList, access any (some "y".toList)]
    IsWritten pattern ∧ ofText pattern.written = .ok pattern ∧
      ofText " a.? ( x ,?.y\t) ".toList = .ok pattern ∧
      pattern.written = Text.dense " a.? ( x ,?.y\t) ".toList := by
  intro pattern
  have valid : IsWritten pattern := by
    refine .callWith (.access (.name (by decide)) nofun) ?_
    rw [List.forall_mem_cons, List.forall_mem_singleton]
    refine ⟨.name (by decide), .access .any ?_⟩
    rintro id ⟨⟩
    decide
  have read : ofText " a.? ( x ,?.y\t) ".toList = .ok pattern := rfl
  exact ⟨valid, (ofText_grammar []).2.1 pattern valid, read,
    ((ofText_grammar _).2.2 pattern read).2⟩

end LambdaLayout.Pattern
