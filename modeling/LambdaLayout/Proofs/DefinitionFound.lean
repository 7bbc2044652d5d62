import LambdaLayout.Definition
import LambdaLayout.Proofs.ParseGrammatical
import LambdaLayout.Proofs.PatternRead
import LambdaLayout.Proofs.RepairWalk
import LambdaLayout.Proofs.Unplaced

/-!
The call found at a line. It is looked for in a text of its own: the innermost statement at the line
is cut out together with all that stands before it on its first line, and read once more. Where that
reading gives the statement again, the call found is the one that the statement has; a clause or
another statement before it on the line is read as well, and then something else is searched.
-/

namespace LambdaLayout

open LambdaLayout.Python (Parsed)

namespace Extract

variable {keyword identifier : Text}

/-- The shape of the calls that are looked for. -/
def sought (keyword identifier : Text) : Pattern :=
  .callWith (if identifier = [] then .name keyword else .access (.name keyword) (some identifier))
    [.any]

theorem singleCall_eq (name : Text.isName keyword = true)
    (label : identifier = [] ∨ Text.isName identifier = true) :
    Pattern.singleCall keyword identifier = .ok (sought keyword identifier) := by
  rw [Pattern.singleCall, Pattern.singleCallText, sought]
  split
  · exact Pattern.ofText_bare name
  · next some => exact Pattern.ofText_named name (label.resolve_left some)

/-- The first statement of a source. -/
def first? (parsed : Parsed) : Option Python.Tree :=
  parsed.tree.children.find? fun child => Node.isKept child && !child.isComment

theorem isComment_ofTree (parsed : Parsed) (tree : Python.Tree) :
    (Node.ofTree parsed tree).isComment = tree.isComment := by
  obtain ⟨label, children⟩ := tree
  have made := Node.lowered parsed label children
  revert made
  generalize Node.ofTree parsed (.node label children) = node
  intro made
  rw [Python.Tree.isComment, Python.Tree.kind, Python.Tree.label]
  cases made with
  | other unquoted => simp [Node.isComment, unquoted.2]
  | _ kind => simp [Node.isComment, kind]

theorem find_ofKept (parsed : Parsed) (trees : List Python.Tree) :
    (Node.ofKept parsed trees).find? (fun node => !node.isComment) =
      (trees.find? fun child => Node.isKept child && !child.isComment).map
        (Node.ofTree parsed) := by
  induction trees with
  | nil => rfl
  | cons tree rest ih =>
    rw [Node.ofKept, List.find?_cons]
    cases kept : Node.isKept tree with
    | false => simpa using ih
    | true =>
      rw [if_pos rfl, List.find?_cons, isComment_ofTree]
      cases tree.isComment with
      | true => exact ih
      | false => rfl

/-- The statements of a source are those below its tree. -/
theorem statementsOf_lower {parsed : Parsed} (grammatical : parsed.Grammatical) :
    statementsOf (Node.lower parsed) = some (Node.ofKept parsed parsed.tree.children) := by
  obtain ⟨label, children, stop, tree, kind, -, -⟩ := grammatical
  rw [Node.lower, tree, Node.ofTree, kind]
  rfl

/-- The call is looked for in the first statement of the text. -/
theorem call_eq {parse : Text → Parsed} (lawful : Python.Lawful parse)
    (name : Text.isName keyword = true)
    (label : identifier = [] ∨ Text.isName identifier = true) (text : Text)
    (sound : (parse (Text.dedent text)).hasErrors = false) :
    call text keyword identifier parse =
      match first? (parse (Text.dedent text)) with
      | none => .error .notFound
      | some tree => onlyMatch (sought keyword identifier) identifier
          (Node.ofTree (parse (Text.dedent text)) tree) := by
  rw [call, singleCall_eq name label]
  simp only [bind, Except.bind, Python.Parsed.errors_of_sound sound, List.head?_nil,
    statementsOf_lower (lawful.grammatical _ sound), Option.bind, find_ofKept, first?]
  cases (parse (Text.dedent text)).tree.children.find? fun child =>
    Node.isKept child && !child.isComment <;> rfl

end Extract

namespace Definition

/-- The text is what stands before the offset on its line. -/
def OnLine (source : Text) (offset : Nat) (lead : Text) : Prop :=
  ∃ before after, source = before ++ lead ++ after ∧ Text.byteLength (before ++ lead) = offset ∧
    '\n' ∉ lead ∧ (before = [] ∨ before.getLast? = some '\n')

section Cut

variable {source body : Text} {start stop line : Nat}

/-- A text is cut after its last line feed. -/
private theorem last_line (text : Text) : ∃ before lead, text = before ++ lead ∧ '\n' ∉ lead ∧
    (before = [] ∨ before.getLast? = some '\n') ∧
    (text.reverse.takeWhile fun c => c != '\n') = lead.reverse := by
  have whole := List.takeWhile_append_dropWhile (p := fun c => c != '\n') (l := text.reverse)
  refine ⟨(text.reverse.dropWhile fun c => c != '\n').reverse,
    (text.reverse.takeWhile fun c => c != '\n').reverse, ?_, ?_, ?_, by rw [List.reverse_reverse]⟩
  · rw [← List.reverse_append, whole, List.reverse_reverse]
  · intro mem
    have other := List.all_eq_true.mp List.all_takeWhile _ (List.mem_reverse.mp mem)
    simp at other
  · rw [List.getLast?_reverse]
    have stop := List.head?_dropWhile_not (fun c => c != '\n') text.reverse
    cases rest : text.reverse.dropWhile fun c => c != '\n' with
    | nil => exact .inl rfl
    | cons c more =>
      rw [rest] at stop
      exact .inr (by simpa using stop)

private theorem byteLength_reverse (text : Text) :
    Text.byteLength text.reverse = Text.byteLength text := by
  induction text with
  | nil => rfl
  | cons c text ih =>
    simp only [List.reverse_cons, Text.byteLength_append, Text.byteLength_cons, ih,
      Text.byteLength_nil]
    omega

/-- What stands between the start of the line and the offset is found. -/
theorem lineStart_found (covers : Text.Holds source start body stop) :
    ∃ lead, OnLine source start lead ∧
      Text.slice? source (lineStart source start) stop = some (lead ++ body) := by
  obtain ⟨front, after, rfl, size, total⟩ := covers
  obtain ⟨before, lead, rfl, free, starts, taken⟩ := last_line front
  have begins : lineStart (before ++ lead ++ body ++ after) start = Text.byteLength before := by
    rw [lineStart, ← size, List.append_assoc (before ++ lead), Text.splitAtByte_append]
    simp only [taken, byteLength_reverse, Text.byteLength_append]
    omega
  refine ⟨lead, ⟨before, body ++ after, by simp, size, free, starts⟩, ?_⟩
  rw [begins, Text.slice?_iff]
  exact ⟨before, after, by simp, rfl, by rw [← total]; simp⟩

/-- The definition at a line is the text of the innermost statement there, after all that stands
before the statement on its first line. -/
theorem inSource_eq {statement : Python.Tree} {parse : Text → Parsed}
    (found : innermost? (line - 1) (parse source).tree.children = some statement)
    (covers : Text.Holds source statement.span.startByte body statement.span.endByte) :
    ∃ lead, OnLine source statement.span.startByte lead ∧
      inSource source line parse = .ok (lead ++ body) := by
  obtain ⟨lead, before, cut⟩ := lineStart_found covers
  refine ⟨lead, before, ?_⟩
  simp only [inSource, found, cut]

end Cut

/-- The answer is that of a search for the shape in the node: the only node of the shape, wherever it
stands, or else whether there is none or several. -/
def Answers (answer : Except Failure Node) (pattern : Pattern) (identifier : Text) (node : Node) :
    Prop :=
  match pattern.findIn node with
  | [] => answer = .error .notFound
  | [single] => ∃ found, answer = .ok found ∧ found.bare = single.bare
  | _ => answer = .error (.ambiguous identifier)

/-- The shape is found as often in both nodes, up to several times, and what is found once in both is
the same wherever it stands. -/
def FoundAlike (pattern : Pattern) (left right : Node) : Prop :=
  match pattern.findIn left, pattern.findIn right with
  | [], [] => True
  | [one], [other] => one.bare = other.bare
  | _ :: _ :: _, _ :: _ :: _ => True
  | _, _ => False

theorem answers_iff (pattern : Pattern) (identifier : Text) (left right : Node) :
    Answers (Extract.onlyMatch pattern identifier left) pattern identifier right ↔
      FoundAlike pattern left right := by
  rw [Answers, FoundAlike, Extract.onlyMatch]
  rcases pattern.findIn left with _ | ⟨one, _ | ⟨two, rest⟩⟩ <;>
    rcases pattern.findIn right with _ | ⟨other, _ | ⟨second, more⟩⟩ <;> simp

/-- In nodes that are the same wherever they stand the same is found. -/
theorem found_alike (pattern : Pattern) {left right : Node} (same : left.bare = right.bare) :
    FoundAlike pattern left right := by
  have finds : (pattern.findIn left).map Node.bare = (pattern.findIn right).map Node.bare := by
    rw [← Pattern.findIn_bare, same, Pattern.findIn_bare]
  rw [FoundAlike]
  generalize pattern.findIn left = found at finds
  generalize pattern.findIn right = other at finds
  rcases found with _ | ⟨one, _ | ⟨two, rest⟩⟩ <;>
    rcases other with _ | ⟨twin, _ | ⟨second, more⟩⟩ <;> simp_all

section Call

variable {files : FileSystem} {path source body keyword identifier : Text} {bytes : Bytes}
  {line : Nat} {statement : Python.Tree} {parse : Text → Parsed}

/-- The call is looked for in the text of the definition. -/
theorem callInFile_eq (text : Text) (read : files.read path = .ok bytes)
    (decoded : Utf8.decode bytes = .ok source) (cut : inSource source line parse = .ok text) :
    callInFile files path line keyword identifier parse =
      Extract.call text keyword identifier parse := by
  simp only [callInFile, inFile, read, decoded, cut, bind, Except.bind]

/-- A text that cannot be read has no answer of a search. -/
theorem call_of_broken {text : Text} (name : Text.isName keyword = true)
    (label : identifier = [] ∨ Text.isName identifier = true)
    (broken : (parse (Text.dedent text)).hasErrors = true) (node : Node) :
    ¬ Answers (Extract.call text keyword identifier parse) (Extract.sought keyword identifier)
      identifier node := by
  obtain ⟨reason, failed⟩ := (Extract.call_unparsable_iff text keyword identifier).mpr
    ⟨⟨_, Extract.singleCall_eq name label⟩, broken⟩
  rw [Answers, failed]
  split <;> simp

/-- What is answered for a line, whatever the parser, as long as it is lawful. -/
theorem call_answers (lawful : Python.Lawful parse) (read : files.read path = .ok bytes)
    (decoded : Utf8.decode bytes = .ok source)
    (found : innermost? (line - 1) (parse source).tree.children = some statement)
    (covers : Text.Holds source statement.span.startByte body statement.span.endByte)
    (name : Text.isName keyword = true)
    (label : identifier = [] ∨ Text.isName identifier = true) :
    ∃ lead, OnLine source statement.span.startByte lead ∧
      inFile files path line parse = .ok (lead ++ body) ∧
      let parsed := parse source
      let again := parse (Text.dedent (lead ++ body))
      let answer := callInFile files path line keyword identifier parse
      let shape := Extract.sought keyword identifier
      (Answers answer shape identifier (Node.ofTree parsed statement) ↔
        again.hasErrors = false ∧ match Extract.first? again with
          | none => shape.findIn (Node.ofTree parsed statement) = []
          | some first =>
            FoundAlike shape (Node.ofTree again first) (Node.ofTree parsed statement)) ∧
      ∀ first, again.hasErrors = false → Extract.first? again = some first →
        Python.Tree.alike parsed again statement first = true →
        Answers answer shape identifier (Node.ofTree parsed statement) := by
  obtain ⟨lead, before, cut⟩ := inSource_eq found covers
  refine ⟨lead, before, by simp only [inFile, read, decoded, cut], ?_⟩
  intro parsed again answer shape
  have given : answer = Extract.call (lead ++ body) keyword identifier parse :=
    callInFile_eq (lead ++ body) read decoded cut
  have exactly : Answers answer shape identifier (Node.ofTree parsed statement) ↔
      again.hasErrors = false ∧ match Extract.first? again with
        | none => shape.findIn (Node.ofTree parsed statement) = []
        | some first =>
          FoundAlike shape (Node.ofTree again first) (Node.ofTree parsed statement) := by
    rw [given]
    cases sound : again.hasErrors with
    | true => simpa using call_of_broken name label sound _
    | false =>
      rw [Extract.call_eq lawful name label _ sound]
      cases Extract.first? again with
      | none =>
        rw [Answers]
        rcases shape.findIn (Node.ofTree parsed statement) with _ | ⟨one, _ | ⟨two, rest⟩⟩ <;> simp
      | some first => simpa using answers_iff shape identifier _ _
  refine ⟨exactly, fun first sound is same => exactly.mpr ⟨sound, ?_⟩⟩
  rw [is]
  exact found_alike shape (Node.ofTree_bare statement first same)

/-- The call at a line is that of a search in the innermost statement there, exactly if the text cut
out for the statement, which starts with all that stands before it on its line, can be read and its
first statement has as many such calls and, if it is one, the same. That is so for all keywords and
names if the statement is read again, wherever it then stands. -/
theorem call_in_file_answers (read : files.read path = .ok bytes)
    (decoded : Utf8.decode bytes = .ok source)
    (found : innermost? (line - 1) (Python.parse source).tree.children = some statement)
    (covers : Text.Holds source statement.span.startByte body statement.span.endByte)
    (name : Text.isName keyword = true)
    (label : identifier = [] ∨ Text.isName identifier = true) :
    ∃ lead, OnLine source statement.span.startByte lead ∧
      inFile files path line = .ok (lead ++ body) ∧
      let parsed := Python.parse source
      let again := Python.parse (Text.dedent (lead ++ body))
      let answer := callInFile files path line keyword identifier
      let shape := Extract.sought keyword identifier
      (Answers answer shape identifier (Node.ofTree parsed statement) ↔
        again.hasErrors = false ∧ match Extract.first? again with
          | none => shape.findIn (Node.ofTree parsed statement) = []
          | some first =>
            FoundAlike shape (Node.ofTree again first) (Node.ofTree parsed statement)) ∧
      ∀ first, again.hasErrors = false → Extract.first? again = some first →
        Python.Tree.alike parsed again statement first = true →
        Answers answer shape identifier (Node.ofTree parsed statement) :=
  call_answers Python.parse_lawful read decoded found covers name label

/-- A source in a file of its own. -/
private def alone (source : String) : FileSystem where
  entries := [(["module.py".toList], .file (Utf8.encode source.toList) false)]

/-- A statement in a block is cut out with its indentation and read again. -/
theorem call_in_file_answers_indented :
    let source := "if c:\n    x = def_.a(lambda: [1])\n"
    let parsed := Python.parse source.toList
    let shape := Extract.sought "def_".toList "a".toList
    ∃ statement, innermost? 1 parsed.tree.children = some statement ∧
      (shape.findIn (Node.ofTree parsed statement)).length = 1 ∧
      Answers (callInFile (alone source) "module.py".toList 2 "def_".toList "a".toList) shape
        "a".toList (Node.ofTree parsed statement) := by
  intro source parsed shape
  let text := "    x = def_.a(lambda: [1])".toList
  let again := Python.parse (Text.dedent text)
  have facts : (innermost? 1 parsed.tree.children).map (fun statement =>
      (Text.slice? source.toList statement.span.startByte statement.span.endByte,
        (shape.findIn (Node.ofTree parsed statement)).length,
        (Extract.first? again).map (Python.Tree.alike parsed again statement))) =
      some (some "x = def_.a(lambda: [1])".toList, 1, some true) := by decide +kernel
  obtain ⟨statement, found, facts⟩ := Option.map_eq_some_iff.mp facts
  obtain ⟨covers, single, same⟩ : _ ∧ _ ∧ _ := by simpa only [Prod.mk.injEq] using facts
  obtain ⟨first, is, alike⟩ := Option.map_eq_some_iff.mp same
  have cut : inFile (alone source) "module.py".toList 2 = .ok text :=
    Reformat.ok_of_to_option (by decide +kernel)
  have read : (alone source).read "module.py".toList = .ok (Utf8.encode source.toList) :=
    Reformat.ok_of_to_option (by decide +kernel)
  have decoded : Utf8.decode (Utf8.encode source.toList) = .ok source.toList :=
    Reformat.ok_of_to_option (by decide +kernel)
  obtain ⟨lead, -, found_there, -, reads⟩ := @call_in_file_answers (alone source) "module.py".toList
    source.toList "x = def_.a(lambda: [1])".toList "def_".toList "a".toList _ 2 statement read
    decoded found (Text.slice?_iff.mp covers) (by decide +kernel) (.inr (by decide +kernel))
  rw [cut] at found_there
  rw [← Except.ok.inj found_there] at reads
  exact ⟨statement, found, single, reads first (by decide +kernel) is alike⟩

/-- A clause on one line is cut out with the word before it, and that cannot be read. -/
theorem call_in_file_astray :
    let source := "if x: y = def_(lambda: [a])\nelse: z = def_(lambda: [b])\n"
    let parsed := Python.parse source.toList
    let shape := Extract.sought "def_".toList []
    parsed.hasErrors = false ∧ ∃ statement, innermost? 1 parsed.tree.children = some statement ∧
      (shape.findIn (Node.ofTree parsed statement)).length = 1 ∧
      ¬ Answers (callInFile (alone source) "module.py".toList 2 "def_".toList []) shape []
        (Node.ofTree parsed statement) := by
  intro source parsed shape
  have facts : parsed.hasErrors = false ∧ (innermost? 1 parsed.tree.children).map (fun statement =>
      (shape.findIn (Node.ofTree parsed statement)).length) = some 1 := by decide +kernel
  obtain ⟨sound, once⟩ := facts
  obtain ⟨statement, found, single⟩ := Option.map_eq_some_iff.mp once
  refine ⟨sound, statement, found, single, ?_⟩
  have failed : (callInFile (alone source) "module.py".toList 2 "def_".toList []).toOption.isSome =
      false := by decide +kernel
  obtain ⟨call, calls⟩ := List.length_eq_one_iff.mp single
  rw [Answers, calls]
  rintro ⟨node, is, -⟩
  rw [is] at failed
  cases failed

end Call

end Definition

end LambdaLayout
