import LambdaLayout.Proofs.LambdaTokens
import LambdaLayout.Proofs.ParseGrammatical
import LambdaLayout.Proofs.PatternRead
import LambdaLayout.Reformat

/-!
Which extended lambdas of a source are found. The search among the tokens confirms a call of the
keyword exactly in two cases: it is free to begin a candidate when it reaches the callee, and the
label under the keyword counts as a name; or a candidate that began earlier is completed past the
callee, and then it covers the whole call. A call that is reached while another candidate is followed
that comes to nothing is missed.
-/

namespace LambdaLayout

open LambdaLayout.Python (Parsed Tree)

namespace Region

/-- Where the search stands when it reaches an offset. -/
def reaching (keyword : Text) (tokens : List Token) (offset : Nat) : Scan :=
  (run (begin keyword) (tokens.filter fun token => token.span.startByte < offset)).2

end Region

namespace Node

/-- The node matches a call of the keyword, or of a label under it, with one argument. -/
def Calls (keyword : Text) (node : Node) : Prop :=
  ∃ pattern, (Pattern.ofText (keyword ++ "(?)".toList) = .ok pattern ∨
    Pattern.ofText (keyword ++ ".?(?)".toList) = .ok pattern) ∧ pattern.fits node = true

section

variable {keyword : Text} {node : Node} {parts : LambdaParts}

theorem callee_of_calls (name : Text.isName keyword = true) (calls : Calls keyword node)
    (shape : LambdaParts.ofNode? node = some parts) : IsCallee keyword parts.function := by
  obtain ⟨pattern, written, fits⟩ := calls
  obtain ⟨span, own, is_call⟩ := parts_shape shape
  rw [is_call] at fits
  rw [Pattern.ofText_bare name, Pattern.ofText_labelled name] at written
  generalize parts.function = function at fits
  rcases written with written | written <;> cases written <;>
    rw [Pattern.fits, Bool.and_eq_true] at fits
  · have called := fits.1
    cases function <;> simp [Pattern.fits] at called
    subst called
    exact .bare
  · have called := fits.1
    cases function with
    | access _ object _ _ =>
      cases object <;> simp [Pattern.fits] at called
      subst called
      exact .labelled
    | _ => simp [Pattern.fits] at called

end

end Node

namespace Reformat

/-- The calls below a node that match and lie in a candidate, those of the keyword alone first. -/
def callsIn (keyword : Text) (root : Node) (regions : List Region) : List Node :=
  ((Pattern.callWith (.name keyword) [.any]).findIn root ++
    (Pattern.callWith (.access (.name keyword) none) [.any]).findIn root).filter
      (isConfirmed regions)

/-- For a valid keyword the patterns can be read. -/
theorem confirmedCalls_eq {keyword : Text} (name : Text.isName keyword = true) (root : Node)
    (regions : List Region) :
    confirmedCalls keyword root regions = .ok (callsIn keyword root regions) := by
  rw [confirmedCalls, Pattern.ofText_bare name, Pattern.ofText_labelled name]
  rfl

/-- The confirmed calls are those that match and lie in a candidate. -/
theorem mem_callsIn {keyword : Text} (name : Text.isName keyword = true) {root call : Node}
    {regions : List Region} :
    call ∈ callsIn keyword root regions ↔
      call ∈ root.preorder ∧ call.Calls keyword ∧ isConfirmed regions call = true := by
  let bare : Pattern := .callWith (.name keyword) [.any]
  let labelled : Pattern := .callWith (.access (.name keyword) none) [.any]
  have calls : call.Calls keyword ↔ bare.fits call = true ∨ labelled.fits call = true := by
    rw [Node.Calls, Pattern.ofText_bare name, Pattern.ofText_labelled name]
    constructor
    · rintro ⟨pattern, written | written, fits⟩ <;> cases written
      · exact .inl fits
      · exact .inr fits
    · rintro (fits | fits)
      · exact ⟨bare, .inl rfl, fits⟩
      · exact ⟨labelled, .inr rfl, fits⟩
  rw [calls, callsIn, List.mem_filter, List.mem_append, Pattern.findIn, Pattern.findIn,
    List.mem_filter, List.mem_filter, ← and_or_left, and_assoc]

section Search

variable {parsed : Parsed} {keyword : Text} {call : Node} {parts : LambdaParts}

/-- How the tokens of a call stand among those of its source. -/
structure Located (parsed : Parsed) (keyword : Text) (call : Node) (parts : LambdaParts) where
  before : List Token
  tokens : List Token
  after : List Token
  own : Region.CallTokens keyword
  whole : parsed.tree.tokens parsed.source = before ++ tokens ++ after
  read : (tokens.filter fun token => !token.isInsignificant) = own.list
  starts : own.word.span.startByte = parts.function.span.startByte
  opens : ∃ tree, Python.Tree.Placed parsed tree ∧ Node.ofTree parsed tree = call ∧
    ∃ sign, Node.opening? tree = some sign ∧ Python.Tree.IsSign "(" sign ∧
      own.openParen.span.startByte = sign.span.startByte
  body : own.openBracket.span.startByte = parts.body.startByte
  ends : call.span.endByte = own.closeParen.span.startByte + 1
  callable : own.Callable ↔ parts.function.isCallable = true
  ordered : (parsed.tree.tokens parsed.source).Pairwise
    fun left right => left.span.startByte < right.span.startByte

namespace Located

variable (located : Located parsed keyword call parts)

theorem mem_tokens {token : Token} (mem : token ∈ located.own.list) : token ∈ located.tokens := by
  rw [← located.read] at mem
  exact (List.mem_filter.mp mem).1

theorem earlier : ∀ token ∈ located.before, ∀ own ∈ located.own.list,
    token.span.startByte < own.span.startByte := by
  intro token mem own inside
  have ordered := located.ordered
  rw [located.whole, List.pairwise_append, List.pairwise_append] at ordered
  exact ordered.1.2.2 token mem own (located.mem_tokens inside)

theorem later : ∀ token ∈ located.after, ∀ own ∈ located.own.list,
    own.span.startByte < token.span.startByte := by
  intro token mem own inside
  have ordered := located.ordered
  rw [located.whole, List.pairwise_append] at ordered
  exact ordered.2.2 own (List.mem_append_right _ (located.mem_tokens inside)) token mem

theorem inner : ∀ token ∈ located.own.list.tail,
    located.own.word.span.startByte < token.span.startByte := by
  have ordered := located.ordered
  rw [located.whole, List.pairwise_append, List.pairwise_append] at ordered
  have own := ordered.1.2.1.filter fun token => !token.isInsignificant
  rw [located.read] at own
  exact (List.pairwise_cons.mp own).1

theorem first_mem : located.own.word ∈ located.own.list := List.mem_cons_self

theorem last_mem : located.own.closeParen ∈ located.own.list := by
  simp [Region.CallTokens.list]

theorem from_first : ∀ token ∈ located.own.list,
    located.own.word.span.startByte ≤ token.span.startByte := by
  intro token mem
  rcases List.mem_cons.mp mem with rfl | later
  · exact Nat.le_refl _
  · exact Nat.le_of_lt (located.inner token later)

end Located

/-- Every extended lambda of a grammatical source is located. -/
theorem located_of_mem (grammatical : parsed.Grammatical) (sound : parsed.hasErrors = false)
    (name : Text.isName keyword = true) (mem : call ∈ (Node.lower parsed).preorder)
    (calls : call.Calls keyword) (shape : LambdaParts.ofNode? call = some parts) :
    Nonempty (Located parsed keyword call parts) := by
  rcases Node.stands_of_mem grammatical sound mem with whole | ⟨tree, placed, made⟩
  · obtain ⟨span, statements, module⟩ := Node.lower_is_module grammatical
    rw [whole, module] at shape
    cases shape
  · obtain ⟨own, read, starts, opens, body, ends, callable⟩ :=
      Node.call_tokens placed made.symm shape (Node.callee_of_calls name calls shape) name
    obtain ⟨left, right, first, -⟩ := placed.cuts
    let heard := fun leaves : List Tree =>
      (leaves.filter fun leaf => !leaf.isSilent).map (Tree.token parsed.source)
    have whole : parsed.tree.tokens parsed.source =
        heard left ++ tree.tokens parsed.source ++ heard right := by
      simp only [Tree.tokens, first.whole, List.filter_append, List.map_append, heard,
        List.append_assoc]
    exact ⟨⟨heard left, _, heard right, own, whole, read, starts, ⟨tree, placed, made.symm, opens⟩,
      body, ends, callable, Python.Tree.tokens_ordered grammatical⟩⟩

/-- The search over the tokens of a source is one over the tokens of its leaves. -/
private theorem run_tokenize (grammatical : parsed.Grammatical) (scan : Region.Scan) :
    Region.run scan (Token.tokenize parsed) =
      Region.run scan (parsed.tree.tokens parsed.source) := by
  rw [← Token.tokenize_solid grammatical, Region.run_solid]

/-- Up to the callee the search reads the tokens before the call. -/
private theorem reaching_call (grammatical : parsed.Grammatical)
    (located : Located parsed keyword call parts) :
    Region.reaching keyword (Token.tokenize parsed) parts.function.span.startByte =
      (Region.run (Region.begin keyword) located.before).2 := by
  let early := fun token : Token => decide (token.span.startByte < parts.function.span.startByte)
  have swap : ((((Token.tokenize parsed).filter early).filter fun token => !token.isBlank).map
      Token.unplaced) = (parsed.tree.tokens parsed.source).filter early := by
    rw [← Token.tokenize_solid grammatical, List.filter_map, List.filter_filter, List.filter_filter]
    congr 2
    funext token
    exact Bool.and_comm _ _
  have before : located.before.filter early = located.before :=
    List.filter_eq_self.mpr fun token mem => decide_eq_true (by
      rw [← located.starts]
      exact located.earlier token mem _ located.first_mem)
  have own : located.own.list.filter early = [] :=
    List.filter_eq_nil_iff.mpr fun token mem => by
      simp only [early, decide_eq_true_eq, Nat.not_lt, ← located.starts]
      exact located.from_first token mem
  have after : located.after.filter early = [] :=
    List.filter_eq_nil_iff.mpr fun token mem => by
      simp only [early, decide_eq_true_eq, Nat.not_lt, ← located.starts]
      exact Nat.le_of_lt (located.later token mem _ located.first_mem)
  have silent : ∀ scan, Region.run scan (located.tokens.filter early) = ([], scan) := by
    intro scan
    rw [← Region.run_significant, List.filter_filter]
    have none : (located.tokens.filter fun token => !token.isInsignificant && early token) = [] := by
      rw [← own, ← located.read, List.filter_filter]
      congr 1
      funext token
      exact Bool.and_comm _ _
    rw [none]
    rfl
  rw [Region.reaching, ← Region.run_solid, swap, located.whole, List.filter_append,
    List.filter_append, before, after, List.append_nil, Region.run_append, silent]

/-- The candidates of a source are those of a run over the tokens before, of and after the call. -/
theorem regions_around (grammatical : parsed.Grammatical)
    (located : Located parsed keyword call parts) {regions : List Region}
    (scanned : Region.scan (Token.tokenize parsed) keyword = .ok regions) :
    (Region.run (Region.begin keyword)
      (located.before ++ located.tokens ++ located.after)).1 = regions := by
  rw [Region.scan_is_run, run_tokenize grammatical, located.whole] at scanned
  exact Except.ok.inj scanned

/-- A candidate that begins at the callee is the one that the tokens of the call make, and there is
one exactly if the search is free when it reaches the callee and the label counts as a name. -/
theorem Located.begins_iff (grammatical : parsed.Grammatical)
    (located : Located parsed keyword call parts) {regions : List Region}
    (scanned : Region.scan (Token.tokenize parsed) keyword = .ok regions) (region : Region) :
    (region ∈ regions ∧ region.keywordStart = parts.function.span.startByte) ↔
      Region.Free (Region.reaching keyword (Token.tokenize parsed)
        parts.function.span.startByte) ∧ parts.function.isCallable = true ∧
        region = located.own.region := by
  rw [← regions_around grammatical located scanned, reaching_call grammatical located,
    ← located.callable, ← located.starts]
  exact Region.region_begins_iff located.read
    (fun token mem => located.earlier token mem _ located.first_mem) located.inner
    (fun token mem => located.later token mem _ located.first_mem)

/-- A call of the keyword is confirmed exactly if the search is free when it reaches the callee and
the label counts as a name, or an earlier candidate is completed past the callee. -/
theorem isConfirmed_iff (grammatical : parsed.Grammatical) (sound : parsed.hasErrors = false)
    (name : Text.isName keyword = true) (mem : call ∈ (Node.lower parsed).preorder)
    (calls : call.Calls keyword) (shape : LambdaParts.ofNode? call = some parts)
    {regions : List Region} (scanned : Region.scan (Token.tokenize parsed) keyword = .ok regions) :
    isConfirmed regions call = true ↔
      (Region.Free (Region.reaching keyword (Token.tokenize parsed)
          parts.function.span.startByte) ∧ parts.function.isCallable = true) ∨
        ∃ region ∈ regions, region.keywordStart < parts.function.span.startByte ∧
          parts.function.span.startByte < region.closeParen := by
  obtain ⟨located⟩ := located_of_mem grammatical sound name mem calls shape
  have starts := located.starts
  have ends := located.ends
  have same := regions_around grammatical located scanned
  have begins : (∃ region ∈ regions, region.keywordStart = parts.function.span.startByte) ↔
      Region.Free (Region.reaching keyword (Token.tokenize parsed)
        parts.function.span.startByte) ∧ parts.function.isCallable = true := by
    simp only [located.begins_iff grammatical scanned, exists_and_left, exists_eq, and_true]
  have closes : ∀ region ∈ regions,
      region.keywordStart < parts.function.span.startByte →
      parts.function.span.startByte < region.closeParen →
      located.own.closeParen.span.startByte ≤ region.closeParen := by
    intro region found
    rw [← same] at found
    rw [← starts]
    exact Region.region_closes_after located.read
      (fun token mem => located.earlier token mem _ located.first_mem) located.from_first
      (fun token mem => Nat.le_of_lt (located.later token mem _ located.last_mem)) found
  have wide : parts.function.span.startByte < located.own.closeParen.span.startByte := by
    rw [← starts]
    exact located.inner _ (by simp [Region.CallTokens.list])
  rw [isConfirmed, shape, ← begins]
  simp only [List.any_eq_true, Bool.or_eq_true, beq_iff_eq, Region.covers, Bool.and_eq_true,
    decide_eq_true_eq]
  constructor
  · rintro ⟨region, found, start | ⟨early, late⟩⟩
    · exact .inl ⟨region, found, start⟩
    · by_cases at_start : region.keywordStart = parts.function.span.startByte
      · exact .inl ⟨region, found, at_start⟩
      · exact .inr ⟨region, found, by omega, by omega⟩
  · rintro (⟨region, found, start⟩ | ⟨region, found, early, late⟩)
    · exact ⟨region, found, .inl start⟩
    · have reach := closes region found early late
      exact ⟨region, found, .inr ⟨Nat.le_of_lt early, by omega⟩⟩

/-- Which extended lambdas are confirmed, whatever parser gave the tree. -/
theorem mem_confirmed_iff {keyword : Text} {parsed : Parsed} (grammatical : parsed.Grammatical)
    (sound : parsed.hasErrors = false) (name : Text.isName keyword = true)
    (mem : call ∈ (Node.lower parsed).preorder) (calls : call.Calls keyword)
    (shape : LambdaParts.ofNode? call = some parts) :
    ∃ regions confirmed,
      Region.scan (Token.tokenize parsed) keyword = .ok regions ∧
      confirmedCalls keyword (Node.lower parsed) regions = .ok confirmed ∧
      (call ∈ confirmed ↔
        (Region.Free (Region.reaching keyword (Token.tokenize parsed)
            parts.function.span.startByte) ∧ parts.function.isCallable = true) ∨
          ∃ region ∈ regions, region.keywordStart < parts.function.span.startByte ∧
            parts.function.span.startByte < region.closeParen) := by
  have scanned := Region.scan_is_run (Token.tokenize parsed) keyword
  refine ⟨_, _, scanned, confirmedCalls_eq name _ _, ?_⟩
  rw [mem_callsIn name, ← isConfirmed_iff grammatical sound name mem calls shape scanned]
  exact ⟨fun confirmed => confirmed.2.2, fun confirmed => ⟨mem, calls, confirmed⟩⟩

/-- An extended lambda of a source without syntax errors is among the confirmed calls exactly if the
search is free when it reaches the callee and the label under the keyword counts as a name, or an
earlier candidate is completed past the callee. -/
theorem lambda_confirmed_iff (keyword source : Text)
    (sound : (Python.parse source).hasErrors = false) (name : Text.isName keyword = true)
    (mem : call ∈ (Node.lower (Python.parse source)).preorder) (calls : call.Calls keyword)
    (shape : LambdaParts.ofNode? call = some parts) :
    ∃ regions confirmed,
      Region.scan (Token.tokenize (Python.parse source)) keyword = .ok regions ∧
      confirmedCalls keyword (Node.lower (Python.parse source)) regions = .ok confirmed ∧
      (call ∈ confirmed ↔
        (Region.Free (Region.reaching keyword (Token.tokenize (Python.parse source))
            parts.function.span.startByte) ∧ parts.function.isCallable = true) ∨
          ∃ region ∈ regions, region.keywordStart < parts.function.span.startByte ∧
            parts.function.span.startByte < region.closeParen) :=
  mem_confirmed_iff (Python.parse_grammatical sound) sound name mem calls shape

theorem lambda_confirmed_plain :
    let parsed := Python.parse "f = def_(lambda: [a])\n".toList
    ∃ call ∈ (Node.lower parsed).preorder, ∃ parts, LambdaParts.ofNode? call = some parts ∧
      ∃ regions confirmed, Region.scan (Token.tokenize parsed) defaultKeyword = .ok regions ∧
        confirmedCalls defaultKeyword (Node.lower parsed) regions = .ok confirmed ∧
        (call ∈ confirmed ↔
          (Region.Free (Region.reaching defaultKeyword (Token.tokenize parsed)
              parts.function.span.startByte) ∧ parts.function.isCallable = true) ∨
            ∃ region ∈ regions, region.keywordStart < parts.function.span.startByte ∧
              parts.function.span.startByte < region.closeParen) := by
  have name : Text.isName defaultKeyword = true := by decide +kernel
  intro parsed
  have some : (Node.lower parsed).preorder.any (fun node =>
      (Pattern.callWith (.name defaultKeyword) [.any]).fits node &&
        (LambdaParts.ofNode? node).isSome) = true := by decide +kernel
  obtain ⟨call, mem, fits⟩ := List.any_eq_true.mp some
  rw [Bool.and_eq_true] at fits
  obtain ⟨parts, shape⟩ := Option.isSome_iff_exists.mp fits.2
  refine ⟨call, mem, parts, shape, ?_⟩
  exact lambda_confirmed_iff defaultKeyword _ (by decide +kernel) name mem
    ⟨_, .inl (Pattern.ofText_bare name), fits.1⟩ shape

/-- A call of the keyword in the only argument of another one is missed: the outer keyword begins a
candidate, and the inner one, which shows that it is none, is passed over with it. -/
theorem lambda_confirmed_misses :
    let parsed := Python.parse "f = def_(def_(lambda: [a, b]))\n".toList
    parsed.hasErrors = false ∧ Text.isName defaultKeyword = true ∧
      ∃ call ∈ (Node.lower parsed).preorder, call.Calls defaultKeyword ∧
        (LambdaParts.ofNode? call).isSome = true ∧
        ∃ regions confirmed, Region.scan (Token.tokenize parsed) defaultKeyword = .ok regions ∧
          confirmedCalls defaultKeyword (Node.lower parsed) regions = .ok confirmed ∧
          call ∉ confirmed := by
  have name : Text.isName defaultKeyword = true := by decide +kernel
  intro parsed
  refine ⟨by decide +kernel, name, ?_⟩
  have some : (Node.lower parsed).preorder.any (fun node =>
      (Pattern.callWith (.name defaultKeyword) [.any]).fits node &&
        (LambdaParts.ofNode? node).isSome) = true := by decide +kernel
  obtain ⟨call, mem, fits⟩ := List.any_eq_true.mp some
  rw [Bool.and_eq_true] at fits
  refine ⟨call, mem, ⟨_, .inl (Pattern.ofText_bare name), fits.1⟩, fits.2, _, _,
    Region.scan_is_run _ _, confirmedCalls_eq name _ _, ?_⟩
  have none : callsIn defaultKeyword (Node.lower parsed)
      (Region.run (Region.begin defaultKeyword) (Token.tokenize parsed)).1 = [] :=
    List.isEmpty_iff.mp (by decide +kernel)
  rw [none]
  exact List.not_mem_nil

end Search

end Reformat

end LambdaLayout
