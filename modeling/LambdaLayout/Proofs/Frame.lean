import LambdaLayout.Proofs.FixedPoint
import LambdaLayout.Proofs.Outermost
import LambdaLayout.Proofs.Splicing

/-!
What a pass leaves alone. The result of a pass is the source with one text in the place of each
outermost extended lambda, and every byte outside of these stands as it stood. A call that has no
layout, or stands in it already, keeps its text, and the others are counted as changes.
-/

namespace LambdaLayout

open LambdaLayout.Python (Parsed)
open LambdaLayout.Text (Boundary Holds byteLength)

namespace Layout

/-- What stands in the place of a call after a pass: its layout, or its own text if there is none.
-/
def standIn (layout : Layout) (call : Node) : Text :=
  match layout.replacement call with
  | .ok text => text
  | .error _ => (Text.slice? layout.source call.span.startByte call.span.endByte).getD []

/-- Says that a call has another text after a pass. -/
def isChanged (layout : Layout) (call : Node) : Bool :=
  Text.slice? layout.source call.span.startByte call.span.endByte != some (layout.standIn call)

end Layout

namespace Reformat

section Edits

variable {layout : Layout} {call : Node} {calls : List Node}

/-- A call is edited exactly if its text changes. -/
theorem editFor_eq (stands : ∃ old, Holds layout.source call.span.startByte old call.span.endByte) :
    editFor layout call =
      if layout.isChanged call then some (Layout.editOf layout.standIn call) else none := by
  obtain ⟨old, held⟩ := stands
  have own := Text.slice?_iff.mpr held
  rw [editFor, Layout.isChanged, Layout.editOf]
  unfold Layout.standIn
  cases layout.replacement call with
  | error refusal => simp [own]
  | ok text =>
    by_cases same : old = text
    · simp [own, same]
    · simp [own, same]

/-- The calls that are not edited may be counted among the edits, with their own text. -/
private theorem spliced_all {start stop : Nat} {text : Text}
    (stands : ∀ call ∈ calls, ∃ old,
      Holds layout.source call.span.startByte old call.span.endByte)
    (after : ∀ call ∈ calls, start ≤ call.span.startByte)
    (inside : ∀ call ∈ calls, call.span.endByte ≤ stop)
    (apart : calls.Pairwise fun left right => left.span.endByte ≤ right.span.startByte)
    (spliced : Spliced layout.source stop start (calls.filterMap (editFor layout)) text) :
    Spliced layout.source stop start (calls.map (Layout.editOf layout.standIn)) text := by
  induction calls generalizing start text with
  | nil => exact spliced
  | cons call rest ih =>
    obtain ⟨before, apart⟩ := List.pairwise_cons.mp apart
    have here := stands call List.mem_cons_self
    have later := fun other mem => stands other (List.mem_cons_of_mem call mem)
    have later_inside := fun other mem => inside other (List.mem_cons_of_mem call mem)
    have edited := editFor_eq here
    cases changed : layout.isChanged call with
    | true =>
      rw [changed, if_pos rfl] at edited
      rw [List.filterMap_cons_some edited] at spliced
      cases spliced with
      | edit kept replaced spliced =>
        exact .edit kept replaced (ih later before later_inside apart spliced)
    | false =>
      rw [changed, if_neg (by decide)] at edited
      rw [List.filterMap_cons_none edited] at spliced
      obtain ⟨old, held⟩ := here
      have same : layout.standIn call = old := by
        rw [Layout.isChanged, Text.slice?_iff.mpr held] at changed
        exact (Option.some.inj (by simpa using changed)).symm
      have first := after call List.mem_cons_self
      have starts : ∀ edit ∈ rest.filterMap (editFor layout), call.span.endByte ≤ edit.start := by
        intro edit mem
        obtain ⟨other, among, made⟩ := List.mem_filterMap.mp mem
        rw [editFor_eq (later other among)] at made
        split at made
        · cases made
          exact before other among
        · cases made
      obtain ⟨gap, tail, whole, gap_held, tail_spliced⟩ := spliced.cut held.boundaries.2
        (Nat.le_trans first held.ordered) (inside call List.mem_cons_self) starts
      obtain ⟨front, own, split, front_held, own_held⟩ :=
        gap_held.cut held.boundaries.1 first held.ordered
      rw [whole, split, own_held.unique held, ← same]
      exact .edit front_held held (ih later before later_inside apart tail_spliced)

end Edits

/-- The confirmed calls of a source, in the order in which they are found. Without candidates there
are none, and the patterns are not read. -/
def Confirms (keyword : Text) (parsed : Parsed) (calls : List Node) : Prop :=
  ∃ regions, Region.scan (Token.tokenize parsed) keyword = .ok regions ∧
    if regions = [] then calls = []
    else confirmedCalls keyword (Node.lower parsed) regions = .ok calls

/-- For a valid keyword the calls that are found are the confirmed ones. -/
theorem confirms_found {keyword : Text} (name : Text.isName keyword = true) (source : Text) :
    Confirms keyword (Python.parse source) (found keyword source) := by
  refine ⟨_, Region.scan_is_run _ _, ?_⟩
  split
  · next none =>
    rw [found, none]
    refine List.filter_eq_nil_iff.mpr fun call _ => ?_
    rw [isConfirmed]
    split
    · decide
    · simp
  · exact confirmedCalls_eq name _ _

section Frame

variable {keyword : Text} {parsed : Parsed} {calls : List Node} {reformat : Reformat}
  {parse : Text → Parsed}

theorem Confirms.is_lambda {call : Node} (grammatical : parsed.Grammatical)
    (sound : parsed.hasErrors = false) (confirms : Confirms keyword parsed calls)
    (mem : call ∈ calls) : Node.IsLambda parsed call := by
  obtain ⟨regions, scanned, found⟩ := confirms
  split at found
  · subst found
    cases mem
  · next some =>
    exact confirmed_is_lambda grammatical sound (Region.name_of_found scanned some) found mem

/-- The confirmed calls of a source make a layout of it. -/
theorem Confirms.layout (grammatical : parsed.Grammatical) (sound : parsed.hasErrors = false)
    (confirms : Confirms keyword parsed calls) :
    Layout.Of parsed (Layout.make parsed.source (Token.tokenize parsed) calls) where
  source := rfl
  tokens := rfl
  sorted := Layout.make_sorted
  lambdas := fun _ mem => confirms.is_lambda grammatical sound (Layout.mem_of_make mem)

/-- A pass that ends has read the confirmed calls, and made their edits unless there are none. -/
theorem of_parsed_edits (sound : parsed.hasErrors = false)
    (ran : ofParsed keyword parsed parse = .ok reformat) :
    ∃ calls, Confirms keyword parsed calls ∧
      let edits := edits (Layout.make parsed.source (Token.tokenize parsed) calls)
      (edits = [] ∧ reformat = unchanged parsed.source) ∨
        applied parsed.source (Token.tokenize parsed) edits parse = .ok reformat := by
  have scanned := Region.scan_is_run (Token.tokenize parsed) keyword
  generalize (Region.run (Region.begin keyword) (Token.tokenize parsed)).1 = regions at scanned
  by_cases none : regions = []
  · subst none
    rw [ofParsed, sound, if_neg (by decide)] at ran
    simp only [scanned, bind, Except.bind] at ran
    have nothing : edits (Layout.make parsed.source (Token.tokenize parsed) []) = [] := by
      simp [edits, Layout.make, Layout.outermostCalls, Layout.dropRepeats, Layout.outermostFrom]
    exact ⟨[], ⟨[], scanned, by rw [if_pos rfl]⟩, .inl ⟨nothing, (Except.ok.inj ran).symm⟩⟩
  · have confirmed :=
      confirmedCalls_eq (Region.name_of_found scanned none) (Node.lower parsed) regions
    refine ⟨_, ⟨regions, scanned, by rw [if_neg none]; exact confirmed⟩, ?_⟩
    rw [of_parsed_eq sound scanned none] at ran
    simp only at ran
    split at ran
    · next empty => exact .inl ⟨List.isEmpty_iff.mp empty, (Except.ok.inj ran).symm⟩
    · exact .inr ran

theorem applied_edits {source : Text} {tokens : List Token} {edits : List Edit}
    (ran : applied source tokens edits parse = .ok reformat) :
    Edit.applyAll source edits = .ok reformat.output ∧ reformat.changes = edits.length := by
  refine ⟨?_, (applied_ok ran).2⟩
  rw [applied] at ran
  split at ran
  · cases ran
  · next made =>
    split at ran
    · cases ran
    · cases ran
      exact made

/-- The outermost calls of a source are pieces of it. -/
private theorem outermost_stands {layout : Layout} (of : Layout.Of parsed layout) {call : Node}
    (found : call ∈ layout.outermostCalls ⟨0, byteLength layout.source⟩ false) :
    ∃ old, Holds layout.source call.span.startByte old call.span.endByte := by
  rw [of.source]
  exact of.holds (Layout.mem_outermostFrom found).1

/-- The edits of a layout come in order and lie apart, each in the place of a piece of the source. -/
theorem edits_placed {layout : Layout} (grammatical : parsed.Grammatical)
    (of : Layout.Of parsed layout) :
    (∀ edit ∈ edits layout, edit.start < edit.stop ∧
      ∃ old, Holds layout.source edit.start old edit.stop) ∧
      (edits layout).Pairwise fun left right => left.stop ≤ right.start := by
  -- An edit is made for some of the calls, each in the place of the call.
  have place : ∀ call edit, editFor layout call = some edit →
      edit.start = call.span.startByte ∧ edit.stop = call.span.endByte := by
    intro call edit made
    rw [editFor] at made
    split at made
    · cases made
    · split at made
      · cases made
      · cases made
        exact ⟨rfl, rfl⟩
  refine ⟨?_, ?_⟩
  · intro edit among
    obtain ⟨call, found, made⟩ := List.mem_filterMap.mp among
    rw [(place call edit made).1, (place call edit made).2]
    exact ⟨of.filled (Layout.mem_outermostFrom found).1, outermost_stands of found⟩
  · refine List.pairwise_filterMap.mpr
      ((Layout.outermost_apart (of.nests grammatical)).imp fun {left right} before => ?_)
    intro first one second two
    rw [(place left first one).2, (place right second two).1]
    exact before

/-- The edits of a layout are made, and nothing else is. Calls that keep their text may be counted
among the edits. -/
theorem edits_spliced {layout : Layout} {output : Text} (grammatical : parsed.Grammatical)
    (of : Layout.Of parsed layout)
    (made : Edit.applyAll layout.source (edits layout) = .ok output) :
    Spliced layout.source (byteLength layout.source) 0
      ((layout.outermostCalls ⟨0, byteLength layout.source⟩ false).map
        (Layout.editOf layout.standIn)) output := by
  obtain ⟨placed, apart⟩ := edits_placed grammatical of
  refine spliced_all (fun call found => outermost_stands of found) (fun _ _ => Nat.zero_le _) ?_
    (Layout.outermost_apart (of.nests grammatical))
    (Edit.applyAll_spliced (fun edit mem => (placed edit mem).1) ?_ apart made)
  · intro call found
    obtain ⟨old, held⟩ := outermost_stands of found
    exact held.bounded
  · intro edit mem
    obtain ⟨-, old, held⟩ := placed edit mem
    exact held.bounded

/-- The edits of a layout can all be made. -/
theorem edits_made {layout : Layout} (grammatical : parsed.Grammatical)
    (of : Layout.Of parsed layout) :
    ∃ output, Edit.applyAll layout.source (edits layout) = .ok output := by
  obtain ⟨placed, apart⟩ := edits_placed grammatical of
  exact Edit.applyAll_fits (fun edit mem => (placed edit mem).1)
    (fun edit mem => (placed edit mem).2) apart

/-- Every edit is counted. -/
theorem edits_length {layout : Layout} (of : Layout.Of parsed layout) :
    (edits layout).length =
      ((layout.outermostCalls ⟨0, byteLength layout.source⟩ false).filter
        layout.isChanged).length := by
  have stands : ∀ call ∈ layout.outermostCalls ⟨0, byteLength layout.source⟩ false, ∃ old,
      Holds layout.source call.span.startByte old call.span.endByte :=
    fun call found => outermost_stands of found
  rw [edits]
  generalize layout.outermostCalls ⟨0, byteLength layout.source⟩ false = outer at stands
  induction outer with
  | nil => rfl
  | cons call rest ih =>
    have later := ih fun other mem => stands other (List.mem_cons_of_mem _ mem)
    have here := editFor_eq (stands call List.mem_cons_self)
    cases changed : layout.isChanged call with
    | true =>
      rw [changed, if_pos rfl] at here
      rw [List.filterMap_cons_some here, List.filter_cons_of_pos changed, List.length_cons,
        List.length_cons, later]
    | false =>
      rw [changed, if_neg (by decide)] at here
      rw [List.filterMap_cons_none here, List.filter_cons_of_neg (by simp [changed]), later]

/-- A pass that ends has put one text in the place of each outermost confirmed call, and has counted
those whose text becomes another one. -/
theorem of_parsed_spliced (grammatical : parsed.Grammatical) (sound : parsed.hasErrors = false)
    (ran : ofParsed keyword parsed parse = .ok reformat) :
    ∃ calls, Confirms keyword parsed calls ∧
      let layout := Layout.make parsed.source (Token.tokenize parsed) calls
      let outer := layout.outermostCalls ⟨0, byteLength parsed.source⟩ false
      Spliced parsed.source (byteLength parsed.source) 0 (outer.map (Layout.editOf layout.standIn))
          reformat.output ∧
        reformat.changes = (outer.filter layout.isChanged).length := by
  obtain ⟨calls, confirms, outcome⟩ := of_parsed_edits sound ran
  have of := confirms.layout grammatical sound
  refine ⟨calls, confirms, ?_⟩
  intro layout outer
  have made : Edit.applyAll parsed.source (edits layout) = .ok reformat.output ∧
      reformat.changes = (edits layout).length := by
    rcases outcome with ⟨none, same⟩ | made
    · rw [show edits layout = [] from none, same]
      exact ⟨by simp [Edit.applyAll, Edit.applyInOrder]; rfl, rfl⟩
    · exact applied_edits made
  exact ⟨edits_spliced grammatical of made.1, made.2.trans (edits_length of)⟩

/-- What a pass does with a source that follows the grammar, whatever parser reads the result. -/
theorem of_parsed_frame (grammatical : parsed.Grammatical) (sound : parsed.hasErrors = false)
    (ran : ofParsed keyword parsed parse = .ok reformat) :
    ∃ calls, Confirms keyword parsed calls ∧
      let source := parsed.source
      let layout := Layout.make source (Token.tokenize parsed) calls
      let outer := layout.outermostCalls ⟨0, byteLength source⟩ false
      (∀ call ∈ outer, call ∈ calls) ∧
        (∀ call ∈ calls, ∃ around ∈ outer, around.span.contains call.span = true) ∧
        (outer.Pairwise fun left right => left.span.endByte ≤ right.span.startByte) ∧
        Spliced source (byteLength source) 0 (outer.map (Layout.editOf layout.standIn))
          reformat.output ∧
        reformat.changes = (outer.filter layout.isChanged).length := by
  obtain ⟨calls, confirms, spliced, counted⟩ := of_parsed_spliced grammatical sound ran
  have of := confirms.layout grammatical sound
  refine ⟨calls, confirms, fun call mem => Layout.mem_of_make (Layout.mem_outermostFrom mem).1, ?_,
    Layout.outermost_apart (of.nests grammatical), spliced, counted⟩
  intro call mem
  obtain ⟨other, kept, same⟩ :=
    @Layout.mem_make parsed.source (Token.tokenize parsed) calls call mem
  rw [← same]
  refine Layout.outermost_covers kept ?_
  obtain ⟨old, held⟩ := of.holds kept
  have bounded : other.span.endByte ≤ byteLength parsed.source := held.bounded
  simp [Layout.isWithin, Extent.contains, Span.extent, bounded]

/-- A pass over a source without syntax errors replaces the outermost confirmed calls, which lie
apart and of which every confirmed call has one around it, each by one text, and leaves all else as
it is. It counts those whose text becomes another one. -/
theorem of_source_frame (keyword source : Text)
    (sound : (Python.parse source).hasErrors = false)
    (ran : ofSource keyword source = .ok reformat) :
    ∃ calls, Confirms keyword (Python.parse source) calls ∧
      let layout := Layout.make source (Token.tokenize (Python.parse source)) calls
      let outer := layout.outermostCalls ⟨0, byteLength source⟩ false
      (∀ call ∈ outer, call ∈ calls) ∧
        (∀ call ∈ calls, ∃ around ∈ outer, around.span.contains call.span = true) ∧
        (outer.Pairwise fun left right => left.span.endByte ≤ right.span.startByte) ∧
        Spliced source (byteLength source) 0 (outer.map (Layout.editOf layout.standIn))
          reformat.output ∧
        reformat.changes = (outer.filter layout.isChanged).length :=
  of_parsed_frame (Python.parse_grammatical sound) sound ran

/-- The theorem applies to a source with one call, which is laid out. -/
theorem of_source_frame_comma :
    ∃ calls, Confirms defaultKeyword (Python.parse "f = def_(lambda: [a,])\n".toList) calls ∧
      let source := "f = def_(lambda: [a,])\n".toList
      let layout := Layout.make source (Token.tokenize (Python.parse source)) calls
      let outer := layout.outermostCalls ⟨0, byteLength source⟩ false
      Spliced source (byteLength source) 0 (outer.map (Layout.editOf layout.standIn))
          "f = def_(lambda: [\n    a\n])\n".toList ∧
        (outer.filter layout.isChanged).length = 1 := by
  have ran : ofSource defaultKeyword "f = def_(lambda: [a,])\n".toList =
      .ok ⟨"f = def_(lambda: [\n    a\n])\n".toList, 1⟩ := ok_of_to_option (by decide +kernel)
  obtain ⟨calls, confirms, -, -, -, spliced, counted⟩ :=
    of_source_frame defaultKeyword _ (by decide +kernel) ran
  exact ⟨calls, confirms, spliced, counted.symm⟩

end Frame

end Reformat

end LambdaLayout
