import LambdaLayout.Proofs.FixedPoint
import LambdaLayout.Proofs.Outermost

/-!
The extents of candidates. A candidate counts brackets of any kind, the lambdas of a header and their
colons; the tree of the source knows what belongs together. Where a candidate begins at the callee of
a confirmed call, the two agree on the parenthesis that opens the call, on the list that is the body,
and on where the call ends.
-/

namespace LambdaLayout.Reformat

open LambdaLayout.Python (Parsed Tree)
open LambdaLayout.Python.Tree (IsSign Placed)

/-- The extents of the candidate are those of an extended lambda: of the tree it stands in the source
as, and of its parts. -/
structure Extends (region : Region) (tree : Tree) (parts : LambdaParts) : Prop where
  /-- The candidate opens with the parenthesis of the call. -/
  opens : ∃ sign, Node.opening? tree = some sign ∧ IsSign "(" sign ∧
    region.openParen = sign.span.startByte
  /-- Its body is the list of the lambda. -/
  body : region.bodyOpen = parts.body.startByte
  /-- Its closing parenthesis is where the call ends. -/
  closes : region.closeParen + 1 = tree.span.endByte

section

variable {keyword : Text} {parsed : Parsed} {regions : List Region} {confirmed : List Node}
  {call : Node} {parts : LambdaParts}

/-- The candidate that the tokens of a call make has the extents of the call. -/
theorem Located.region_extends (located : Located parsed keyword call parts) :
    ∃ tree, Placed parsed tree ∧ Node.ofTree parsed tree = call ∧
      Extends located.own.region tree parts := by
  obtain ⟨tree, placed, made, opens⟩ := located.opens
  have ends : call.span = tree.span := by rw [← made, Node.span_of_tree]
  exact ⟨tree, placed, made, opens, located.body, by rw [← ends, located.ends]; rfl⟩

/-- The extents of a candidate at a confirmed call, whatever parser gave the tree. -/
theorem confirmed_extends {keyword : Text} {parsed : Parsed} (grammatical : parsed.Grammatical)
    (sound : parsed.hasErrors = false)
    (scanned : Region.scan (Token.tokenize parsed) keyword = .ok regions)
    (checked : confirmedCalls keyword (Node.lower parsed) regions = .ok confirmed)
    (mem : call ∈ confirmed) :
    ∃ parts tree, LambdaParts.ofNode? call = some parts ∧ Placed parsed tree ∧
      Node.ofTree parsed tree = call ∧
      ∀ region ∈ regions, region.keywordStart = parts.function.span.startByte →
        Extends region tree parts := by
  have some : regions ≠ [] := by
    rintro rfl
    rw [confirmed_nil checked] at mem
    cases mem
  have name := Region.name_of_found scanned some
  rw [confirmedCalls_eq name] at checked
  cases checked
  obtain ⟨found, calls, passed⟩ := (mem_callsIn name).mp mem
  cases shape : LambdaParts.ofNode? call with
  | none =>
    rw [isConfirmed, shape] at passed
    cases passed
  | some parts =>
    obtain ⟨located⟩ := located_of_mem grammatical sound name found calls shape
    obtain ⟨tree, placed, made, fits⟩ := located.region_extends
    refine ⟨parts, tree, rfl, placed, made, fun region among begins => ?_⟩
    obtain ⟨-, -, own⟩ := (located.begins_iff grammatical scanned region).mp ⟨among, begins⟩
    rw [own]
    exact fits

/-- A candidate that begins at the callee of a confirmed call has the extents of that call: its
parenthesis opens the arguments, its body starts with the list of the lambda, and it ends with the
call. -/
theorem confirmed_region_extends (keyword source : Text)
    (sound : (Python.parse source).hasErrors = false)
    (scanned : Region.scan (Token.tokenize (Python.parse source)) keyword = .ok regions)
    (checked : confirmedCalls keyword (Node.lower (Python.parse source)) regions = .ok confirmed)
    (mem : call ∈ confirmed) :
    ∃ parts tree, LambdaParts.ofNode? call = some parts ∧ Placed (Python.parse source) tree ∧
      Node.ofTree (Python.parse source) tree = call ∧
      ∀ region ∈ regions, region.keywordStart = parts.function.span.startByte →
        Extends region tree parts :=
  confirmed_extends (Python.parse_grammatical sound) sound scanned checked mem

theorem confirmed_region_extends_nested :
    let source := "f = def_.g(lambda x={1: 2}, y=lambda: 0: [x[1:2], ')'], )  # )\n".toList
    let parsed := Python.parse source
    ∃ regions confirmed, Region.scan (Token.tokenize parsed) defaultKeyword = .ok regions ∧
      confirmedCalls defaultKeyword (Node.lower parsed) regions = .ok confirmed ∧
      ∃ call ∈ confirmed, ∃ parts tree, LambdaParts.ofNode? call = some parts ∧
        Placed parsed tree ∧ Node.ofTree parsed tree = call ∧
        ∃ region ∈ regions, region.keywordStart = parts.function.span.startByte ∧
          Extends region tree parts := by
  have name : Text.isName defaultKeyword = true := by decide +kernel
  intro source parsed
  refine ⟨_, _, Region.scan_is_run _ _, confirmedCalls_eq name _ _, ?_⟩
  have begins : (callsIn defaultKeyword (Node.lower parsed)
      (Region.run (Region.begin defaultKeyword) (Token.tokenize parsed)).1).any (fun call =>
        (LambdaParts.ofNode? call).any fun parts =>
          (Region.run (Region.begin defaultKeyword) (Token.tokenize parsed)).1.any
            fun region => region.keywordStart == parts.function.span.startByte) = true := by
    decide +kernel
  obtain ⟨call, mem, started⟩ := List.any_eq_true.mp begins
  obtain ⟨parts, tree, shape, placed, made, fits⟩ := confirmed_region_extends defaultKeyword source
    (by decide +kernel) (Region.scan_is_run _ _) (confirmedCalls_eq name _ _) mem
  rw [shape, Option.any_some] at started
  obtain ⟨region, found, same⟩ := List.any_eq_true.mp started
  have start := beq_iff_eq.mp same
  exact ⟨call, mem, parts, tree, shape, placed, made, region, found, start, fits region found start⟩

end

end LambdaLayout.Reformat
