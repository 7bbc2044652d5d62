import LambdaLayout.Proofs.ParserSteps
import LambdaLayout.Python.Sequence

/-!
Bracketed lists. What follows an opening bracket, up to the closing one, has matching brackets, so
the whole may stand in the header of a lambda. Where the parts are separated by commas they are
listed as the grammar asks.
-/

namespace LambdaLayout.Python

open LambdaLayout.Python.Tree
open LambdaLayout.Python.Parser

/-- The pieces reach up to a closing bracket, and their other brackets match. -/
structure Ending (source : Text) (closing : String) (offset : Nat) (pieces : Pieces)
    (next : ParseState) : Prop where
  valid : next.Valid source
  laid : Laid source offset pieces next.offset
  tokens : ∃ inner last, pieces.trees = inner ++ [last] ∧ IsSign closing last ∧
    Grade.matched.Fits source inner

/-- The pieces are the rest of a bracketed list. -/
structure Tail (source : Text) (closing : String) (stage : Stage) (offset : Nat) (pieces : Pieces)
    (next : ParseState) : Prop extends Ending source closing offset pieces next where
  listing : Listing closing stage pieces.trees .closed

section

variable {source : Text} {closing opening : String} {offset : Nat} {pieces front tail : Pieces}
  {state next : ParseState} {stage last : Stage}

/-- The brackets of the grammar. -/
def bracketPairs : List (String × String) := [("(", ")"), ("[", "]"), ("\x7b", "\x7d")]

private theorem pair_facts (pair : (opening, closing) ∈ bracketPairs) :
    ((TokenKind.ofLeaf opening opening.toList).opens = true ∧
      (TokenKind.ofLeaf closing closing.toList).closes = true) ∧
      (opening.toList ≠ [] ∧ closing.toList ≠ []) ∧
      opening ≠ "line_continuation" ∧ closing ≠ "line_continuation" := by
  simp only [bracketPairs, List.mem_cons, Prod.mk.injEq, List.not_mem_nil, or_false] at pair
  rcases pair with ⟨rfl, rfl⟩ | ⟨rfl, rfl⟩ | ⟨rfl, rfl⟩ <;>
    exact ⟨⟨rfl, rfl⟩, ⟨by decide, by decide⟩, by decide, by decide⟩

theorem Ending.of_sign (read : Reads source .loose closing offset pieces next) :
    Ending source closing offset pieces next := by
  obtain ⟨tree, one, sign⟩ := read
  obtain ⟨lead, split, skipped⟩ := one.lead
  refine ⟨one.valid, one.laid, lead, tree, by rw [split]; simp, sign, ?_⟩
  exact Grade.fits_extras
    (fun tree mem => (one.laid.clean tree (by rw [split]; simp [mem])).1) skipped

theorem Ending.after (first : Reach source .matched offset front state)
    (rest : Ending source closing state.offset tail next) :
    Ending source closing offset (front ++ tail) next := by
  obtain ⟨inner, last, split, sign, fits⟩ := rest.tokens
  exact ⟨rest.valid, first.laid.append rest.laid, front.trees ++ inner, last,
    by rw [Pieces.trees_append, split, List.append_assoc], sign, Grade.fits_append first.fits fits⟩

/-- What stands between brackets may stand in a header with them. -/
theorem Ending.brackets (pair : (opening, closing) ∈ bracketPairs)
    (first : Reads source .loose opening offset front state)
    (rest : Ending source closing state.offset tail next) :
    Reach source .header offset (front ++ tail) next := by
  obtain ⟨⟨opens, closes⟩, ⟨filled, ends_filled⟩, other, ends_other⟩ := pair_facts pair
  obtain ⟨tree, one, sign⟩ := first
  obtain ⟨lead, split, skipped⟩ := one.lead
  obtain ⟨inner, last, ends, shuts, fits⟩ := rest.tokens
  have last_sits : Sits source last := (rest.laid.clean last (by rw [ends]; simp)).1
  have last_closes : (last.token source).kind.closes = true := by
    rw [shuts.token_kind last_sits]
    exact closes
  refine ⟨rest.valid, one.laid.append rest.laid, ?_, (endsSolid_iff source).mpr ?_⟩
  · rw [Pieces.trees_append, split, ends, Pieces.trees_append, Pieces.trees_map, List.append_assoc]
    refine Grade.fits_append (Grade.fits_extras
      (fun tree mem => (one.laid.clean tree (by rw [split]; simp [mem])).1) skipped) ?_
    rw [Grade.Fits, Pieces.trees_tree, Pieces.trees_nil, List.singleton_append, tokensOf_cons,
      tokensOf_append, tokensOf_cons, tokensOf_nil, List.append_nil,
      (sign.tokens one.sits filled other).1, (shuts.tokens last_sits ends_filled ends_other).1]
    exact .brackets (by rw [sign.token_kind one.sits]; exact opens) fits last_closes .nil
  · rw [Pieces.trees_append, ends, ← List.append_assoc, tokensOf_append, tokensOf_cons, tokensOf_nil,
      List.append_nil, (shuts.tokens last_sits ends_filled ends_other).1, List.getLast?_concat]
    rintro token ⟨⟩ comment
    rw [comment] at last_closes
    cases last_closes

theorem Tree.Listing.append {left right : List Tree} {middle : Stage}
    (first : Listing closing stage left middle) (second : Listing closing middle right last) :
    Listing closing stage (left ++ right) last := by
  induction first with
  | nil => exact second
  | extra skipped unclosed _ ih => exact .extra skipped unclosed (ih second)
  | part kept _ ih => exact .part kept (ih second)
  | comma sign _ ih => exact .comma sign (ih second)
  | close sign unclosed _ ih => exact .close sign unclosed (ih second)

private theorem listing_extras {lead trees : List Tree} (unclosed : stage ≠ .closed)
    (skipped : ∀ tree ∈ lead, tree.isExtra = true) (rest : Listing closing stage trees last) :
    Listing closing stage (lead ++ trees) last := by
  induction lead with
  | nil => exact rest
  | cons tree lead ih =>
    exact .extra (skipped tree List.mem_cons_self) unclosed
      (ih fun other mem => skipped other (List.mem_cons_of_mem _ mem))

/-- A part is listed where one may follow. -/
theorem listing_part (single : Single source .matched offset pieces state) :
    Listing closing .ready pieces.trees .between := by
  obtain ⟨tree, one, part⟩ := single
  have element : IsElement tree := ⟨part, one.ends_tree one.ends⟩
  obtain ⟨lead, split, skipped⟩ := one.lead
  rw [split, Pieces.trees_append, Pieces.trees_map]
  exact listing_extras Stage.noConfusion skipped (.part element .nil)

theorem listing_comma {grade : Grade} (read : Reads source grade "," offset pieces state) :
    Listing closing .between pieces.trees .ready := by
  obtain ⟨tree, one, sign⟩ := read
  obtain ⟨lead, split, skipped⟩ := one.lead
  rw [split, Pieces.trees_append, Pieces.trees_map]
  exact listing_extras Stage.noConfusion skipped (.comma sign .nil)

theorem Tail.of_sign (unclosed : stage ≠ .closed)
    (read : Reads source .loose closing offset pieces next) :
    Tail source closing stage offset pieces next := by
  refine ⟨.of_sign read, ?_⟩
  obtain ⟨tree, one, sign⟩ := read
  obtain ⟨lead, split, skipped⟩ := one.lead
  rw [split, Pieces.trees_append, Pieces.trees_map]
  exact listing_extras unclosed skipped (.close sign unclosed .nil)

theorem Tail.after {middle : Stage} (first : Reach source .matched offset front state)
    (listed : Listing closing stage front.trees middle)
    (rest : Tail source closing middle state.offset tail next) :
    Tail source closing stage offset (front ++ tail) next := by
  refine ⟨.after first rest.toEnding, ?_⟩
  rw [Pieces.trees_append]
  exact listed.append rest.listing

/-- The rest of a list is read as the grammar asks. After a comma that is followed by the closing
bracket no second one is read. -/
theorem restOfList_gives {part : Parser Pieces} (other : closing ≠ ",")
    (reads : ∀ state, state.Valid source → Gives part state (Single source .matched state.offset))
    (valid : state.Valid source) (given : Pieces) :
    Gives (restOfList closing part given) state fun result next =>
      ∃ tail, result = given ++ tail ∧ Tail source closing .between state.offset tail next := by
  let sofar := fun (pieces : Pieces) (now : ParseState) => ∃ more stage,
    pieces = given ++ more ∧ Reach source .matched state.offset more now ∧
      Listing closing .between more.trees stage ∧
      (stage = .between ∨ stage = .ready ∧ now.Sees (.sign closing))
  rw [restOfList]
  refine (Gives.extend sofar ⟨[], .between, by simp, .start valid, .nil, .inl rfl⟩ ?_).bind ?_
  · rintro pieces now ⟨more, stage, rfl, reach, listed, where_⟩
    refine (atSign_gives reach.valid _ ",").bind fun comma next seen => ?_
    obtain ⟨stays, is⟩ := seen
    have again := reach.stays stays
    split
    · next found =>
      obtain ⟨sees, unique⟩ := is found
      have between : stage = .between := by
        rcases where_ with between | ⟨-, closes⟩
        · exact between
        · exact absurd (unique _ closes) other
      subst between
      refine (inert_sign_gives stays.valid (by decide)).bind fun sign after read => ?_
      have grown : Reach source .matched state.offset (more ++ sign) after := by
        obtain ⟨tree, one, -⟩ := read
        exact again.append one.toReach.of_header
      have comma_listed : Listing closing .between (more ++ sign).trees .ready := by
        rw [Pieces.trees_append]
        exact listed.append (listing_comma read)
      refine (atSign_gives grown.valid _ closing).bind fun close after' seen => ?_
      have kept := grown.stays seen.1
      split
      · next closes =>
        exact .pure ⟨more ++ sign, .ready, by simp, kept, comma_listed, .inr ⟨rfl, (seen.2 closes).1⟩⟩
      · refine (reads after' seen.1.valid).bind fun value last single => .pure ?_
        refine ⟨more ++ sign ++ value, .between, by simp, ?_, ?_, .inl rfl⟩
        · obtain ⟨tree, one, -⟩ := single
          exact kept.append one.toReach
        · rw [Pieces.trees_append]
          exact comma_listed.append (listing_part single)
    · exact .pure ⟨more, stage, rfl, again, listed, where_.imp_right fun closes =>
        ⟨closes.1, stays.sees closes.2⟩⟩
  · rintro pieces now ⟨more, stage, rfl, reach, listed, where_⟩
    refine (sign_gives reach.valid closing).bind fun sign next read => .pure ?_
    have unclosed : stage ≠ .closed := by rcases where_ with rfl | ⟨rfl, -⟩ <;> nofun
    exact ⟨more ++ sign, by simp, .after reach listed (.of_sign unclosed read)⟩

/-- Where nothing is known of the order of the parts, the rest of a list still ends with its
bracket. -/
theorem restOfList_ends {part : Parser Pieces}
    (reads : ∀ state, state.Valid source → Gives part state (Reach source .matched state.offset))
    (valid : state.Valid source) (given : Pieces) :
    Gives (restOfList closing part given) state fun result next =>
      ∃ tail, result = given ++ tail ∧ Ending source closing state.offset tail next := by
  let sofar := fun (pieces : Pieces) (now : ParseState) => ∃ more,
    pieces = given ++ more ∧ Reach source .matched state.offset more now
  rw [restOfList]
  refine (Gives.extend sofar ⟨[], by simp, .start valid⟩ ?_).bind ?_
  · rintro pieces now ⟨more, rfl, reach⟩
    refine (atSign_gives reach.valid _ ",").bind fun comma next seen => ?_
    have again := reach.stays seen.1
    split
    · refine (inert_sign_gives again.valid (by decide)).bind fun sign after read => ?_
      obtain ⟨tree, one, -⟩ := read
      have grown := again.append one.toReach.of_header
      refine (atSign_gives grown.valid _ closing).bind fun close after seen => ?_
      have kept := grown.stays seen.1
      split
      · exact .pure ⟨more ++ sign, by simp, kept⟩
      · refine (reads _ kept.valid).bind fun value last reach => .pure ?_
        exact ⟨more ++ sign ++ value, by simp, kept.append reach⟩
    · exact .pure ⟨more, rfl, again⟩
  · rintro pieces now ⟨more, rfl, reach⟩
    refine (sign_gives reach.valid closing).bind fun sign next read => .pure ?_
    exact ⟨more ++ sign, by simp, .after reach (.of_sign read)⟩

end

end LambdaLayout.Python
