import LambdaLayout.Proofs.ReadStrings
import LambdaLayout.Python.Interpolation

/-!
Sequences of expressions, and the expressions in braces inside strings. A sequence is a single tree,
whose tokens may stand in the header of a lambda as those of its parts may. What is read inside a
string only moves the parser forward.
-/

namespace LambdaLayout.Python

open LambdaLayout.Python.Tree
open LambdaLayout.Python.Parser

/-- What was read with or without a separator. Without one it is a single tree. -/
def Joined (source : Text) (grade : Grade) (offset : Nat) (read : Pieces × Bool)
    (next : ParseState) : Prop :=
  Whole source grade offset read.1 next ∧
    (read.2 = false → Single source grade offset read.1 next)

section

variable {source : Text} {grammar : Grammar} {state : ParseState} {grade : Grade}

theorem Joined.of_single {offset : Nat} {pieces : Pieces}
    (single : Single source grade offset pieces state) :
    Joined source grade offset (pieces, false) state := ⟨single.whole, fun _ => single⟩

theorem Joined.of_whole {offset : Nat} {pieces : Pieces}
    (whole : Whole source grade offset pieces state) :
    Joined source grade offset (pieces, true) state := ⟨whole, Bool.noConfusion⟩

theorem Joined.stays {offset : Nat} {read : Pieces × Bool} {next : ParseState}
    (joined : Joined source grade offset read state) (stays : Stays source state next) :
    Joined source grade offset read next :=
  ⟨joined.1.stays stays, fun single => (joined.2 single).stays stays⟩

theorem Joined.node {offset : Nat} {read : Pieces × Bool}
    (joined : Joined source grade offset read state) (kind : String)
    (free : (constructs ++ atoms).contains kind = false) (known : grade ≠ .loose) :
    Single source grade offset (if read.2 then Pieces.node kind read.1 else read.1) state := by
  split
  · exact joined.1.node kind free known
  · next single => exact joined.2 (by simpa using single)

theorem Obeys.expression (obeys : Obeys source grammar) (valid : state.Valid source) (level : Nat)
    (after : After) :
    Gives (grammar (.expression level after)) state (Single source .header state.offset) :=
  obeys _ state valid

/-- A starred expression. -/
theorem splat_gives (obeys : Obeys source grammar) (valid : state.Valid source) {star : String}
    (inert : isInert star = true) (kind : String)
    (free : (constructs ++ atoms).contains kind = false) :
    Gives (splat grammar star kind) state (Single source .header state.offset) := by
  refine (inert_sign_gives valid inert).bind fun mark next first => ?_
  refine (obeys.expression first.whole.valid _ _).bind fun value last second => .pure ?_
  exact (first.whole.append second.whole.1).node kind free nofun

/-- One more part of a sequence after a comma, or the comma alone where no part follows. -/
theorem sequence_gives {α : Type} (invariant : α → ParseState → Prop) {value : α}
    (wrap : Pieces → α) (expect operand : Expect) (starts : Lexeme → Bool) {part : Parser Pieces} {offset : Nat}
    {pieces : Pieces} (whole : Whole source grade offset pieces state)
    (reads : ∀ now : ParseState, now.Valid source →
      Gives part now fun more next => Reach source grade now.offset more next)
    (ends : ∀ next, Stays source state next → invariant value next)
    (wraps : ∀ more next, Whole source grade offset more next → invariant (wrap more) next) :
    Gives (do
      if ← atSign expect "," then
        let comma ← sign ","
        if starts (← peekLexeme operand) then return some (wrap (pieces ++ comma ++ (← part)))
        noComma
        return some (wrap (pieces ++ comma))
      else return none : Parser (Option α)) state
      fun result next => invariant (result.getD value) next := by
  refine (atSign_gives whole.valid _ ",").bind fun answer next seen => ?_
  split
  · have again := whole.stays seen.1
    refine (inert_sign_gives again.valid (by decide)).bind fun comma _ read => ?_
    have grown := again.append read.whole.1.of_header
    refine (peekLexeme_gives grown.valid _).bind fun lexeme _ seen => ?_
    have kept := grown.stays seen.1
    split
    · exact (reads _ kept.valid).bind fun more _ read => .pure (wraps _ _ (kept.append read))
    · exact (noComma_gives kept.valid).bind fun _ _ stays => .pure (wraps _ _ (kept.stays stays))
  · exact .pure (ends _ seen.1)

theorem expressionSequence_gives (obeys : Obeys source grammar) (valid : state.Valid source)
    (after : After) :
    Gives (expressionSequence grammar after) state (Joined source .header state.offset) := by
  refine (obeys.expression valid _ _).bind fun first next began => ?_
  refine Gives.extend _ (.of_single began) ?_
  rintro ⟨pieces, flag⟩ now joined
  exact sequence_gives _ (fun more => (more, true)) _ _ Lexeme.startsExpression joined.1
    (fun _ valid => (obeys.expression valid _ _).mono fun _ _ read => read.whole.1)
    (fun _ stays => joined.stays stays) fun _ _ whole => .of_whole whole

theorem expressions_gives (obeys : Obeys source grammar) (valid : state.Valid source)
    (after : After) :
    Gives (expressions grammar after) state (Single source .header state.offset) :=
  (expressionSequence_gives obeys valid after).bind fun _ _ joined =>
    .pure (joined.node _ (by decide) nofun)

theorem yieldExpression_gives (obeys : Obeys source grammar) (valid : state.Valid source)
    (after : After) :
    Gives (yieldExpression grammar after) state (Single source .header state.offset) := by
  refine (inert_keyword_gives valid (by decide) (by decide)).bind fun word next first => ?_
  refine (peekLexeme_gives first.whole.valid _).bind fun lexeme ready seen => ?_
  have kept := first.whole.stays seen.1
  split
  · refine (inert_keyword_gives kept.valid (by decide) (by decide)).bind fun from_ next second => ?_
    have grown := kept.append second.whole.1
    refine (obeys.expression grown.valid _ _).bind fun value last third => .pure ?_
    exact (grown.append third.whole.1).node _ (by decide) nofun
  · split
    · refine (expressions_gives obeys kept.valid after).bind fun value last second => .pure ?_
      exact (kept.append second.whole.1).node _ (by decide) nofun
    · exact .pure (kept.node _ (by decide) nofun)

theorem element_gives (obeys : Obeys source grammar) (valid : state.Valid source) :
    Gives (element grammar) state (Single source .header state.offset) := by
  refine (peekLexeme_gives valid _).bind fun lexeme next seen => ?_
  rw [← seen.1.offset]
  split
  · exact yieldExpression_gives obeys seen.1.valid _
  · exact splat_gives obeys seen.1.valid (by decide) _ (by decide)
  · exact obeys.expression seen.1.valid _ _

theorem atClauses_gives (valid : state.Valid source) :
    Gives atClauses state fun _ next => Stays source state next := by
  refine (peekLexeme_gives valid _).bind fun lexeme next seen => ?_
  split <;> exact .pure seen.1

/-- The token that was asked for is ahead. -/
theorem ahead_of_seen {lexed : Lexed} (valid : state.Valid source) (ahead : state.ahead = some lexed) :
    state.offset ≤ lexed.start.byte ∧ lexed.start.Within source := by
  have given := valid.ahead lexed ahead
  obtain ⟨middle, laid, gap, -⟩ := extras_laid given
  exact ⟨Nat.le_trans laid.ordered gap.ordered, given.within⟩

theorem conversion_gives (valid : state.Valid source) :
    Gives conversion state fun _ next => Moved source state.offset next := by
  refine (peek_gives valid _).bind fun lexed next seen => ?_
  obtain ⟨stays, ahead, -⟩ := seen
  obtain ⟨later, within⟩ := ahead_of_seen stays.valid ahead
  dsimp only
  split
  · refine (consume_gives _ _ _ within).bind fun pieces last read => .pure ⟨read.1, ?_⟩
    rw [← stays.offset, ParseState.offset, ParseState.offset, read.2.1]
    exact Nat.le_trans later (Cursor.Reads.skip _ _).ordered
  · exact .pure stays.moved

theorem firstChar_moves (valid : state.Valid source) :
    Gives firstChar state fun _ next => Moved source state.offset next := by
  refine (peek_gives valid _).bind fun lexed next seen => ?_
  obtain ⟨stays, ahead, -⟩ := seen
  obtain ⟨later, within⟩ := ahead_of_seen stays.valid ahead
  split
  · exact .failure
  · next c head =>
    obtain ⟨rest, first⟩ := Cursor.ahead_of_head head
    have reads := Cursor.Reads.next first
    have moved : Gives (MonadStateOf.set
        (ParseState.mk { lexed.after with cursor := lexed.start.next } none)) next
        fun _ last => Moved source state.offset last :=
      Gives.set ⟨⟨reads.within within, nofun⟩, by
        rw [← stays.offset]
        exact Nat.le_trans later reads.ordered⟩
    exact moved.bind fun _ _ done => .pure done

theorem formatSpecifier_gives (obeys : Obeys source grammar) (valid : state.Valid source) :
    Gives (formatSpecifier grammar) state fun _ next => Moved source state.offset next := by
  refine (firstChar_moves valid).bind fun colon next began => ?_
  refine (Gives.extend (fun _ now => Moved source state.offset now) began ?_).bind
    fun _ _ moved => .pure moved
  intro pieces now moved
  have found : Gives MonadState.get now fun found next => now = found ∧ now = next :=
    Gives.get ⟨rfl, rfl⟩
  refine found.bind ?_
  rintro _ _ ⟨rfl, rfl⟩
  have step : ∀ {cursor : Cursor} {text : Text} {last : ParseState}, last.Valid source →
      last.reader.cursor = cursor → now.reader.cursor.Reads text cursor →
      Moved source state.offset last := by
    intro cursor text last valid is reads
    refine moved.trans ⟨valid, ?_⟩
    rw [ParseState.offset, ParseState.offset, is]
    exact reads.ordered
  dsimp only
  split
  · exact .failure
  split
  · refine (obeys .interpolation now moved.1).bind fun _ _ read => .pure (moved.trans read)
  split
  · exact .pure moved
  split
  · refine (moveTo_gives ((Cursor.Reads.skipWhile _ _).within moved.1.within)).bind
      fun _ last read => .pure ?_
    exact step read.1 read.2 (.skipWhile _ _)
  · refine (consume_gives _ _ _ moved.1.within).bind fun _ last read => .pure ?_
    exact step read.1 read.2.1 (.skip _ _)

theorem interpolation_gives (obeys : Obeys source grammar) (valid : state.Valid source) :
    Gives (interpolation grammar) state fun _ next => Moved source state.offset next := by
  have found : Gives MonadState.get state fun found next => state = found ∧ state = next :=
    Gives.get ⟨rfl, rfl⟩
  refine found.bind ?_
  rintro _ _ ⟨rfl, rfl⟩
  refine (consume_gives _ _ _ valid.within).bind fun opened first read => ?_
  have began : Moved source state.offset first := by
    refine ⟨read.1, ?_⟩
    rw [ParseState.offset, ParseState.offset, read.2.1]
    exact (Cursor.Reads.skip _ _).ordered
  refine (atWord_gives began.1 _ _).bind fun yields next seen => ?_
  have began := began.trans seen.1.moved
  have reaches : ∀ {offset : Nat} (pieces : Pieces) (next : ParseState),
      Single source .header offset pieces next → Moved source offset next :=
    fun _ _ single => single.whole.1.moved
  refine .either (fun _ => (yieldExpression_gives obeys began.1 _).mono reaches)
    (fun _ => (expressions_gives obeys began.1 _).mono reaches) fun value next moved => ?_
  have began := began.trans moved
  refine (atSign_gives began.1 _ _).bind fun equals next seen => ?_
  have began := began.trans seen.1.moved
  refine .either (fun _ => (sign_gives began.1 _).mono fun _ _ read => read.whole.1.moved)
    (fun _ => .pure ⟨began.1, Nat.le_refl _⟩) fun equals next moved => ?_
  have began := began.trans moved
  refine (conversion_gives began.1).bind fun shown next moved => ?_
  have began := began.trans moved
  refine (peek_gives began.1 _).bind fun lexed next seen => ?_
  have began := began.trans seen.1.moved
  refine .either (fun _ => formatSpecifier_gives obeys began.1)
    (fun _ => .pure ⟨began.1, Nat.le_refl _⟩) fun format next moved => ?_
  have began := began.trans moved
  refine (peek_gives began.1 _).bind fun lexed next seen => ?_
  have began := began.trans seen.1.moved
  exact (sign_gives began.1 _).bind fun _ _ read => .pure (began.trans read.whole.1.moved)

end

end LambdaLayout.Python
