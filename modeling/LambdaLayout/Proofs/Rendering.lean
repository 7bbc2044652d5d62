import LambdaLayout.Proofs.CallMarks
import LambdaLayout.Proofs.Frame

/-!
Laying out loses, adds and reorders nothing. Each of the functions that lay out a source gives a
text made of the tokens it was given: calls, blocks, the clauses of chains, and ranges that are
copied with the calls inside them replaced. They call each other on a smaller depth, so what they
promise is proved for all of them at once, by induction on the depth.
-/

namespace LambdaLayout

open LambdaLayout.Python (Parsed Tree)
open LambdaLayout.Python.Tree (Placed)
open LambdaLayout.Reformat (Mark)
open LambdaLayout.Text (Holds byteLength)

theorem Renders.append {left right : List Token} {first second : Text} (one : Renders left first)
    (two : Renders right second) : Renders (left ++ right) (first ++ second) := by
  obtain ⟨marks, kept, written⟩ := one
  obtain ⟨others, also, more⟩ := two
  refine ⟨marks ++ others, ?_, written.append more⟩
  rw [List.map_append]
  exact kept.append also

/-- What is written as it stands is laid out. -/
theorem Renders.of_written {tokens : List Token} {text : Text}
    (written : Written false (tokens.map Token.mark) text false) : Renders tokens text :=
  ⟨_, .refl _, written⟩

namespace Layout

variable {parsed : Parsed} {layout : Layout} {tree : Tree} {call : Node} {start stop depth : Nat}
  {text indent : Text}

section Calls

theorem lambda_end {parts : LambdaParts} (placed : Placed parsed tree)
    (shape : LambdaParts.ofNode? (Node.ofTree parsed tree) = some parts) :
    ∃ last, Placed parsed last ∧ Python.Tree.IsSign ")" last ∧
      last.token parsed.source ∈ tree.tokens parsed.source ∧
      last.span.endByte = tree.span.endByte := by
  obtain ⟨function, arguments, lambda, last, call⟩ := lambda_tree placed shape
  have mem := call.row.mem arguments (by simp)
  have arguments_placed := placed.child call.split mem
  obtain ⟨span, sole⟩ := call.sole
  have last_placed := arguments_placed.child sole.split sole.among
  refine ⟨last, last_placed, sole.closed, ?_, sole.final.trans call.ends⟩
  rw [Python.Tree.tokens_of_split call.split]
  refine Python.Tree.mem_tokensOf.mpr ⟨arguments, mem, ?_⟩
  rw [Python.Tree.tokens_of_split sole.split]
  refine Python.Tree.mem_tokensOf.mpr ⟨last, sole.among, ?_⟩
  rw [(sole.closed.tokens last_placed.sits (by decide) (by decide)).1]
  exact List.mem_singleton_self _

/-- A callee starts with a token. -/
theorem callee_start {keyword : Text} (placed : Placed parsed tree)
    (callee : Node.IsCallee keyword (Node.ofTree parsed tree)) :
    ∃ token : Token, token.Fits parsed.source ∧ token.span.startByte = tree.span.startByte := by
  have named : ∀ {tree : Tree} {span : Span} {id : Text}, Placed parsed tree →
      Node.ofTree parsed tree = .name span id →
      ∃ token : Token, token.Fits parsed.source ∧ token.span.startByte = tree.span.startByte := by
    intro tree span id placed made
    obtain ⟨tokens, -⟩ := Node.name_tokens placed.sits made
    have mem : tree.token parsed.source ∈ tree.tokens parsed.source := by rw [tokens]; simp
    obtain ⟨leaf, among, same⟩ := List.mem_map.mp mem
    obtain ⟨among, heard⟩ := List.mem_filter.mp among
    obtain ⟨sits, closed⟩ := placed.sits.spread.leaves_sit.1 leaf among
    refine ⟨tree.token parsed.source, ?_, rfl⟩
    rw [← same]
    exact sits.token_fits closed (by simpa using heard)
  generalize made : Node.ofTree parsed tree = node at callee
  cases callee with
  | bare => exact named placed made
  | labelled =>
    obtain ⟨inner, name, split, mem, inner_made, starts, -⟩ := Chain.access_parts placed made
    rw [← starts]
    exact named (placed.child split mem) inner_made

/-- The tokens are divided where an extended lambda starts and where it ends, and it starts with a
token. -/
theorem lambda_divides (is : Node.IsLambda parsed call) :
    Divides parsed call.span.startByte ∧ Divides parsed call.span.endByte ∧
      ∃ token : Token, token.Fits parsed.source ∧ token.span.startByte = call.span.startByte := by
  obtain ⟨⟨tree, placed, rfl⟩, parts, keyword, shape, callee⟩ := is
  have filled := Node.lambda_filled placed shape
  rw [Node.span_of_tree]
  have bounded := placed.sits.holds.bounded
  obtain ⟨function, arguments, lambda, last, call⟩ := lambda_tree placed shape
  obtain ⟨last, -, -, own, ends⟩ := lambda_end placed shape
  have function_placed := placed.child call.split (call.row.mem function (by simp))
  refine ⟨placed.divides_start (by omega), placed.divides_end (.inr ⟨_, own, ends⟩), ?_⟩
  rw [← call.starts]
  rw [← call.called] at callee
  exact callee_start function_placed callee

end Calls

section Range

/-- No comment stands right before a token. -/
private theorem gap_written {gap : Text} (first : Divides parsed start)
    (last : Divides parsed stop) (held : Holds parsed.source start gap stop)
    (next : ∃ token : Token, token.Fits parsed.source ∧ token.span.startByte = stop) :
    Written false ((tokensIn parsed start stop).map Token.mark) gap false := by
  have strewn := first.strewn last held.ordered
  obtain ⟨last, written, ends⟩ := strewn.written held
  cases last with
  | false => exact written
  | true =>
    obtain ⟨comment, mem, kind, at_end⟩ := ends rfl
    obtain ⟨token, fits, starts⟩ := next
    have own := (strewn.bounds comment (List.mem_of_getLast? mem)).1
    have after := fits.held
    rw [starts, ← at_end] at after
    rcases own.comment kind _ _ after with none | line
    · exact absurd none fits.filled
    · exact absurd line fits.fresh

/-- A range that is copied, with calls inside it replaced, is made of its tokens if what replaces
the calls is made of theirs. -/
private theorem spliced_renders {calls : List Node} {shown : Node → Text} (of : Of parsed layout)
    (mem : ∀ call ∈ calls, call ∈ layout.calls)
    (renders : ∀ call ∈ calls,
      Renders (tokensIn parsed call.span.startByte call.span.endByte) (shown call))
    (first : Divides parsed start) (last : Divides parsed stop)
    (solid : ∀ token ∈ (tokensIn parsed start stop).getLast?, token.kind ≠ .comment)
    (spliced : Spliced parsed.source stop start (calls.map (editOf shown)) text) :
    Renders (tokensIn parsed start stop) text := by
  induction calls generalizing start text with
  | nil =>
    cases spliced with
    | rest kept =>
      obtain ⟨flag, written, ends⟩ := (first.strewn last kept.ordered).written kept
      cases flag with
      | false => exact .of_written written
      | true =>
        obtain ⟨comment, is_last, kind, -⟩ := ends rfl
        exact absurd kind (solid comment is_last)
  | cons call rest ih =>
    cases spliced with
    | edit kept replaced later =>
      obtain ⟨call_first, call_last, token⟩ :=
        lambda_divides (of.lambdas call (mem call List.mem_cons_self))
      have before : start ≤ call.span.startByte := kept.ordered
      have inside : call.span.startByte ≤ call.span.endByte := replaced.ordered
      have after : call.span.endByte ≤ stop := later.ordered
      have parts : tokensIn parsed start stop = tokensIn parsed start call.span.startByte ++
          tokensIn parsed call.span.startByte call.span.endByte ++
            tokensIn parsed call.span.endByte stop := by
        rw [tokensIn_append call_last (by omega) after, tokensIn_append call_first before inside]
      have rest_renders := ih (fun other among => mem other (List.mem_cons_of_mem _ among))
        (fun other among => renders other (List.mem_cons_of_mem _ among)) call_last ?_ later
      · rw [parts]
        exact ((Renders.of_written (gap_written first call_first kept token)).append
          (renders call List.mem_cons_self)).append rest_renders
      · intro token is_last
        refine solid token ?_
        rw [parts, List.getLast?_append, Option.mem_def.mp is_last]
        rfl

end Range

/-- What the layout functions promise at a depth. -/
structure Sound (parsed : Parsed) (layout : Layout) (depth : Nat) : Prop where
  call : ∀ {tree : Tree} {base text : Text}, Placed parsed tree → (∀ c ∈ base, isSpace c = true) →
    callText layout depth (Node.ofTree parsed tree) base = .ok text →
    Renders (tree.tokens parsed.source) text
  range : ∀ {start stop row : Nat} {indent text : Text}, Divides parsed start →
    Divides parsed stop → (∀ c ∈ indent, isSpace c = true) →
    rangeText layout depth ⟨start, stop⟩ row indent = .ok text →
    Renders (tokensIn parsed start stop) text
  block : ∀ {trees : List Tree} {items : List Node} {row : Nat} {base text : Text},
    Block parsed trees items → (∀ c ∈ base, isSpace c = true) →
    blockText layout depth items row base = .ok text →
    ∃ shown, Rearranged (marksOf parsed trees) (shown ++ [Mark.closeBracket]) ∧
      Written false shown text false
  element : ∀ {tree : Tree} {indent text : Text}, Placed parsed tree →
    Divides parsed tree.span.startByte → Divides parsed tree.span.endByte →
    (∀ c ∈ indent, isSpace c = true) →
    elementText layout depth (Node.ofTree parsed tree) indent = .ok text →
    Renders (tree.tokens parsed.source) text

/-- A sequence of attempts succeeds if each of them does. -/
theorem bind_ok {α : Type} {first : Except Refusal α} {next : α → Attempt}
    (ran : first >>= next = .ok text) : ∃ value, first = .ok value ∧ next value = .ok text := by
  cases first with
  | error refusal => cases ran
  | ok value => exact ⟨value, rfl, ran⟩

theorem Attempt.orElse_ok {first : Attempt} {second : Unit → Attempt}
    (ran : first.orElse second = .ok text) : first = .ok text ∨ second () = .ok text := by
  rw [Attempt.orElse.eq_def] at ran
  split at ran
  · exact .inr ran
  · exact .inl ran

theorem textOf_ok {extent : Extent} (ran : layout.textOf extent = .ok text) :
    Holds layout.source extent.start text extent.stop := by
  rw [textOf] at ran
  split at ran
  · next found =>
    cases ran
    exact Text.slice?_iff.mp found
  · cases ran

theorem lineIndent_blank (layout : Layout) (offset : Nat) :
    ∀ c ∈ layout.lineIndent offset, isSpace c = true := by
  intro c mem
  rw [lineIndent] at mem
  split at mem
  · cases mem
  · have indent := List.mem_takeWhile_imp mem
    rw [Text.isIndent, Bool.or_eq_true, beq_iff_eq, beq_iff_eq] at indent
    rcases indent with rfl | rfl <;> decide

section Step

/-- A copied range is the source with the outermost calls in it replaced, each by its layout or by a
copy, at the given indentation or at that of its line. -/
theorem rangeText_ok {row : Nat} (grammatical : parsed.Grammatical) (of : Of parsed layout)
    (ran : rangeText layout (depth + 1) ⟨start, stop⟩ row indent = .ok text) :
    layout.endsWithComment ⟨start, stop⟩ = false ∧ ∃ shown : Node → Text,
      (∀ call ∈ layout.outermostCalls ⟨start, stop⟩ true, call ∈ layout.calls ∧
        ∃ base, (base = indent ∨ base = layout.lineIndent call.span.startByte) ∧
          (callText layout depth call base = .ok (shown call) ∨
            rangeText layout depth call.span.extent call.span.start.row base = .ok (shown call))) ∧
      Spliced parsed.source stop start
        ((layout.outermostCalls ⟨start, stop⟩ true).map (editOf shown)) text := by
  rw [rangeText] at ran
  split at ran
  · cases ran
  next uncommented =>
  obtain ⟨copied, own, ran⟩ := bind_ok ran
  have within : ∀ call ∈ layout.outermostCalls ⟨start, stop⟩ true, call ∈ layout.calls ∧
      start ≤ call.span.startByte ∧ call.span.endByte ≤ stop := by
    intro call mem
    obtain ⟨among, inside⟩ := mem_outermostFrom mem
    rw [isWithin, Bool.and_eq_true, Extent.contains, Bool.and_eq_true] at inside
    exact ⟨among, of_decide_eq_true inside.1.1, of_decide_eq_true inside.1.2⟩
  obtain ⟨answers, spliced⟩ := replaceCalls_spliced (textOf_ok own)
    (fun call mem => (within call mem).2)
    (fun call mem => by rw [of.source]; exact of.holds (within call mem).1)
    (outermost_apart (of.nests grammatical)) ran
  rw [of.source] at spliced
  refine ⟨by simpa using uncommented, _, fun call mem => ⟨(within call mem).1, _, ?_,
    Attempt.orElse_ok (answers call mem)⟩, spliced⟩
  split
  · exact .inl rfl
  · exact .inr rfl

theorem range_renders {row : Nat} (grammatical : parsed.Grammatical) (of : Of parsed layout)
    (sound : Sound parsed layout depth) (first : Divides parsed start) (last : Divides parsed stop)
    (blank : ∀ c ∈ indent, isSpace c = true)
    (ran : rangeText layout (depth + 1) ⟨start, stop⟩ row indent = .ok text) :
    Renders (tokensIn parsed start stop) text := by
  obtain ⟨uncommented, shown, answers, spliced⟩ := rangeText_ok grammatical of ran
  refine spliced_renders of (fun call mem => (answers call mem).1) ?_ first last ?_ spliced
  · intro call mem
    obtain ⟨among, base, which, answer⟩ := answers call mem
    have base_blank : ∀ c ∈ base, isSpace c = true := by
      rcases which with rfl | rfl
      · exact blank
      · exact lineIndent_blank layout _
    obtain ⟨call_first, call_last, -⟩ := lambda_divides (of.lambdas call among)
    obtain ⟨⟨tree, placed, rfl⟩, -⟩ := of.lambdas call among
    rcases answer with laid | copied
    · rw [Node.span_of_tree, placed.tokensIn_eq]
      exact sound.call placed base_blank laid
    · exact sound.range call_first call_last base_blank copied
  · rw [endsWithComment_eq grammatical of.tokens last] at uncommented
    intro token mem comment
    rw [Option.mem_def.mp mem] at uncommented
    simp [comment] at uncommented

theorem block_renders {trees : List Tree} {items : List Node} {row : Nat} {base : Text}
    (sound : Sound parsed layout depth) (block : Block parsed trees items)
    (blank : ∀ c ∈ base, isSpace c = true)
    (ran : blockText layout (depth + 1) items row base = .ok text) :
    ∃ shown, Rearranged (marksOf parsed trees) (shown ++ [Mark.closeBracket]) ∧
      Written false shown text false := by
  have deeper : ∀ c ∈ base ++ indentation, isSpace c = true := by
    intro c mem
    rcases List.mem_append.mp mem with mem | mem
    · exact blank c mem
    · exact List.all_eq_true.mp (rfl : indentation.all isSpace = true) c mem
  rw [blockText] at ran
  obtain ⟨inner, lines, ran⟩ := bind_ok ran
  cases ran
  obtain ⟨shown, last, rearranged, written⟩ := block.lined deeper
    (fun tree placed first last own made => sound.element placed first last deeper made) lines
  refine ⟨shown, rearranged, ?_⟩
  rw [← List.append_nil shown]
  exact written.append (.newline blank)

/-- The text of a tree without comments. -/
private theorem copied_written (of : Of parsed layout) (uncommented : Uncommented parsed tree)
    (ran : layout.textOf tree.span.extent = .ok text) :
    Written false ((tree.tokens parsed.source).map Token.mark) text false := by
  have held := textOf_ok ran
  rw [of.source] at held
  obtain ⟨flag, written, ends⟩ :=
    (uncommented.first.strewn uncommented.last held.ordered).written held
  rw [uncommented.placed.tokensIn_eq] at written ends
  cases flag with
  | false => exact written
  | true =>
    obtain ⟨token, mem, comment, -⟩ := ends rfl
    exact absurd comment (uncommented.solid token (List.mem_of_getLast? mem))

/-- A bracket that opens a block has a blank before it. -/
private theorem bracket_written : Written false [Mark.openBracket] " [".toList false :=
  (@Written.spaces [' '] (List.all_eq_true.mp rfl)).append (.single TokenKind.noConfusion ['['])

/-- What the layout of a call is made of. -/
theorem callText_ok {base : Text} (ran : callText layout (depth + 1) call base = .ok text) :
    ∃ parts callee parameters block, LambdaParts.ofNode? call = some parts ∧
      layout.hasCommentOutside call.span parts.body = false ∧
      layout.textOf parts.function.span.extent = .ok callee ∧
      (parts.parameters.mapM fun span => layout.textOf span.extent) = .ok parameters ∧
      blockText layout depth parts.elements parts.body.start.row base = .ok block ∧
      text = callee ++ "(".toList ++ lambdaHead parameters ++ " [".toList ++ block ++
        "])".toList := by
  rw [callText] at ran
  split at ran
  · cases ran
  next parts shape =>
  split at ran
  · cases ran
  split at ran
  · cases ran
  next outside =>
  obtain ⟨callee, callee_ran, ran⟩ := bind_ok ran
  obtain ⟨parameters, parameters_ran, ran⟩ := bind_ok ran
  obtain ⟨block, block_ran, ran⟩ := bind_ok ran
  cases ran
  exact ⟨parts, callee, parameters, block, shape, by simpa using outside, callee_ran,
    parameters_ran, block_ran, rfl⟩

/-- The head of a lambda is written from its word, its parameters and its colon. -/
private theorem head_written {given : Option Tree} {parameters : Option Text}
    (of : Of parsed layout) (uncommented : ∀ part ∈ given, Uncommented parsed part)
    (ran : ((given.map Tree.span).mapM fun span => layout.textOf span.extent) = .ok parameters) :
    Written false (Mark.lambda :: (marksOf parsed given.toList ++ [Mark.colon]))
      (lambdaHead parameters) false := by
  cases given with
  | none =>
    cases ran
    exact (Written.single TokenKind.noConfusion "lambda".toList).then_token TokenKind.noConfusion
  | some part =>
    have own : (layout.textOf part.span.extent).map some = .ok parameters := ran
    cases copied : layout.textOf part.span.extent with
    | error refusal => rw [copied] at own; cases own
    | ok shown =>
      rw [copied] at own
      cases own
      have written := copied_written of (uncommented part rfl) copied
      have space : Written false [] [' '] false := .spaces (List.all_eq_true.mp rfl)
      have whole := ((@Written.single .name TokenKind.noConfusion "lambda".toList).append
        (space.append written)).append (@Written.single .colon TokenKind.noConfusion ":".toList)
      rw [Option.toList_some, marksOf_cons, marksOf, Python.Tree.tokensOf_nil, List.map_nil,
        List.append_nil]
      exact whole

theorem call_renders {base : Text} (grammatical : parsed.Grammatical) (of : Of parsed layout)
    (sound : Sound parsed layout depth) (placed : Placed parsed tree)
    (blank : ∀ c ∈ base, isSpace c = true)
    (ran : callText layout (depth + 1) (Node.ofTree parsed tree) base = .ok text) :
    Renders (tree.tokens parsed.source) text := by
  obtain ⟨parts, callee, parameters, block, shape, outside, callee_ran, parameters_ran, block_ran,
    rfl⟩ := callText_ok ran
  rw [Node.span_of_tree] at outside
  obtain ⟨function, given, trees, comma, call⟩ :=
    call_marks placed shape (quiet_of grammatical of.tokens outside)
  rw [← call.callee] at callee_ran
  rw [← call.parameters] at parameters_ran
  have callee_written := copied_written of (call.uncommented function (by simp)) callee_ran
  have head := head_written of
    (fun part mem => call.uncommented part (by simp [Option.mem_def.mp mem])) parameters_ran
  obtain ⟨shown, rearranged, written⟩ := sound.block call.block blank block_ran
  have closed : Written false [Mark.closeBracket, Mark.closeParen] "])".toList false :=
    (Written.single TokenKind.noConfusion [']']).append (Written.single TokenKind.noConfusion [')'])
  -- A comma after the lambda is left out.
  have trailing : Rearranged (comma ++ [Mark.closeParen]) [Mark.closeParen] := by
    rcases call.trailing with rfl | rfl
    · exact .refl _
    · exact .drop rfl (.refl _)
  refine ⟨(function.tokens parsed.source).map Token.mark ++ [Mark.openParen] ++
    (Mark.lambda :: (marksOf parsed given.toList ++ [Mark.colon])) ++ [Mark.openBracket] ++ shown ++
      [Mark.closeBracket, Mark.closeParen], ?_, ?_⟩
  · rw [call.marks]
    have kept := Rearranged.keep_all ((function.tokens parsed.source).map Token.mark ++
      [Mark.openParen] ++ (Mark.lambda :: (marksOf parsed given.toList ++ [Mark.colon])) ++
        [Mark.openBracket]) (rearranged.append trailing)
    simpa using kept
  · exact ((((callee_written.then_token TokenKind.noConfusion).append head).append
      bracket_written).append written).append closed

/-- The clauses of a chain are made of its tokens if each clause is made of its own. -/
private theorem clauses_render {clauses : List Clause} {clauseText : Clause → Attempt}
    (linked : Chain.Linked parsed start clauses stop)
    (renders : ∀ {start stop clause text}, Chain.ClauseAt parsed start clause stop →
      clauseText clause = .ok text → Renders (tokensIn parsed start stop) text)
    (ran : clauseTexts clauseText clauses = .ok text) :
    Renders (tokensIn parsed start stop) text := by
  induction linked generalizing text with
  | last own => exact renders own ran
  | @dot start middle next stop clause clauses own ordered dot rest ih =>
    have step : ∃ first others, clauseText clause = .ok first ∧
        clauseTexts clauseText clauses = .ok others ∧ text = first ++ '.' :: others := by
      cases clauses with
      | nil => cases rest
      | cons other clauses =>
        rw [clauseTexts] at ran
        · obtain ⟨first, first_ran, ran⟩ := bind_ok ran
          obtain ⟨others, others_ran, ran⟩ := bind_ok ran
          cases ran
          exact ⟨first, others, first_ran, others_ran, rfl⟩
        · simp
    obtain ⟨first, others, first_ran, others_ran, rfl⟩ := step
    have between : Renders (tokensIn parsed middle next) ['.'] := by
      refine .of_written ?_
      rw [dot]
      exact .single TokenKind.noConfusion _
    have onward := rest.ordered
    have own_ordered := Nat.le_trans own.forward own.onward
    rw [tokensIn_append rest.divides.1 (by omega) onward,
      tokensIn_append own.last own_ordered ordered,
      List.append_cons]
    exact ((renders own first_ran).append between).append (ih others_ran)

theorem element_renders (grammatical : parsed.Grammatical) (of : Of parsed layout)
    (sound : Sound parsed layout depth) (placed : Placed parsed tree)
    (first : Divides parsed tree.span.startByte) (last : Divides parsed tree.span.endByte)
    (blank : ∀ c ∈ indent, isSpace c = true)
    (ran : elementText layout (depth + 1) (Node.ofTree parsed tree) indent = .ok text) :
    Renders (tree.tokens parsed.source) text := by
  rw [elementText] at ran
  split at ran
  · next clauses found =>
    rw [of.tokens] at found
    rw [← placed.tokensIn_eq]
    refine clauses_render (Chain.chain_linked grammatical tree placed last clauses found) ?_ ran
    intro start stop clause text at_ ran
    obtain ⟨head, head_ran, ran⟩ := bind_ok ran
    obtain ⟨body, body_ran, ran⟩ := bind_ok ran
    cases ran
    obtain rfl := at_.head
    have head_renders := sound.range at_.first at_.middle blank head_ran
    obtain ⟨trees, block, marks, -⟩ := at_.body
    obtain ⟨shown, rearranged, written⟩ := sound.block block blank body_ran
    rw [tokensIn_append at_.middle at_.forward at_.onward, List.append_assoc, List.append_assoc]
    refine head_renders.append ⟨[Mark.openBracket] ++ (shown ++ [Mark.closeBracket]), ?_, ?_⟩
    · rw [marks]
      exact .keep rearranged
    · exact bracket_written.append (written.then_token TokenKind.noConfusion)
  · have copied : ∀ {text}, rangeText layout depth (Node.ofTree parsed tree).span.extent
        (Node.ofTree parsed tree).span.start.row indent = .ok text →
        Renders (tree.tokens parsed.source) text := by
      intro text ran
      rw [Node.span_of_tree] at ran
      rw [← placed.tokensIn_eq]
      exact sound.range first last blank ran
    split at ran
    · rcases Attempt.orElse_ok ran with laid | ran
      · exact sound.call placed blank laid
      · exact copied ran
    · exact copied ran

end Step

/-- At any depth, what is laid out is made of the tokens of its source. -/
theorem sound_at (grammatical : parsed.Grammatical) (of : Of parsed layout) :
    ∀ depth, Sound parsed layout depth
  | 0 =>
    { call := fun _ _ ran => by rw [callText] at ran; cases ran
      range := fun _ _ _ ran => by rw [rangeText] at ran; cases ran
      block := fun _ _ ran => by rw [blockText] at ran; cases ran
      element := fun _ _ _ _ ran => by rw [elementText] at ran; cases ran }
  | depth + 1 =>
    have sound := sound_at grammatical of depth
    { call := call_renders grammatical of sound
      range := range_renders grammatical of sound
      block := block_renders sound
      element := element_renders grammatical of sound }

/-- The tokens of a source in a span, blanks left out, as they are written. -/
def marksIn (parsed : Parsed) (span : Span) : List Mark :=
  ((Token.tokenize parsed).filter fun token =>
    !token.isBlank && span.contains token.span).map Token.mark

theorem marksIn_eq (grammatical : parsed.Grammatical) (span : Span) :
    marksIn parsed span = (tokensIn parsed span.startByte span.endByte).map Token.mark := by
  rw [tokensIn, ← Token.tokenize_solid grammatical, List.filter_map, List.filter_filter,
    List.map_map, marksIn]
  congr 1
  exact List.filter_congr fun token _ => Bool.and_comm _ _

end Layout

namespace Reformat

/-- What is laid out is written from the tokens of the call, whatever parser gave the tree. -/
theorem confirmed_rearranged {keyword : Text} {parsed : Parsed} {calls : List Node} {call : Node}
    {base text : Text} {depth row : Nat} (grammatical : parsed.Grammatical)
    (sound : parsed.hasErrors = false) (confirms : Confirms keyword parsed calls)
    (mem : call ∈ calls) (blank : ∀ c ∈ base, c = ' ' ∨ c = '\t')
    (ran :
      let layout := Layout.make parsed.source (Token.tokenize parsed) calls
      layout.callText depth call base = .ok text ∨
        layout.rangeText depth call.span.extent row base = .ok text) :
    ∃ marks, Rearranged (Layout.marksIn parsed call.span) marks ∧
      Written false marks text false := by
  have laid := Layout.sound_at grammatical (confirms.layout grammatical sound) depth
  have is_lambda := confirms.is_lambda grammatical sound mem
  have spaces : ∀ c ∈ base, isSpace c = true := by
    intro c among
    rcases blank c among with rfl | rfl <;> decide
  obtain ⟨first, last, -⟩ := Layout.lambda_divides is_lambda
  rw [Layout.marksIn_eq grammatical]
  rcases ran with ran | ran
  · obtain ⟨⟨tree, placed, rfl⟩, -⟩ := is_lambda
    rw [Node.span_of_tree, placed.tokensIn_eq]
    exact laid.call placed spaces ran
  · exact laid.range first last spaces ran

/-- The layout of a confirmed call, and the copy of its source with the calls inside it laid out,
are written from the tokens of the call. These stay in order, except that commas before a bracket
that closes may be missing and that commas between two elements may stand before the comments that
came before them. -/
theorem confirmed_call_rearranged (keyword source : Text) {calls : List Node} {call : Node}
    {base text : Text} {depth row : Nat} (sound : (Python.parse source).hasErrors = false)
    (confirms : Confirms keyword (Python.parse source) calls) (mem : call ∈ calls)
    (blank : ∀ c ∈ base, c = ' ' ∨ c = '\t')
    (ran :
      let layout := Layout.make source (Token.tokenize (Python.parse source)) calls
      layout.callText depth call base = .ok text ∨
        layout.rangeText depth call.span.extent row base = .ok text) :
    ∃ marks, Rearranged (Layout.marksIn (Python.parse source) call.span) marks ∧
      Written false marks text false :=
  confirmed_rearranged (Python.parse_grammatical sound) sound confirms mem blank ran

/-- The theorem applies to a call with a comment before a comma and a comma before the bracket. -/
theorem confirmed_call_rearranged_comment :
    let source := "f = def_(lambda: [a # c\n, b,])\n".toList
    ∃ calls, Confirms defaultKeyword (Python.parse source) calls ∧ ∃ call ∈ calls,
      ∃ marks, Rearranged (Layout.marksIn (Python.parse source) call.span) marks ∧
        Written false marks "def_(lambda: [\n    a,  # c\n    b\n])".toList false := by
  intro source
  let calls := found defaultKeyword source
  let layout := Layout.make source (Token.tokenize (Python.parse source)) calls
  have confirms : Confirms defaultKeyword (Python.parse source) calls := by
    refine ⟨_, Region.scan_is_run _ _, ?_⟩
    rw [if_neg (by decide +kernel)]
    exact confirmedCalls_eq (by decide +kernel) _ _
  have laid : (calls.any fun call => (layout.callText 9 call []).toOption ==
      some "def_(lambda: [\n    a,  # c\n    b\n])".toList) = true := by decide +kernel
  obtain ⟨call, mem, ran⟩ := List.any_eq_true.mp laid
  have ran := ok_of_to_option (eq_of_beq ran)
  exact ⟨calls, confirms, call, mem, @confirmed_call_rearranged defaultKeyword source calls call []
    _ 9 0 (by decide +kernel) confirms mem nofun (.inl ran)⟩

end Reformat

end LambdaLayout
