import LambdaLayout.Proofs.ReadCompounds
import LambdaLayout.Python.Parse

/-!
Parsing gives a tree that follows the grammar, for every source that has one: the rules keep their
promises at every depth, so the statements of the source lie one after the other from its start.
-/

namespace LambdaLayout.Python

open LambdaLayout.Python.Tree
open LambdaLayout.Python.Parser

section

variable {source : Text}

/-- The rules keep their promises, however deep they may be nested. -/
theorem grammar_obeys (source : Text) (depth : Nat) : Obeys source (grammar depth) := by
  induction depth with
  | zero => exact fun _ _ _ => .failure
  | succ depth obeys =>
    intro rule state valid
    cases rule with
    | expression level after =>
      exact expression_gives obeys level after (fun _ valid => obeys.expression valid _ _) valid
    | iterable after => exact expression_gives obeys 2 after (fun now valid => obeys _ now valid) valid
    | arithmetic level after => exact arithmetic_gives obeys level after valid
    | operand after => exact operand_gives obeys after valid
    | assigned after => exact assigned_gives obeys after valid
    | typeHint after constrained => exact typeHint_gives obeys valid after constrained
    | interpolation => exact interpolation_gives obeys valid
    | casePattern after => exact casePattern_gives obeys after valid
    | simplePattern after =>
      exact (simplePattern_gives obeys after valid).mono fun _ _ read => read.of_header
    | statement inBlock => exact statement_gives obeys inBlock valid
    | block => exact block_gives obeys valid

/-- The first token of a source. -/
def firstLexeme (source : Text) : Lexeme :=
  ((Reader.start source).read (statementStart false)).lexeme

/-- What is read of a source: the pieces lie from its start on, none of them is only a mark, and a
named node opens them unless the source holds no token. -/
structure Module (source : Text) (pieces : Pieces) : Prop where
  laid : ∃ stop, Laid source 0 pieces stop
  filled : pieces.trees = [] → pieces = []
  opens : firstLexeme source = .finish ∨ pieces.opensNamed = true

/-- What is asked for first at the start of a source is its first token. -/
theorem peekLexeme_start {state : ParseState} (valid : state.Valid source) :
    Gives (peekLexeme (statementStart false)) state fun lexeme next => Stays source state next ∧
      next.Sees lexeme ∧ (state = ⟨Reader.start source, none⟩ → lexeme = firstLexeme source) := by
  intro lexeme next ran
  obtain ⟨stays, sees, -⟩ := peekLexeme_gives valid _ lexeme next ran
  refine ⟨stays, sees, ?_⟩
  rintro rfl
  cases ran
  rfl

/-- Further pieces are added at the end. -/
theorem Module.append {pieces more : Pieces} (module : Module source pieces)
    (laid : ∃ stop, Laid source 0 (pieces ++ more) stop) (filled : more.trees = [] → more = []) :
    Module source (pieces ++ more) where
  laid := laid
  filled := by
    rw [Pieces.trees_append, List.append_eq_nil_iff]
    rintro ⟨left, right⟩
    rw [module.filled left, filled right, List.append_nil]
  opens := module.opens.imp_right fun opens => Pieces.opensNamed_append opens more

theorem statements_gives {rules : Grammar} (obeys : Obeys source rules) :
    Gives (statements rules) ⟨Reader.start source, none⟩ fun pieces _ => Module source pieces := by
  let start : ParseState := ⟨Reader.start source, none⟩
  have valid : start.Valid source := ⟨Cursor.within_start source, nofun⟩
  -- Once something was read, the pieces are those of a module.
  let sofar := fun (read : Pieces × Bool) now =>
    (Module source read.1 ∨ read = ([], false) ∧ now = start) ∧
      (read.2 = false → Reach source .loose 0 read.1 now)
  refine (Gives.extendTo sofar (fun read _ => Module source read.1)
    ⟨.inr ⟨rfl, rfl⟩, fun _ => Reach.start valid⟩ ?_).bind fun _ _ read => .pure read
  rintro ⟨pieces, ended⟩ now ⟨known, reach⟩
  dsimp only at known reach ⊢
  split
  · next done =>
    refine .pure (known.resolve_right ?_)
    rintro ⟨same, -⟩
    cases same
    cases done
  · next goes =>
    obtain rfl : ended = false := by simpa using goes
    refine (peekLexeme_start (reach rfl).valid).bind fun lexeme next seen => ?_
    obtain ⟨stays, sees, first⟩ := seen
    have reach := (reach rfl).stays stays
    split
    · refine (next_gives reach.valid sees).bind fun lexed last ran => .pure ?_
      obtain ⟨rfl, -, given⟩ := ran
      obtain ⟨middle, extras, -⟩ := extras_laid given
      have laid := reach.laid.append extras
      have filled : (extrasOf lexed).trees = [] → extrasOf lexed = [] := by
        rw [extrasOf, Pieces.trees_map]
        exact List.map_eq_nil_iff.mpr
      refine ⟨.inl ?_, Bool.noConfusion⟩
      rcases known with module | ⟨same, begun⟩
      · exact module.append ⟨middle, laid⟩ filled
      · cases same
        exact ⟨⟨middle, laid⟩, filled, .inl (first begun).symm⟩
    · refine (obeys (.statement false) next reach.valid).bind fun more last read => .pure ?_
      have whole : Reach source .loose 0 (pieces ++ more) last :=
        reach.append ⟨read.1.valid, read.1.laid, trivial, trivial⟩
      have filled : more.trees = [] → more = [] := by
        intro none
        have opens := read.2
        rw [Pieces.opensNamed, Pieces.front?, none] at opens
        cases opens
      refine ⟨.inl ?_, fun _ => whole⟩
      rcases known with module | ⟨same, -⟩
      · exact module.append ⟨_, whole.laid⟩ filled
      · cases same
        exact ⟨⟨_, whole.laid⟩, filled, .inr read.2⟩

/-- The tree of a source is a module over what was read, or over a single repair. -/
theorem tree_of_source (source : Text) :
    (∃ pieces, (parse source).tree = moduleOf source pieces ∧ Module source pieces) ∨
      (parse source).tree = moduleOf source [.tree (repair source)] := by
  cases ran : (statements (grammar (depthOf source))).run ⟨Reader.start source, none⟩ with
  | none => exact .inr (by simp only [parse, treeOf, read?, ran, Option.map_none, Option.getD_none])
  | some result =>
    obtain ⟨pieces, last⟩ := result
    exact .inl ⟨pieces,
      by simp only [parse, treeOf, read?, ran, Option.map_some, Option.getD_some],
      statements_gives (grammar_obeys source _) pieces last ran⟩

/-- A closing bracket is taken to be missing only where the source follows the grammar with the
bracket put in. -/
theorem missing_reads {source : Text} {tree : Tree} (found : missing? source = some tree) :
    ∃ closing width, (read? (source.insertIdx width closing)).isSome ∧
      tree = .node
        { kind := String.singleton closing
          named := false
          standing := .missing
          span := ((Cursor.start source).skip width).here } [] := by
  simp only [missing?, Option.bind_eq_bind, Option.bind_eq_some_iff] at found
  obtain ⟨⟨_, closing⟩, -, width, put, found⟩ := found
  have follows : (read? (source.insertIdx width closing)).isSome := by
    simpa using List.find?_some put
  refine ⟨closing, width, follows, ?_⟩
  split at found
  · cases found
  · exact (Option.some.inj found).symm

/-- A repair is a leaf that counts as an error. -/
theorem repair_leaf (source : Text) :
    (repair source).hasError = true ∧ (repair source).children = [] := by
  rw [repair]
  cases found : missing? source with
  | none => exact ⟨rfl, rfl⟩
  | some tree =>
    obtain ⟨closing, width, -, rfl⟩ := missing_reads found
    exact ⟨rfl, rfl⟩

/-- A source that could not be read has errors. -/
theorem errors_of_repair {source : Text}
    (failed : (parse source).tree = moduleOf source [.tree (repair source)]) :
    (parse source).hasErrors = true := by
  simp [Parsed.hasErrors, failed, moduleOf, Piece.tree?, hasError, anyError, repair_leaf]

theorem errors_of_unread {source : Text} (unread : read? source = none) :
    (parse source).hasErrors = true := by
  apply errors_of_repair
  rw [parse, treeOf, unread]
  rfl

/-- The tree of a source without syntax errors is a module over what was read. -/
theorem module_of_sound (sound : (parse source).hasErrors = false) :
    ∃ pieces, (parse source).tree = moduleOf source pieces ∧ Module source pieces := by
  refine (tree_of_source source).resolve_right fun failed => ?_
  rw [errors_of_repair failed] at sound
  cases sound

/-- A source without syntax errors has a tree that follows the grammar. -/
theorem parse_grammatical (sound : (parse source).hasErrors = false) :
    (parse source).Grammatical := by
  obtain ⟨pieces, tree, module⟩ := module_of_sound sound
  obtain ⟨stop, laid⟩ := module.laid
  refine ⟨_, _, stop, tree, rfl, fun none => ?_, laid.lies⟩
  rw [module.filled none]
  exact Nat.le_refl _

/-- Where there is a token and no error, a named node comes first, but for comments and line
continuations. -/
theorem parse_front (sound : (parse source).hasErrors = false)
    (filled : firstLexeme source ≠ .finish) :
    ∃ tree, (parse source).tree.children.find? (fun tree => !tree.isExtra) = some tree ∧
      tree.label.named = true := by
  obtain ⟨pieces, tree, module⟩ := module_of_sound sound
  rw [tree]
  exact (Option.any_eq_true ..).mp (module.opens.resolve_left filled)

theorem parse_lawful : Lawful parse := ⟨fun _ => rfl, fun _ => parse_grammatical⟩

end

end LambdaLayout.Python
