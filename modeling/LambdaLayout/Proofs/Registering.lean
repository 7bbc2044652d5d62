import LambdaLayout.Region
import Mathlib.Logic.Basic

/-!
Adding rules to a table, one call after the other. A rule that asks for the text of anything but a
name is refused, and so is one with the slots of a rule that was taken before; any other is taken. A
refused rule leaves the table as it was, so what is found under a key is what the call put there
that was taken, and the table has one rule for each of these calls.
-/

namespace LambdaLayout.Dispatch

namespace Key

variable {σ : Type}

/-- The key asks for a text only if it asks for names. -/
def WellFormed (key : Key σ) : Prop := key.text = none ∨ key.kind = some .name

theorem asksName_iff (key : Key σ) : key.asksName = true ↔ key.kind = some .name := by
  unfold asksName
  cases key.kind with
  | none => simp
  | some kind => simp [TokenKind.isNamed]

/-- The key of a rule that is taken is stored as it is. -/
theorem WellFormed.canonical_eq {key : Key σ} (wellFormed : key.WellFormed) :
    key.canonical = key := by
  unfold canonical
  obtain ⟨kind, text, state⟩ := key
  rcases wellFormed with none | name
  · simp only at none
    simp [none]
  · simp [(asksName_iff _).mpr name]

end Key

/-- No two of the rules have the same slots. -/
def ConflictFree {σ α ρ : Type} (rules : List (Key σ × Handler σ α ρ)) : Prop :=
  rules.Pairwise fun left right => left.1 ≠ right.1

/-- Without conflicts a rule is found by its key. -/
theorem find_rule_iff {σ α ρ : Type} [DecidableEq σ] {rules : List (Key σ × Handler σ α ρ)}
    (distinct : ConflictFree rules) {key : Key σ} {rule : Key σ × Handler σ α ρ} :
    (rules.find? fun rule => rule.1 == key) = some rule ↔ rule ∈ rules ∧ rule.1 = key := by
  induction distinct with
  | nil => simp
  | @cons first rest apart _ ih =>
    by_cases here : first.1 = key
    · have later : rule ∈ rest → rule.1 ≠ key := fun mem same =>
        apart rule mem (here.trans same.symm)
      simp only [List.find?_cons, here, BEq.rfl, Option.some.injEq, List.mem_cons]
      constructor
      · rintro rfl
        exact ⟨.inl rfl, here⟩
      · rintro ⟨rfl | mem, same⟩
        · rfl
        · exact absurd same (later mem)
    · have other : rule.1 = key → rule ≠ first := by
        rintro same rfl
        exact here same
      rw [List.find?_cons_of_neg (by simpa using here), ih, List.mem_cons]
      constructor
      · rintro ⟨mem, same⟩
        exact ⟨.inr mem, same⟩
      · rintro ⟨is | mem, same⟩
        · exact absurd is (other same)
        · exact ⟨mem, same⟩

namespace Table

variable {σ α ρ : Type} [DecidableEq σ]

theorem find_none_iff {table : Table σ α ρ} {key : Key σ} :
    table.find? key = none ↔ ∀ rule ∈ table.rules, rule.1 ≠ key := by
  simp [find?]

variable [Shown σ]

/-- All that a call can do. -/
theorem register_cases (table : Table σ α ρ) (key : Key σ) (handler : Handler σ α ρ) :
    (¬key.WellFormed ∧
        table.register key handler = .error (.stringRequiresName (Key.kindText key.kind))) ∨
      (key.WellFormed ∧ (∃ rule ∈ table.rules, rule.1 = key) ∧
        table.register key handler = .error (.duplicateRule key.render)) ∨
      (key.WellFormed ∧ (∀ rule ∈ table.rules, rule.1 ≠ key) ∧
        table.register key handler = .ok { rules := (key, handler) :: table.rules }) := by
  unfold register
  by_cases wellFormed : key.WellFormed
  · have passes : ¬(key.text.isSome && !key.asksName) = true := by
      rcases wellFormed with none | name
      · simp [none]
      · simp [(Key.asksName_iff key).mpr name]
    rw [if_neg passes, wellFormed.canonical_eq]
    by_cases fresh : ∀ rule ∈ table.rules, rule.1 ≠ key
    · exact .inr (.inr ⟨wellFormed, fresh, by simp [find_none_iff.mpr fresh]⟩)
    · have found : (table.find? key).isSome = true := by
        rw [Option.isSome_iff_ne_none, Ne, find_none_iff]
        exact fresh
      have known : ∃ rule ∈ table.rules, rule.1 = key := by
        simpa only [ne_eq, not_forall, exists_prop, not_not] using fresh
      exact .inr (.inl ⟨wellFormed, known, by simp [found]⟩)
  · have stopped : (key.text.isSome && !key.asksName) = true := by
      rw [Key.WellFormed, not_or, ← Key.asksName_iff] at wellFormed
      simpa [Option.isSome_iff_ne_none] using wellFormed
    exact .inl ⟨wellFormed, if_pos stopped⟩

/-- The table after a call: with the rule if it is taken, and as it was if it is refused. -/
def receive (table : Table σ α ρ) (call : Key σ × Handler σ α ρ) : Table σ α ρ :=
  match table.register call.1 call.2 with
  | .ok next => next
  | .error _ => table

/-- The table after a sequence of calls, from an empty one on. -/
def built (calls : List (Key σ × Handler σ α ρ)) : Table σ α ρ := calls.foldl receive empty

/-- The calls that are taken, when a sequence of calls meets a table. -/
def acceptedFrom (table : Table σ α ρ) :
    List (Key σ × Handler σ α ρ) → List (Key σ × Handler σ α ρ)
  | [] => []
  | call :: rest =>
    match table.register call.1 call.2 with
    | .ok next => call :: acceptedFrom next rest
    | .error _ => acceptedFrom table rest

/-- The calls of a sequence that are taken, from an empty table on. -/
def accepted (calls : List (Key σ × Handler σ α ρ)) : List (Key σ × Handler σ α ρ) :=
  acceptedFrom empty calls

theorem receive_ok {table next : Table σ α ρ} {call : Key σ × Handler σ α ρ}
    (taken : table.register call.1 call.2 = .ok next) : table.receive call = next := by
  simp [receive, taken]

theorem receive_error {table : Table σ α ρ} {call : Key σ × Handler σ α ρ} {fault : Fault}
    (refused : table.register call.1 call.2 = .error fault) : table.receive call = table := by
  simp [receive, refused]

theorem built_append (front back : List (Key σ × Handler σ α ρ)) :
    built (front ++ back) = back.foldl receive (built front) := by
  simp [built, List.foldl_append]

theorem acceptedFrom_append (table : Table σ α ρ) (front back : List (Key σ × Handler σ α ρ)) :
    acceptedFrom table (front ++ back) =
      acceptedFrom table front ++ acceptedFrom (front.foldl receive table) back := by
  induction front generalizing table with
  | nil => rfl
  | cons call rest ih =>
    rw [List.cons_append, acceptedFrom, acceptedFrom, List.foldl_cons]
    cases outcome : table.register call.1 call.2 with
    | ok next => simp [receive_ok outcome, ih]
    | error fault => simp [receive_error outcome, ih]

theorem acceptedFrom_sublist (table : Table σ α ρ) (calls : List (Key σ × Handler σ α ρ)) :
    (acceptedFrom table calls).Sublist calls := by
  induction calls generalizing table with
  | nil => exact .slnil
  | cons call rest ih =>
    rw [acceptedFrom]
    split
    · exact (ih _).cons_cons call
    · exact (ih _).cons call

/-- The rules of the table are the calls that were taken, the latest first. -/
theorem rules_foldl (table : Table σ α ρ) (calls : List (Key σ × Handler σ α ρ)) :
    (calls.foldl receive table).rules = (acceptedFrom table calls).reverse ++ table.rules := by
  induction calls generalizing table with
  | nil => rfl
  | cons call rest ih =>
    rw [List.foldl_cons, acceptedFrom, ih]
    rcases register_cases table call.1 call.2 with
      ⟨-, refused⟩ | ⟨-, -, refused⟩ | ⟨-, -, taken⟩
    · simp [receive_error refused, refused]
    · simp [receive_error refused, refused]
    · simp [receive_ok taken, taken]

theorem rules_built (calls : List (Key σ × Handler σ α ρ)) :
    (built calls).rules = (accepted calls).reverse :=
  (rules_foldl empty calls).trans (List.append_nil _)

theorem mem_rules_built {calls : List (Key σ × Handler σ α ρ)} {rule : Key σ × Handler σ α ρ} :
    rule ∈ (built calls).rules ↔ rule ∈ accepted calls := by
  rw [rules_built, List.mem_reverse]

/-- The keys of the table are well formed, and no two of them are the same. -/
structure Regular (table : Table σ α ρ) : Prop where
  distinct : ConflictFree table.rules
  wellFormed : ∀ rule ∈ table.rules, rule.1.WellFormed

theorem Regular.receive {table : Table σ α ρ} (regular : table.Regular)
    (call : Key σ × Handler σ α ρ) : (table.receive call).Regular := by
  rcases register_cases table call.1 call.2 with
    ⟨-, refused⟩ | ⟨-, -, refused⟩ | ⟨wellFormed, fresh, taken⟩
  · rw [receive_error refused]
    exact regular
  · rw [receive_error refused]
    exact regular
  · rw [receive_ok taken]
    constructor
    · apply List.pairwise_cons.mpr
      exact ⟨fun rule mem same => fresh rule mem same.symm, regular.distinct⟩
    · intro rule mem
      rcases List.mem_cons.mp mem with rfl | mem
      · exact wellFormed
      · exact regular.wellFormed rule mem

theorem Regular.foldl {table : Table σ α ρ} (regular : table.Regular)
    (calls : List (Key σ × Handler σ α ρ)) : (calls.foldl Table.receive table).Regular := by
  induction calls generalizing table with
  | nil => exact regular
  | cons call rest ih => exact ih (regular.receive call)

/-- Whatever the calls are, the keys of the table stay well formed and different. -/
theorem built_regular (calls : List (Key σ × Handler σ α ρ)) : (built calls).Regular :=
  Regular.foldl ⟨.nil, nofun⟩ calls

omit [Shown σ] in
theorem Regular.find_iff {table : Table σ α ρ} (regular : table.Regular) {key : Key σ}
    {handler : Handler σ α ρ} : table.find? key = some handler ↔ (key, handler) ∈ table.rules := by
  unfold find?
  rw [Option.map_eq_some_iff]
  constructor
  · rintro ⟨rule, found, rfl⟩
    obtain ⟨mem, rfl⟩ := (find_rule_iff regular.distinct).mp found
    exact mem
  · intro mem
    exact ⟨(key, handler), (find_rule_iff regular.distinct).mpr ⟨mem, rfl⟩, rfl⟩

/-- What is found under a key is what a call that was taken put there. -/
theorem find_built_iff {calls : List (Key σ × Handler σ α ρ)} {key : Key σ}
    {handler : Handler σ α ρ} :
    (built calls).find? key = some handler ↔ (key, handler) ∈ accepted calls := by
  rw [(built_regular calls).find_iff, mem_rules_built]

section Outcomes

variable {before : List (Key σ × Handler σ α ρ)} {key : Key σ} {handler : Handler σ α ρ}

theorem register_text_iff (table : Table σ α ρ) :
    table.register key handler = .error (.stringRequiresName (Key.kindText key.kind)) ↔
      ¬key.WellFormed := by
  rcases register_cases table key handler with
    ⟨ill, refused⟩ | ⟨wellFormed, -, refused⟩ | ⟨wellFormed, -, taken⟩
  · simp [refused, ill]
  · simp [refused, wellFormed]
  · simp [taken, wellFormed]

theorem register_duplicate_iff :
    (built before).register key handler = .error (.duplicateRule key.render) ↔
      key.WellFormed ∧ ∃ earlier ∈ accepted before, earlier.1 = key := by
  rcases register_cases (built before) key handler with
    ⟨ill, refused⟩ | ⟨wellFormed, ⟨rule, mem, same⟩, refused⟩ | ⟨-, fresh, taken⟩
  · simp [refused, ill]
  · simp only [refused, true_iff]
    exact ⟨wellFormed, rule, mem_rules_built.mp mem, same⟩
  · simp only [taken, reduceCtorEq, false_iff, not_and, not_exists]
    exact fun _ earlier mem => fresh earlier (mem_rules_built.mpr mem)

/-- A call is taken exactly if its key is well formed and no call that was taken has its slots. -/
theorem register_ok_iff :
    (∃ next, (built before).register key handler = .ok next) ↔
      key.WellFormed ∧ ∀ earlier ∈ accepted before, earlier.1 ≠ key := by
  rcases register_cases (built before) key handler with
    ⟨ill, refused⟩ | ⟨-, ⟨rule, mem, same⟩, refused⟩ | ⟨wellFormed, fresh, taken⟩
  · simp [refused, ill]
  · simp only [refused, reduceCtorEq, exists_false, false_iff, not_and, not_forall]
    exact fun _ => ⟨rule, mem_rules_built.mp mem, not_not.mpr same⟩
  · simp only [taken, wellFormed, true_and, Except.ok.injEq, exists_eq']
    exact iff_of_true trivial fun earlier mem => fresh earlier (mem_rules_built.mpr mem)

/-- A call that is refused leaves the table as it is, and every later one as it would be. -/
theorem built_refused {fault : Fault}
    (refused : (built before).register key handler = .error fault)
    (later : List (Key σ × Handler σ α ρ)) :
    built (before ++ (key, handler) :: later) = built (before ++ later) := by
  have same : (built before).receive (key, handler) = built before := receive_error refused
  rw [built_append, built_append, List.foldl_cons, same]

/-- A call that is taken stays among those that were, whatever follows. -/
theorem mem_accepted {later : List (Key σ × Handler σ α ρ)} {next : Table σ α ρ}
    (taken : (built before).register key handler = .ok next) :
    (key, handler) ∈ accepted (before ++ (key, handler) :: later) := by
  have taken : (before.foldl receive empty).register key handler = .ok next := taken
  simp [accepted, acceptedFrom_append, acceptedFrom, taken]

end Outcomes

/-- Of the calls on an empty table one fails for its text exactly if it asks for the text of
anything but a name, and of the others one fails as a duplicate exactly if a call that was taken has
its three slots; all the rest are taken. A call that fails might as well not have been made: the
table is the same, and so is every later one. The table has one rule for each call that was taken,
and under a key it has the handler of such a call and no other, whatever follows. -/
theorem register_history (before later : List (Key σ × Handler σ α ρ)) (key : Key σ)
    (handler : Handler σ α ρ) :
    ((built before).register key handler = .error (.stringRequiresName (Key.kindText key.kind)) ↔
        key.text ≠ none ∧ key.kind ≠ some .name) ∧
      ((built before).register key handler = .error (.duplicateRule key.render) ↔
        (key.text = none ∨ key.kind = some .name) ∧ ∃ earlier ∈ accepted before, earlier.1 = key) ∧
      ((∃ next, (built before).register key handler = .ok next) ↔
        (key.text = none ∨ key.kind = some .name) ∧ ∀ earlier ∈ accepted before, earlier.1 ≠ key) ∧
      (∀ fault, (built before).register key handler = .error fault →
        built (before ++ [(key, handler)]) = built before ∧
          built (before ++ (key, handler) :: later) = built (before ++ later)) ∧
      (built before).size = (accepted before).length ∧
      ((built before).find? key = some handler ↔ (key, handler) ∈ accepted before) ∧
      ∀ next, (built before).register key handler = .ok next →
        (built (before ++ (key, handler) :: later)).find? key = some handler := by
  refine ⟨?_, register_duplicate_iff, register_ok_iff, ?_, ?_, find_built_iff, ?_⟩
  · rw [register_text_iff, Key.WellFormed, not_or]
  · intro fault refused
    constructor
    · simpa using built_refused refused []
    · exact built_refused refused later
  · rw [size, rules_built, List.length_reverse]
  · intro next taken
    exact find_built_iff.mpr (mem_accepted taken)

/-- A second rule for the name x is refused, and the first one stays. -/
theorem register_history_duplicate :
    let key : Key Region.State := { kind := some .name, text := some "x".toList }
    let first : Handler Region.State Unit Nat := fun context _ => (1, context)
    let second : Handler Region.State Unit Nat := fun context _ => (2, context)
    (built [(key, first)]).register key second =
        .error (.duplicateRule "(Name, \"x\", *)".toList) ∧
      built [(key, first), (key, second)] = built [(key, first)] ∧
      (built [(key, first), (key, second)]).find? key = some first := by
  intro key first second
  obtain ⟨-, duplicate, -, unchanged, -⟩ := register_history [(key, first)] [] key second
  obtain ⟨-, -, -, -, -, -, kept⟩ := register_history [] [(key, second)] key first
  have refused := duplicate.mpr ⟨.inr rfl, (key, first), List.mem_singleton.mpr rfl, rfl⟩
  exact ⟨refused, (unchanged _ refused).1, kept _ rfl⟩

end Table

end LambdaLayout.Dispatch
