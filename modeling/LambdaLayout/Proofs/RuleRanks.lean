import LambdaLayout.Proofs.Registering

/-!
Which rule a token is dispatched to. A rule fits a token if each of its slots is empty or has what
the token or the state has. Of the fitting rules that are looked up at all the one of the highest
rank is run, and there is at most one of each rank, so neither the order in which the rules were
added nor blanks and comments between the tokens make a difference to a pass.
-/

namespace LambdaLayout.Dispatch

namespace Key

variable {σ : Type}

/-- Each slot of the key is empty or has what the token or the state has. -/
structure Fits (key : Key σ) (token : Token) (here : σ) : Prop where
  kind : key.kind = none ∨ key.kind = some token.kind
  text : key.text = none ∨ key.text = some token.text
  state : key.state = none ∨ key.state = some here

/-- No token is looked up under the key without slots, nor under the one for all names in any
state. -/
def IsReached (key : Key σ) : Prop := key ≠ ⟨none, none, none⟩ ∧ key ≠ ⟨some .name, none, none⟩

/-- The rank of a key, the highest being the first: category, text and state; category and state;
the state alone; any state. -/
def tier (key : Key σ) : Nat :=
  match key.kind, key.text, key.state with
  | some _, some _, some _ => 0
  | some _, none, some _ => 1
  | none, _, some _ => 2
  | _, _, none => 3

end Key

section Probes

variable {σ : Type} {token : Token} {here : σ} {key : Key σ}

theorem probes_of_name (name : token.kind = .name) :
    Table.probes token here =
      [⟨some .name, some token.text, some here⟩, ⟨some .name, none, some here⟩,
       ⟨none, none, some here⟩, ⟨some .name, some token.text, none⟩] := by
  simp [Table.probes, Key.canonical, Key.asksName, TokenKind.isNamed, name]

theorem probes_of_other (other : token.kind ≠ .name) :
    Table.probes token here =
      [⟨some token.kind, none, some here⟩, ⟨some token.kind, none, some here⟩,
       ⟨none, none, some here⟩, ⟨some token.kind, none, none⟩] := by
  simp [Table.probes, Key.canonical, Key.asksName, TokenKind.isNamed, other]

theorem mem_probes_of_name (name : token.kind = .name) :
    key ∈ Table.probes token here ↔
      key = ⟨some .name, some token.text, some here⟩ ∨ key = ⟨some .name, none, some here⟩ ∨
        key = ⟨none, none, some here⟩ ∨ key = ⟨some .name, some token.text, none⟩ := by
  simp [probes_of_name name]

theorem mem_probes_of_other (other : token.kind ≠ .name) :
    key ∈ Table.probes token here ↔
      key = ⟨some token.kind, none, some here⟩ ∨ key = ⟨none, none, some here⟩ ∨
        key = ⟨some token.kind, none, none⟩ := by
  simp [probes_of_other other]

/-- A token is looked up under the keys that fit it, but for those that are never reached. -/
theorem mem_probes_iff (wellFormed : key.WellFormed) :
    key ∈ Table.probes token here ↔ key.Fits token here ∧ key.IsReached := by
  constructor
  · intro mem
    by_cases name : token.kind = .name
    · rcases (mem_probes_of_name name).mp mem with rfl | rfl | rfl | rfl <;>
        exact ⟨⟨by simp [name], by simp, by simp⟩, by simp [Key.IsReached]⟩
    · rcases (mem_probes_of_other name).mp mem with rfl | rfl | rfl <;>
        exact ⟨⟨by simp, by simp, by simp⟩, by simp [Key.IsReached, name]⟩
  · obtain ⟨kind, text, state⟩ := key
    rintro ⟨⟨kind_fits, text_fits, state_fits⟩, reached⟩
    simp only at kind_fits text_fits state_fits
    -- Of the eight ways to leave slots empty those are left that make a key of the token.
    by_cases name : token.kind = .name
    · rw [mem_probes_of_name name]
      rcases kind_fits with rfl | rfl <;> rcases text_fits with rfl | rfl <;>
        rcases state_fits with rfl | rfl <;> simp_all [Key.IsReached, Key.WellFormed]
    · rw [mem_probes_of_other name]
      rcases kind_fits with rfl | rfl <;> rcases text_fits with rfl | rfl <;>
        rcases state_fits with rfl | rfl <;> simp_all [Key.IsReached, Key.WellFormed]

/-- The keys of a token come by rank. -/
theorem probes_sorted (token : Token) (here : σ) :
    (Table.probes token here).Pairwise fun left right => left.tier ≤ right.tier := by
  by_cases name : token.kind = .name
  · simp [probes_of_name name, Key.tier]
  · simp [probes_of_other name, Key.tier]

/-- Under one rank a token has one key. -/
theorem probes_apart {other : Key σ} (first : key ∈ Table.probes token here)
    (second : other ∈ Table.probes token here) (same : key.tier = other.tier) : key = other := by
  by_cases name : token.kind = .name
  · rcases (mem_probes_of_name name).mp first with rfl | rfl | rfl | rfl <;>
      rcases (mem_probes_of_name name).mp second with rfl | rfl | rfl | rfl <;>
      first | rfl | cases same
  · rcases (mem_probes_of_other name).mp first with rfl | rfl | rfl <;>
      rcases (mem_probes_of_other name).mp second with rfl | rfl | rfl <;>
      first | rfl | cases same

end Probes

/-- The rule is for the token in the state: it fits, tokens are looked up under its key, and no rule
of which this holds ranks higher. -/
structure IsChosen {σ α ρ : Type} (rules : List (Key σ × Handler σ α ρ)) (token : Token) (here : σ)
    (rule : Key σ × Handler σ α ρ) : Prop where
  registered : rule ∈ rules
  fits : rule.1.Fits token here
  reached : rule.1.IsReached
  highest : ∀ other ∈ rules, other.1.Fits token here → other.1.IsReached →
    ¬other.1.tier < rule.1.tier

theorem IsChosen.congr {σ α ρ : Type} {rules others : List (Key σ × Handler σ α ρ)} {token : Token}
    {here : σ} {rule : Key σ × Handler σ α ρ} (same : ∀ rule, rule ∈ rules ↔ rule ∈ others)
    (chosen : IsChosen rules token here rule) : IsChosen others token here rule where
  registered := (same rule).mp chosen.registered
  fits := chosen.fits
  reached := chosen.reached
  highest := fun other mem => chosen.highest other ((same other).mpr mem)

namespace Table

variable {σ α ρ : Type} [DecidableEq σ] {table : Table σ α ρ} {token : Token} {here : σ}
  {rule : Key σ × Handler σ α ρ}

/-- The rule that is run for a token in a state. -/
def ruleFor? (table : Table σ α ρ) (token : Token) (here : σ) : Option (Key σ × Handler σ α ρ) :=
  (probes token here).findSome? fun key => (table.find? key).map fun handler => (key, handler)

theorem dispatch_insignificant (blank : token.isInsignificant = true) (context : Context σ α) :
    table.dispatch context token = (none, context) := by
  simp [dispatch, blank]

/-- A token is given to the handler of its rule, and without a rule the context is kept. -/
theorem dispatch_significant (solid : token.isInsignificant = false) (context : Context σ α) :
    table.dispatch context token =
      match table.ruleFor? token context.state with
      | some rule => (some (rule.2 context token).1, (rule.2 context token).2)
      | none => (none, context) := by
  have handlers : (probes token context.state).findSome? table.find? =
      (table.ruleFor? token context.state).map fun rule => rule.2 := by
    simp [ruleFor?, List.map_findSome?, Function.comp_def]
  rw [dispatch, solid, if_neg Bool.false_ne_true, handlers]
  cases table.ruleFor? token context.state <;> rfl

/-- The rule that is run is among those of the table, and it is for the token. -/
theorem Regular.chosen_of_ruleFor (regular : table.Regular)
    (found : table.ruleFor? token here = some rule) : IsChosen table.rules token here rule := by
  obtain ⟨before, key, after, keys, own, missed⟩ := List.findSome?_eq_some_iff.mp found
  obtain ⟨handler, held, rfl⟩ := Option.map_eq_some_iff.mp own
  have mem := regular.find_iff.mp held
  have among : key ∈ probes token here := by simp [keys]
  obtain ⟨fits, reached⟩ := (mem_probes_iff (regular.wellFormed _ mem)).mp among
  refine ⟨mem, fits, reached, fun other there other_fits other_reached => ?_⟩
  have looked : other.1 ∈ probes token here :=
    (mem_probes_iff (regular.wellFormed other there)).mpr ⟨other_fits, other_reached⟩
  have sorted := probes_sorted token here
  rw [keys] at looked sorted
  obtain ⟨-, sorted, -⟩ := List.pairwise_append.mp sorted
  apply Nat.not_lt.mpr
  rcases List.mem_append.mp looked with earlier | later
  · -- It would have been found before.
    have absent := missed _ earlier
    rw [regular.find_iff.mpr there] at absent
    cases absent
  · rcases List.mem_cons.mp later with same | later
    · exact Nat.le_of_eq (congrArg Key.tier same.symm)
    · exact (List.pairwise_cons.mp sorted).1 _ later

omit [DecidableEq σ] in
theorem Regular.chosen_looked_up (regular : table.Regular)
    (chosen : IsChosen table.rules token here rule) : rule.1 ∈ probes token here :=
  (mem_probes_iff (regular.wellFormed rule chosen.registered)).mpr ⟨chosen.fits, chosen.reached⟩

/-- There is one rule at most for a token. -/
theorem Regular.chosen_unique (regular : table.Regular) {other : Key σ × Handler σ α ρ}
    (first : IsChosen table.rules token here rule)
    (second : IsChosen table.rules token here other) : rule = other := by
  have low := first.highest other second.registered second.fits second.reached
  have high := second.highest rule first.registered first.fits first.reached
  have same : rule.1 = other.1 :=
    probes_apart (regular.chosen_looked_up first) (regular.chosen_looked_up second) (by omega)
  have found := (find_rule_iff regular.distinct).mpr ⟨first.registered, same⟩
  rw [(find_rule_iff regular.distinct).mpr ⟨second.registered, rfl⟩] at found
  exact (Option.some.inj found).symm

/-- The rule that is run is the one for the token. -/
theorem Regular.ruleFor_iff (regular : table.Regular) :
    table.ruleFor? token here = some rule ↔ IsChosen table.rules token here rule := by
  constructor
  · exact regular.chosen_of_ruleFor
  · intro chosen
    cases found : table.ruleFor? token here with
    | some other => rw [regular.chosen_unique chosen (regular.chosen_of_ruleFor found)]
    | none =>
      have missed := List.findSome?_eq_none_iff.mp found _ (regular.chosen_looked_up chosen)
      rw [regular.find_iff.mpr chosen.registered] at missed
      cases missed

/-- Blanks and comments make no difference to a pass. -/
theorem dispatchAll_significant (table : Table σ α ρ) (context : Context σ α)
    (tokens : List Token) :
    table.dispatchAll context (tokens.filter fun token => !token.isInsignificant) =
      table.dispatchAll context tokens := by
  induction tokens generalizing context with
  | nil => rfl
  | cons token rest ih =>
    cases blank : token.isInsignificant with
    | true =>
      rw [List.filter_cons_of_neg (by simp [blank]), ih, dispatchAll,
        dispatch_insignificant blank]
      rfl
    | false => simp [blank, dispatchAll, ih]

/-- Two tables in which the same is found make the same passes. -/
theorem dispatchAll_congr {other : Table σ α ρ} (same : table.find? = other.find?) :
    table.dispatchAll = other.dispatchAll := by
  have step : table.dispatch = other.dispatch := by
    funext context token
    simp [dispatch, same]
  funext context tokens
  induction tokens generalizing context with
  | nil => rfl
  | cons token rest ih => simp [dispatchAll, step, ih]

variable [Shown σ]

/-- Without conflicts every call with a well formed key is taken. -/
theorem mem_accepted_iff {calls : List (Key σ × Handler σ α ρ)} (distinct : ConflictFree calls) :
    rule ∈ accepted calls ↔ rule ∈ calls ∧ rule.1.WellFormed := by
  constructor
  · intro mem
    exact ⟨(acceptedFrom_sublist _ _).subset mem,
      (built_regular calls).wellFormed rule (mem_rules_built.mpr mem)⟩
  · rintro ⟨mem, wellFormed⟩
    obtain ⟨before, later, rfl⟩ := List.append_of_mem mem
    have fresh : ∀ earlier ∈ accepted before, earlier.1 ≠ rule.1 := fun earlier among =>
      (List.pairwise_append.mp distinct).2.2 earlier ((acceptedFrom_sublist _ _).subset among) rule
        List.mem_cons_self
    obtain ⟨next, taken⟩ := register_ok_iff.mpr ⟨wellFormed, fresh⟩
    exact mem_accepted taken

/-- Without conflicts the order of the calls makes no difference to what is found. -/
theorem find_built_perm {calls others : List (Key σ × Handler σ α ρ)}
    (distinct : ConflictFree calls) (perm : others.Perm calls) :
    (built others).find? = (built calls).find? := by
  have apart : ConflictFree others := perm.symm.pairwise distinct fun apart => apart.symm
  funext key
  apply Option.ext
  intro handler
  rw [find_built_iff, find_built_iff, mem_accepted_iff apart, mem_accepted_iff distinct,
    perm.mem_iff]

/-- After any calls a token that is no blank and no comment is given to the handler of a rule exactly
if the rule was taken, fits, is looked up at all, and no other such rule ranks higher; if there is no
such rule, there is no answer and the context is kept. So the order in which rules without conflicts
were added makes no difference to a pass, and blanks and comments make none to any pass: the answers
and the context at the end are the same. -/
theorem dispatch_ranked (calls : List (Key σ × Handler σ α ρ)) :
    (∀ (context : Context σ α) token, token.isInsignificant = false →
      (∀ rule, (built calls).ruleFor? token context.state = some rule ↔
          IsChosen (accepted calls) token context.state rule) ∧
        (built calls).dispatch context token =
          match (built calls).ruleFor? token context.state with
          | some rule => (some (rule.2 context token).1, (rule.2 context token).2)
          | none => (none, context)) ∧
      (ConflictFree calls → ∀ others, others.Perm calls → ∀ context tokens,
        (built others).dispatchAll context tokens = (built calls).dispatchAll context tokens) ∧
      ∀ (context : Context σ α) tokens others,
        (tokens.filter fun token => !token.isInsignificant) =
          (others.filter fun token => !token.isInsignificant) →
        (built calls).dispatchAll context tokens = (built calls).dispatchAll context others := by
  refine ⟨fun context token solid => ⟨fun rule => ?_, dispatch_significant solid context⟩, ?_, ?_⟩
  · rw [(built_regular calls).ruleFor_iff]
    exact ⟨.congr fun _ => mem_rules_built, .congr fun _ => mem_rules_built.symm⟩
  · intro distinct others perm context tokens
    rw [dispatchAll_congr (find_built_perm distinct perm)]
  · intro context tokens others same
    rw [← dispatchAll_significant, same, dispatchAll_significant]

/-- A rule for a state ranks before one for a name in any state, and a rule for all names is not
looked up, whatever the order in which they were added. -/
theorem dispatch_ranked_state_first :
    let handler (n : Nat) : Handler Region.State Unit Nat := fun context _ => (n, context)
    let names := ({ kind := some .name }, handler 0)
    let named := ({ kind := some .name, text := some "y".toList }, handler 1)
    let outside := ({ state := some .outside }, handler 2)
    let token : Token := ⟨.name, "y".toList, default⟩
    let blank : Token := ⟨.whitespace, " ".toList, default⟩
    IsChosen (accepted [names, named, outside]) token .outside outside ∧
      (built [names, named, outside]).dispatch ⟨.outside, ()⟩ token = (some 2, ⟨.outside, ()⟩) ∧
      (built [outside, named, names]).dispatchAll ⟨.outside, ()⟩ [blank, token] =
        ([2], ⟨.outside, ()⟩) := by
  intro handler names named outside token blank
  obtain ⟨ranked, ordered, blanks⟩ := dispatch_ranked [names, named, outside]
  obtain ⟨chosen, ran⟩ := ranked ⟨.outside, ()⟩ token rfl
  have distinct : ConflictFree [names, named, outside] := by
    simp [ConflictFree, names, named, outside]
  have reversed : [outside, named, names].Perm [names, named, outside] :=
    List.reverse_perm [names, named, outside]
  refine ⟨(chosen outside).mp rfl, ran, ?_⟩
  rw [ordered distinct _ reversed, blanks ⟨.outside, ()⟩ [blank, token] [token] rfl]
  rfl

end Table

end LambdaLayout.Dispatch
