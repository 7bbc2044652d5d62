import LambdaLayout.Layout

/-!
More depth changes nothing. The layout functions give up when the depth is used up, and otherwise
what they answer is their answer at every greater depth. So two answers of a call are the same
whenever neither of them is to have given up.
-/

namespace LambdaLayout.Layout

/-- The second attempt is the first one, unless that was given up for want of depth. -/
def Settles {α : Type} (first second : Except Refusal α) : Prop :=
  first = .error .tooDeep ∨ first = second

section Settles

variable {α : Type} {first second third : Except Refusal α}

theorem Settles.refl (attempt : Except Refusal α) : Settles attempt attempt := .inr rfl

theorem Settles.trans (one : Settles first second) (two : Settles second third) :
    Settles first third := by
  rcases one with deep | rfl
  · exact .inl deep
  · exact two

theorem Settles.same (settles : Settles first second) (shallow : first ≠ .error .tooDeep) :
    second = first :=
  (settles.resolve_left shallow).symm

theorem Settles.bind {β : Type} {next other : α → Except Refusal β} (settles : Settles first second)
    (later : ∀ value, Settles (next value) (other value)) :
    Settles (first >>= next) (second >>= other) := by
  rcases settles with rfl | rfl
  · exact .inl rfl
  · cases first with
    | error refusal => exact .refl _
    | ok value => exact later value

theorem Settles.orElse {first second : Attempt} {next other : Unit → Attempt}
    (settles : Settles first second) (later : Settles (next ()) (other ())) :
    Settles (first.orElse next) (second.orElse other) := by
  rcases settles with rfl | rfl
  · exact .inl rfl
  · rcases first with (_ | _) | text
    · exact later
    · exact .refl _
    · exact .refl _

end Settles

variable {layout : Layout} {indent text base : Text} {offset row depth more : Nat}

theorem replaceCalls_settles {nested other : Node → Attempt} {calls : List Node}
    (settles : ∀ call, Settles (nested call) (other call)) :
    Settles (replaceCalls nested offset text calls) (replaceCalls other offset text calls) := by
  induction calls with
  | nil => exact .refl _
  | cons call rest ih =>
    rw [replaceCalls, replaceCalls]
    exact ih.bind fun text => (settles call).bind fun _ => .refl _

theorem itemLines_settles {element other : Node → Attempt} {items : List Node}
    (settles : ∀ item, Settles (element item) (other item)) :
    Settles (itemLines element indent row items) (itemLines other indent row items) := by
  induction items generalizing row with
  | nil => exact .refl _
  | cons item rest ih =>
    cases item with
    | comment span own => exact ih.bind fun after => .refl _
    | _ => exact (settles _).bind fun own => ih.bind fun after => .refl _

theorem clauseTexts_settles {clause other : Clause → Attempt} {clauses : List Clause}
    (settles : ∀ part, Settles (clause part) (other part)) :
    Settles (clauseTexts clause clauses) (clauseTexts other clauses) := by
  induction clauses with
  | nil => exact .refl _
  | cons first rest ih =>
    cases rest with
    | nil => exact settles first
    | cons next rest => exact (settles first).bind fun own => ih.bind fun after => .refl _

/-- What the layout functions answer at a depth is what they answer at the next one. -/
structure Steady (layout : Layout) (depth : Nat) : Prop where
  call : ∀ call base,
    Settles (callText layout depth call base) (callText layout (depth + 1) call base)
  range : ∀ extent row indent, Settles (rangeText layout depth extent row indent)
    (rangeText layout (depth + 1) extent row indent)
  block : ∀ items row base, Settles (blockText layout depth items row base)
    (blockText layout (depth + 1) items row base)
  element : ∀ item indent,
    Settles (elementText layout depth item indent) (elementText layout (depth + 1) item indent)

theorem steady (layout : Layout) : ∀ depth, Steady layout depth
  | 0 =>
    { call := fun _ _ => .inl (by rw [callText])
      range := fun _ _ _ => .inl (by rw [rangeText])
      block := fun _ _ _ => .inl (by rw [blockText])
      element := fun _ _ => .inl (by rw [elementText]) }
  | depth + 1 =>
    have steady := steady layout depth
    { call := fun call base => by
        rw [callText, callText]
        split
        · exact .refl _
        split
        · exact .refl _
        split
        · exact .refl _
        · exact (Settles.refl _).bind fun callee => (Settles.refl _).bind fun parameters =>
            (steady.block _ _ _).bind fun block => .refl _
      range := fun extent row indent => by
        rw [rangeText, rangeText]
        split
        · exact .refl _
        · exact (Settles.refl _).bind fun text => replaceCalls_settles fun call =>
            (steady.call call _).orElse (steady.range _ _ _)
      block := fun items row base => by
        rw [blockText, blockText]
        exact (itemLines_settles fun item => steady.element item _).bind fun lines => .refl _
      element := fun item indent => by
        rw [elementText, elementText]
        split
        · exact clauseTexts_settles fun part => (steady.range _ _ _).bind fun head =>
            (steady.block _ _ _).bind fun body => .refl _
        · split
          · exact (steady.call item indent).orElse (steady.range _ _ _)
          · exact steady.range _ _ _ }

/-- An answer for a call is the answer at every greater depth. -/
theorem callText_deeper (call : Node) (base : Text) (deeper : depth ≤ more) :
    Settles (callText layout depth call base) (callText layout more call base) := by
  induction deeper with
  | refl => exact .refl _
  | step _ ih => exact ih.trans ((steady layout _).call call base)

/-- Two answers for a call that have not been given up are the same. -/
theorem callText_unique {call : Node} (one : callText layout depth call base ≠ .error .tooDeep)
    (two : callText layout more call base ≠ .error .tooDeep) :
    callText layout depth call base = callText layout more call base := by
  rcases Nat.le_total depth more with deeper | deeper
  · exact ((callText_deeper call base deeper).same one).symm
  · exact (callText_deeper call base deeper).same two

end LambdaLayout.Layout
