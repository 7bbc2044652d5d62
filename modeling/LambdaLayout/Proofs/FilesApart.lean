import LambdaLayout.FileSystem

/-!
What writing to a file leaves alone. A file that is there gets another content: no other place
changes, every path leads where it led before, and two such changes at different places may be made
in either order.
-/

namespace LambdaLayout.FileSystem

variable {files : FileSystem} {place other : Place} {path : Text} {content : Bytes}
  {readOnly : Bool}

/-- There is a file at the place. -/
def HasFile (files : FileSystem) (place : Place) : Prop :=
  ∃ content readOnly, files.entry? place = some (.file content readOnly)

/-- The two paths do not lead to one place. -/
def Apart (files : FileSystem) (left right : Text) : Prop :=
  ∀ place, files.locate left = .ok place → files.locate right ≠ .ok place

theorem apart_iff {left right : Text} : Apart files left right ↔
    (files.locate left).toOption = none ∨ (files.locate left).toOption ≠
      (files.locate right).toOption := by
  rw [Apart]
  cases files.locate left with
  | error fault => simp [Except.toOption]
  | ok first =>
    cases files.locate right with
    | error fault => simp [Except.toOption]
    | ok second => simp [Except.toOption, eq_comm]

instance (left right : Text) : Decidable (Apart files left right) :=
  decidable_of_iff _ apart_iff.symm

/-- The pairs with those at one place changed. -/
private def changed (place : Place) (entry : Entry) (pairs : List (Place × Entry)) :
    List (Place × Entry) :=
  pairs.map fun pair => if pair.1 == place then (place, entry) else pair

private theorem find_changed_here {entry : Entry} {pairs : List (Place × Entry)}
    (found : (pairs.find? fun pair => pair.1 == place).isSome = true) :
    ((changed place entry pairs).find? fun pair => pair.1 == place) = some (place, entry) := by
  induction pairs with
  | nil => cases found
  | cons pair rest ih =>
    rw [changed, List.map_cons]
    by_cases here : pair.1 = place
    · simp [here]
    · have later : (pair.1 == place) = false := by simpa using here
      rw [List.find?_cons, later] at found
      rw [if_neg (by simp [later]), List.find?_cons, later]
      exact ih found

private theorem find_changed_elsewhere {entry : Entry} {pairs : List (Place × Entry)}
    (apart : other ≠ place) : ((changed place entry pairs).find? fun pair => pair.1 == other) =
      pairs.find? fun pair => pair.1 == other := by
  induction pairs with
  | nil => rfl
  | cons pair rest ih =>
    rw [changed, List.map_cons, ← changed]
    by_cases here : pair.1 = place
    · simp [here, Ne.symm apart, ih]
    · simp [here, List.find?_cons, ih]

theorem HasFile.isSome (has : HasFile files place) : (files.entry? place).isSome = true := by
  obtain ⟨content, readOnly, found⟩ := has
  rw [found]
  rfl

private theorem put_eq (has : HasFile files place) (entry : Entry) :
    files.put place entry = ⟨changed place entry files.entries⟩ := by
  rw [put, if_pos has.isSome, changed]

/-- A change shows at its own place only. -/
theorem entry?_put (has : HasFile files place) (entry : Entry) (other : Place) :
    entry? (files.put place entry) other =
      if other = place then some entry else files.entry? other := by
  have filled : place.isEmpty = false := by
    obtain ⟨content, readOnly, found⟩ := has
    cases place with
    | nil => cases found
    | cons => rfl
  have some := has.isSome
  rw [FileSystem.entry?, filled, if_neg Bool.false_ne_true, Option.isSome_map] at some
  rw [put_eq has]
  by_cases here : other = place
  · rw [if_pos here, here, entry?, filled, if_neg Bool.false_ne_true, find_changed_here some]
    rfl
  · rw [if_neg here, entry?, entry?, find_changed_elsewhere here]

theorem HasFile.put (has : HasFile files place) (content : Bytes) (readOnly : Bool)
    (found : HasFile files other) : HasFile (files.put place (.file content readOnly)) other := by
  rw [HasFile, entry?_put has]
  split
  · exact ⟨content, readOnly, rfl⟩
  · exact found

/-- Every path leads where it led before. -/
theorem locate_put (has : HasFile files place) (content : Bytes) (readOnly : Bool) (path : Text) :
    (files.put place (.file content readOnly)).locate path = files.locate path := by
  have follows : ∀ names here, (files.put place (.file content readOnly)).follow here names =
      files.follow here names := by
    intro names
    induction names with
    | nil => exact fun _ => rfl
    | cons name rest ih =>
      intro here
      by_cases there : here = place
      · obtain ⟨old, flag, found⟩ := has
        rw [follow, follow, entry?_put ⟨old, flag, found⟩, if_pos there, there, found]
      · rw [follow, follow, entry?_put has, if_neg there]
        simp only [ih]
  rw [locate, locate, follows]

theorem Apart.put (has : HasFile files place) {left right : Text} (apart : Apart files left right) :
    Apart (files.put place (.file content readOnly)) left right := by
  intro other
  rw [locate_put has, locate_put has]
  exact apart other

/-- What is read from a path that does not lead to the place is the same as before. -/
theorem read_put (has : HasFile files place) (away : files.locate path ≠ .ok place) :
    (files.put place (.file content readOnly)).read path = files.read path := by
  rw [read, read, locate_put has]
  cases found : files.locate path with
  | error fault => rfl
  | ok other =>
    have apart : other ≠ place := by
      rintro rfl
      exact away found
    simp only [bind, Except.bind, entry?_put has, if_neg apart]

/-- What is read is the content of a file. -/
theorem read_ok (found : files.read path = .ok content) :
    ∃ place readOnly, files.locate path = .ok place ∧
      files.entry? place = some (.file content readOnly) := by
  rw [read] at found
  cases located : files.locate path with
  | error fault => rw [located] at found; cases found
  | ok place =>
    rw [located] at found
    simp only [bind, Except.bind] at found
    split at found
    · cases found
    · cases found
    · next content readOnly there =>
      cases found
      exact ⟨place, readOnly, rfl, there⟩

/-- Two changes at different places may be made in either order. -/
theorem put_put (has : HasFile files place) (also : HasFile files other) (apart : place ≠ other)
    (first second : Bytes) (flag mark : Bool) :
    (files.put place (.file first flag)).put other (.file second mark) =
      (files.put other (.file second mark)).put place (.file first flag) := by
  rw [put_eq (has.put first flag also), put_eq (also.put second mark has), put_eq has, put_eq also]
  simp only [changed, List.map_map]
  congr 1
  refine List.map_congr_left fun pair _ => ?_
  by_cases one : pair.1 = place
  · have two : pair.1 ≠ other := one ▸ apart
    simp [one, apart]
  · by_cases two : pair.1 = other
    · simp [two, Ne.symm apart]
    · simp [one, two]

/-- Writing to a file changes its content, unless the file may not be changed. -/
theorem write_of_file (found : files.locate path = .ok place)
    (there : files.entry? place = some (.file content readOnly)) (bytes : Bytes) :
    files.write path bytes =
      if readOnly then .error .readOnly else .ok (files.put place (.file bytes false)) := by
  rw [write, found]
  cases readOnly <;> simp [bind, Except.bind, there, pure, Except.pure, throw, throwThe,
    MonadExceptOf.throw]

/-- What was written to a file is read from it. -/
theorem read_of_write {after : FileSystem} {bytes : Bytes} (read : files.read path = .ok content)
    (written : files.write path bytes = .ok after) : after.read path = .ok bytes := by
  obtain ⟨place, flag, located, there⟩ := read_ok read
  have has : HasFile files place := ⟨content, flag, there⟩
  rw [write_of_file located there] at written
  cases flag with
  | true => cases written
  | false =>
    rw [← Except.ok.inj written, FileSystem.read, locate_put has, located]
    simp only [bind, Except.bind, entry?_put has, if_true, pure, Except.pure]

/-- Where the same is at every place, the same is read. -/
theorem read_congr {after : FileSystem} (same : ∀ place, after.entry? place = files.entry? place)
    (path : Text) : after.read path = files.read path := by
  have follows : ∀ names here, after.follow here names = files.follow here names := by
    intro names
    induction names with
    | nil => exact fun _ => rfl
    | cons name rest ih =>
      intro here
      simp only [follow, same, ih]
  simp only [read, locate, follows, same]

end LambdaLayout.FileSystem
