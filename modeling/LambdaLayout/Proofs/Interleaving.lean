import Mathlib.Algebra.GroupWithZero.Nat
import Mathlib.Data.Set.List
import LambdaLayout.Proofs.JobEffects

/-!
Jobs side by side. Jobs that work on different files do not see each other: a step of one may be put
before or after all steps of another. So the steps of a run may come in any order, and every order
ends with the files and the outcomes of the run that does one job after the other.
-/

namespace LambdaLayout.Job

open FileSystem (Apart HasFile)

variable {setting : Setting} {files after : FileSystem} {place : Place}

namespace Stage

variable {stage other : Stage} {content : Bytes} {readOnly : Bool}

/-- Two jobs do not work on one file. -/
def Separate (files : FileSystem) (stage other : Stage) : Prop :=
  ∀ left right, stage.origin? = some (.file left) → other.origin? = some (.file right) →
    Apart files left right

theorem Separate.symm (separate : Separate files stage other) : Separate files other stage :=
  fun left right first second place here there => separate right left second first place there here

theorem Separate.put (has : HasFile files place) (separate : Separate files stage other) :
    Separate (files.put place (.file content readOnly)) stage other :=
  fun left right first second => (separate left right first second).put has

theorem Separate.avoids {path : Text} (separate : Separate files stage other)
    (works : stage.origin? = some (.file path)) (located : files.locate path = .ok place) :
    other.Avoids files place := by
  rintro _ also own rfl
  exact separate path own works also place located

theorem Touches.separate {first second : Stage} (touches : stage.Touches files after)
    (separate : Separate files first second) : Separate after first second := by
  rcases touches with rfl | ⟨path, place, content, works, located, has, rfl⟩
  · exact separate
  · exact separate.put has

theorem Touches.congr (touches : stage.Touches files after) (same : other.origin? = stage.origin?) :
    other.Touches files after := by
  rw [Touches, same]
  exact touches

private theorem loaded_touches {origin : Origin} {document : Except Trouble Document}
    (ready : (loaded origin document).Ready files) :
    (loaded origin document).Touches files ((loaded origin document).complete setting files).2 := by
  cases document with
  | error trouble => exact .inl rfl
  | ok document =>
    obtain ⟨own, stands⟩ := ready document rfl
    rw [← own] at stands
    exact (deliver_touches document _ stands).congr (congrArg some own.symm)

/-- All steps of a job together make no more of the files than one of them. -/
theorem complete_touches (ready : stage.Ready files) :
    stage.Touches files (stage.complete setting files).2 := by
  cases stage with
  | waiting origin => exact (loaded_touches ready.advance).congr rfl
  | loaded origin document => exact loaded_touches ready
  | laidOut document work => exact deliver_touches document work ready
  | done outcome => exact .inl rfl

private theorem loaded_put {origin : Origin} {document : Except Trouble Document}
    (has : HasFile files place) (ready : (loaded origin document).Ready files)
    (avoids : (loaded origin document).Avoids files place) :
    (loaded origin document).complete setting (files.put place (.file content readOnly)) =
      (((loaded origin document).complete setting files).1,
        ((loaded origin document).complete setting files).2.put place (.file content readOnly)) := by
  cases document with
  | error trouble => rfl
  | ok document =>
    obtain ⟨own, stands⟩ := ready document rfl
    rw [← own] at stands
    exact deliver_put has stands (own ▸ avoids _ rfl)

/-- The steps of a job do not depend on other files, and leave them alone. -/
theorem complete_put (has : HasFile files place) (ready : stage.Ready files)
    (avoids : stage.Avoids files place) :
    stage.complete setting (files.put place (.file content readOnly)) =
      ((stage.complete setting files).1,
        (stage.complete setting files).2.put place (.file content readOnly)) := by
  cases stage with
  | waiting origin =>
    have same : load setting (files.put place (.file content readOnly)) origin =
        load setting files origin := load_put has (avoids origin rfl)
    rw [complete, same]
    exact loaded_put has ready.advance fun own is => avoids own is
  | loaded origin document => exact loaded_put has ready avoids
  | laidOut document work => exact deliver_put has ready (avoids _ rfl)
  | done outcome => rfl

/-- A step of one job may be done before or after all steps of another. -/
theorem complete_advance_comm (first : stage.Ready files) (second : other.Ready files)
    (separate : Separate files stage other) :
    (stage.complete setting (other.advance setting files).2).1 = (stage.complete setting files).1 ∧
      (stage.complete setting (other.advance setting files).2).2 =
        (other.advance setting (stage.complete setting files).2).2 ∧
      (other.advance setting (stage.complete setting files).2).1 =
        (other.advance setting files).1 := by
  -- Each of the two leaves the files as they are or changes its own one.
  have one : stage.Touches files (stage.complete setting files).2 := complete_touches first
  have two : other.Touches files (other.advance setting files).2 := advance_touches second
  rcases one with one | ⟨path, place, content, works, located, has, one⟩
  · rcases two with two | ⟨path, place, content, works, located, has, two⟩
    · simp only [one, two, and_self]
    · simp only [one, two, complete_put has first (separate.symm.avoids works located), and_self]
  · have avoids := separate.avoids works located
    rcases two with two | ⟨other_path, other_place, other_content, also, there, had, two⟩
    · simp only [one, two, advance_put has second avoids, and_self]
    · have apart : place ≠ other_place := by
        rintro rfl
        exact separate path other_path works also place located there
      simp only [one, two, advance_put has second avoids,
        complete_put had first (separate.symm.avoids also there),
        FileSystem.put_put has had apart, and_self]

end Stage

/-- The jobs are ready, and no two of them work on one file. -/
structure Orderly (moment : Moment) : Prop where
  ready : ∀ stage ∈ moment.jobs, stage.Ready moment.files
  separate : moment.jobs.Pairwise (Stage.Separate moment.files)

theorem Orderly.tail {stage : Stage} {jobs : List Stage} (orderly : Orderly ⟨stage :: jobs, files⟩)
    (touches : stage.Touches files after) : Orderly ⟨jobs, after⟩ where
  ready := fun other mem => touches.ready (orderly.ready other (List.mem_cons_of_mem _ mem))
  separate := (List.pairwise_cons.mp orderly.separate).2.imp touches.separate

section Apart

variable {stage other : Stage} {jobs : List Stage} {path : Text}

namespace Stage

theorem Touches.hasFile (touches : stage.Touches files after) (has : HasFile files place) :
    HasFile after place := by
  rcases touches with rfl | ⟨own, elsewhere, content, works, located, had, rfl⟩
  · exact has
  · exact had.put content false has

/-- What is read from a file is the same after a job that does not work on it. -/
theorem Touches.read (touches : stage.Touches files after)
    (separate : Separate files other stage) (works : other.origin? = some (.file path)) :
    after.read path = files.read path := by
  rcases touches with rfl | ⟨own, elsewhere, content, also, located, has, rfl⟩
  · rfl
  · exact FileSystem.read_put has fun there => separate path own works also elsewhere there located

/-- A job comes to the same after another one, and so does its file. -/
theorem Touches.complete (touches : stage.Touches files after) (ready : other.Ready files)
    (separate : Separate files stage other) :
    (other.complete setting after).1 = (other.complete setting files).1 ∧
      ∀ path, other.origin? = some (.file path) →
        (other.complete setting after).2.read path =
          (other.complete setting files).2.read path := by
  rcases touches with rfl | ⟨own, elsewhere, content, works, located, has, rfl⟩
  · exact ⟨rfl, fun _ _ => rfl⟩
  · have avoids := separate.avoids works located
    have touched : other.Touches files (other.complete setting files).2 := complete_touches ready
    rw [complete_put has ready avoids]
    refine ⟨rfl, fun path is => FileSystem.read_put (touched.hasFile has) ?_⟩
    rw [touched.locate]
    exact avoids _ is path rfl

end Stage

/-- Jobs that work on other files leave a file as it is. -/
theorem complete_all_keeps (orderly : Orderly ⟨jobs, files⟩)
    (separate : ∀ other ∈ jobs, Stage.Separate files stage other)
    (works : stage.origin? = some (.file path)) :
    (completeAll setting jobs files).2.read path = files.read path := by
  induction jobs generalizing files with
  | nil => rfl
  | cons first rest ih =>
    have touches : first.Touches files (first.complete setting files).2 :=
      Stage.complete_touches (orderly.ready first List.mem_cons_self)
    have later := ih (orderly.tail touches) fun other mem =>
      touches.separate (separate other (List.mem_cons_of_mem _ mem))
    exact later.trans (touches.read (separate first List.mem_cons_self) works)

/-- Each job comes to what it would have come to alone, and so does its file. -/
theorem complete_all_apart (orderly : Orderly ⟨jobs, files⟩) :
    (completeAll setting jobs files).1 = jobs.map (fun stage => (stage.complete setting files).1) ∧
      ∀ stage ∈ jobs, ∀ path, stage.origin? = some (.file path) →
        (completeAll setting jobs files).2.read path =
          (stage.complete setting files).2.read path := by
  induction jobs generalizing files with
  | nil => exact ⟨rfl, nofun⟩
  | cons first rest ih =>
    obtain ⟨apart, -⟩ := List.pairwise_cons.mp orderly.separate
    have touches : first.Touches files (first.complete setting files).2 :=
      Stage.complete_touches (orderly.ready first List.mem_cons_self)
    have alone : ∀ stage ∈ rest, (stage.complete setting (first.complete setting files).2).1 =
        (stage.complete setting files).1 ∧ _ := fun stage mem =>
      touches.complete (orderly.ready stage (List.mem_cons_of_mem _ mem)) (apart stage mem)
    obtain ⟨outcomes, reads⟩ := ih (orderly.tail touches)
    constructor
    · simp only [completeAll, outcomes, List.map_cons, List.cons.injEq, true_and]
      exact List.map_congr_left fun stage mem => (alone stage mem).1
    · intro stage mem path works
      rcases List.mem_cons.mp mem with rfl | mem
      · exact complete_all_keeps (orderly.tail touches)
          (fun other mem => touches.separate (apart other mem)) works
      · exact (reads stage mem path works).trans ((alone stage mem).2 path works)

end Apart

/-- A job that does a step before its turn comes ends as it would have, and so do the others. -/
theorem complete_all_set {index : Nat} {stage : Stage} {jobs : List Stage}
    (orderly : Orderly ⟨jobs, files⟩) (here : jobs[index]? = some stage) :
    completeAll setting (jobs.set index (stage.advance setting files).1)
        (stage.advance setting files).2 = completeAll setting jobs files := by
  induction jobs generalizing index files with
  | nil => cases here
  | cons first rest ih =>
    cases index with
    | zero =>
      cases here
      simp only [List.set_cons_zero, completeAll, Stage.complete_advance]
    | succ index =>
      have mem : stage ∈ rest := List.mem_of_getElem? here
      have ready := orderly.ready first List.mem_cons_self
      have separate := (List.pairwise_cons.mp orderly.separate).1 stage mem
      have swapped : (first.complete setting (stage.advance setting files).2).1 =
          (first.complete setting files).1 ∧ _ := Stage.complete_advance_comm ready
        (orderly.ready stage (List.mem_cons_of_mem _ mem)) separate
      obtain ⟨outcome, effect, next⟩ := swapped
      have effect_first : first.Touches files (first.complete setting files).2 :=
        Stage.complete_touches ready
      have later := ih (orderly.tail effect_first) here
      rw [next] at later
      simp only [List.set_cons_succ, completeAll, outcome, effect, later]

/-- A job that works on nothing but what another one worked on is as far from the others. -/
theorem pairwise_set {related : Stage → Stage → Prop} {index : Nat} {stage later : Stage}
    {jobs : List Stage} (pairwise : jobs.Pairwise related) (here : jobs[index]? = some stage)
    (before : ∀ other, related other stage → related other later)
    (behind : ∀ other, related stage other → related later other) :
    (jobs.set index later).Pairwise related := by
  induction jobs generalizing index with
  | nil => cases here
  | cons first rest ih =>
    obtain ⟨apart, others⟩ := List.pairwise_cons.mp pairwise
    cases index with
    | zero =>
      cases here
      exact .cons (fun other mem => behind other (apart other mem)) others
    | succ index =>
      refine .cons (fun other among => ?_) (ih others here)
      rcases List.mem_or_eq_of_mem_set among with mem | rfl
      · exact apart other mem
      · exact before first (apart stage (List.mem_of_getElem? here))

/-- A step keeps the jobs ready and apart. -/
theorem Orderly.advances {moment next : Moment} {index : Nat} (orderly : Orderly moment)
    (advances : Advances setting index moment next) : Orderly next := by
  cases advances with
  | @step stage here unfinished =>
    have ready := orderly.ready stage (List.mem_of_getElem? here)
    have touches : stage.Touches moment.files (stage.advance setting moment.files).2 :=
      Stage.advance_touches ready
    refine ⟨ready_advances orderly.ready (.step here unfinished), ?_⟩
    refine pairwise_set (orderly.separate.imp touches.separate) here ?_ ?_
    · exact fun other separate left right is own =>
        separate left right is (Stage.origin_advance ready own)
    · exact fun other separate left right own is =>
        separate left right (Stage.origin_advance ready own) is

/-- However the jobs got from one moment to another, what is left ends as it would have before. -/
theorem Orderly.reaches {moment next : Moment} (orderly : Orderly moment)
    (reaches : Reaches setting moment next) : Orderly next ∧
      completeAll setting next.jobs next.files = completeAll setting moment.jobs moment.files := by
  induction reaches with
  | refl => exact ⟨orderly, rfl⟩
  | tail _ step ih =>
    obtain ⟨between, same⟩ := ih
    obtain ⟨index, advances⟩ := step
    refine ⟨between.advances advances, ?_⟩
    cases advances with
    | step here unfinished => exact (complete_all_set between here).trans same

/-- Nothing is left to do for jobs that are done. -/
theorem complete_all_done (outcomes : List Outcome) (files : FileSystem) :
    completeAll setting (outcomes.map .done) files = (outcomes, files) := by
  induction outcomes with
  | nil => rfl
  | cons outcome rest ih => simp only [List.map_cons, completeAll, Stage.complete, ih]

/-- Before any step all jobs are ready, and they are apart if their files are. -/
theorem Orderly.start {options : Options} (distinct : options.files.Pairwise (Apart files)) :
    Orderly (.start options files) where
  ready := by
    intro stage mem
    obtain ⟨origin, -, rfl⟩ := List.mem_map.mp mem
    trivial
  separate := by
    rw [Moment.start, origins]
    split
    · exact List.pairwise_singleton _ _
    · rw [List.map_map, List.pairwise_map]
      refine distinct.imp fun apart left right first second => ?_
      cases first
      cases second
      exact apart

/-- Where no job can do a step, all of them are done. -/
theorem all_done {moment : Moment}
    (stuck : ∀ index next, ¬ Advances setting index moment next) :
    ∃ outcomes : List Outcome, moment.jobs = outcomes.map .done := by
  have finished : moment.jobs ∈ Set.range (List.map Stage.done) := by
    rw [Set.range_list_map]
    intro stage mem
    obtain ⟨index, here⟩ := List.mem_iff_getElem?.mp mem
    cases stage with
    | done outcome => exact ⟨outcome, rfl⟩
    | _ => exact absurd (.step here rfl) (stuck index _)
  obtain ⟨outcomes, same⟩ := finished
  exact ⟨outcomes, same.symm⟩

/-- How many steps a job has left at most. -/
def Stage.left : Stage → Nat
  | waiting _ => 3
  | loaded _ _ => 2
  | laidOut _ _ => 1
  | done _ => 0

theorem Stage.advance_left {stage : Stage} (unfinished : stage.isDone = false) :
    (stage.advance setting files).1.left < stage.left := by
  cases stage with
  | waiting | laidOut => exact Nat.lt_succ_self _
  | loaded origin document => cases document <;> simp [advance, left]
  | done => cases unfinished

theorem left_set {index : Nat} {stage later : Stage} {jobs : List Stage}
    (here : jobs[index]? = some stage) (less : later.left < stage.left) :
    ((jobs.set index later).map Stage.left).sum < (jobs.map Stage.left).sum := by
  induction jobs generalizing index with
  | nil => cases here
  | cons first rest ih =>
    cases index with
    | zero =>
      cases here
      simpa using less
    | succ index => simpa using ih here

/-- The jobs cannot go on doing steps forever. -/
theorem steps_end (setting : Setting) :
    WellFounded fun next moment => ∃ index, Advances setting index moment next := by
  refine Subrelation.wf ?_ (measure fun moment : Moment => (moment.jobs.map Stage.left).sum).wf
  rintro next moment ⟨index, advances⟩
  cases advances with
  | step here unfinished => exact left_set here (Stage.advance_left unfinished)

/-- Where a single job does the same in two settings, all of them do. -/
theorem complete_all_congr {first second : Setting}
    (same : ∀ stage files, Stage.complete first files stage = Stage.complete second files stage)
    (jobs : List Stage) (files : FileSystem) :
    completeAll first jobs files = completeAll second jobs files := by
  induction jobs generalizing files with
  | nil => rfl
  | cons stage rest ih => simp only [completeAll, same, ih]

/-- Whether jobs may be done side by side makes no difference to a single one. -/
theorem complete_all_parallel (options : Options) (backend : Backend) (input : Except Text Bytes)
    (parallel : Bool) (jobs : List Stage) (files : FileSystem) :
    completeAll ⟨{ options with parallel := parallel }, backend, input⟩ jobs files =
      completeAll ⟨options, backend, input⟩ jobs files := by
  refine complete_all_congr (fun stage files => ?_) jobs files
  cases stage with
  | waiting origin => cases origin <;> rfl
  | _ => rfl

/-- A run on different files ends as if each job were done before the next one is begun. -/
theorem outcomes_eq (options : Options) (backend : Backend) (input : Except Text Bytes)
    (distinct : options.files.Pairwise (Apart files)) :
    Run.outcomes options backend input files =
      completeAll ⟨options, backend, input⟩ ((origins options).map .waiting) files := by
  have same := ((Orderly.start distinct).reaches (outcomes_reaches options backend input files)).2
  rwa [complete_all_done] at same

/-- Jobs on different files may do their steps in any order. They come to an end, and all that is
left then are the outcomes, in the order of the files, and the files that there are when each job is
done before the next one is begun. That goes for the run with jobs side by side as well, so it
reports the same. -/
theorem interleavings_agree (options : Options) (backend : Backend) (input : Except Text Bytes)
    (files : FileSystem) (distinct : options.files.Pairwise (Apart files)) :
    let setting : Setting := ⟨options, backend, input⟩
    let inTurn := Run.outcomes { options with parallel := false } backend input files
    let beside := Run.outcomes { options with parallel := true } backend input files
    (WellFounded fun next moment => ∃ index, Advances setting index moment next) ∧
      (∀ moment, Reaches setting (.start options files) moment →
        (∀ index next, ¬ Advances setting index moment next) →
          moment = ⟨inTurn.1.map .done, inTurn.2⟩) ∧
      beside = inTurn ∧
      ∀ sink, Report.ofOutcomes sink beside.1 = Report.ofOutcomes sink inTurn.1 := by
  have same : ∀ parallel, Run.outcomes { options with parallel := parallel } backend input files =
      completeAll ⟨options, backend, input⟩ ((origins options).map .waiting) files := by
    intro parallel
    rw [outcomes_eq { options with parallel := parallel } backend input distinct,
      complete_all_parallel options]
    rfl
  intro setting inTurn beside
  have agree : beside = inTurn := (same true).trans (same false).symm
  refine ⟨steps_end setting, fun moment reaches stuck => ?_, agree, fun sink => by rw [agree]⟩
  obtain ⟨jobs, after⟩ := moment
  obtain ⟨outcomes, rfl⟩ : ∃ outcomes : List Outcome, jobs = outcomes.map .done := all_done stuck
  have ends := ((Orderly.start distinct).reaches reaches).2
  rw [complete_all_done] at ends
  have whole : inTurn = (outcomes, after) := (same false).trans ends.symm
  rw [whole]

/-- A run on two files in place. -/
private def pairOptions : Options where
  mode := .inPlace
  files := ["a.py".toList, "b.py".toList]

/-- The two files, one with the code and one that is not a text. -/
private def pairFiles (code : String) : FileSystem where
  entries :=
    [(["a.py".toList], .file (Utf8.encode code.toList) false), (["b.py".toList], .file [0xFF] false)]

/-- One of the jobs lays out its file, and the other one fails, in whatever order they go on. -/
theorem interleavings_agree_pair :
    pairOptions.files.Pairwise (Apart (pairFiles "f = def_(lambda: [a])\n")) ∧
      ∀ moment, Reaches ⟨pairOptions, Backend.none, .ok []⟩
          (.start pairOptions (pairFiles "f = def_(lambda: [a])\n")) moment →
        (∀ index next, ¬ Advances ⟨pairOptions, Backend.none, .ok []⟩ index moment next) →
          moment.files = pairFiles "f = def_(lambda: [\n    a\n])\n" := by
  have distinct : pairOptions.files.Pairwise (Apart (pairFiles "f = def_(lambda: [a])\n")) := by
    decide +kernel
  have laid : (Run.outcomes { pairOptions with parallel := false } Backend.none (.ok [])
      (pairFiles "f = def_(lambda: [a])\n")).2 = pairFiles "f = def_(lambda: [\n    a\n])\n" := by
    decide +kernel
  obtain ⟨-, ends, -⟩ := interleavings_agree pairOptions Backend.none (.ok []) _ distinct
  refine ⟨distinct, fun ⟨jobs, after⟩ reaches stuck => ?_⟩
  obtain ⟨-, same⟩ := Moment.mk.inj (ends ⟨jobs, after⟩ reaches stuck)
  exact same.trans laid

end LambdaLayout.Job
