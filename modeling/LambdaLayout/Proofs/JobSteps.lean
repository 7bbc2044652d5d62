import Mathlib.Logic.Relation
import LambdaLayout.Run

/-!
Jobs step by step. A job reads its source, has the backend go over it and lays it out, and delivers
the layout; the steps of several jobs may come in any order, as long as each job does its own in
turn. A run, whether it does one job after the other or reads all sources first, is such a sequence
of steps.
-/

namespace LambdaLayout.Job

/-- How far a job has come. -/
inductive Stage where
  /-- Nothing is done yet. -/
  | waiting (origin : Origin)
  /-- The source was read. -/
  | loaded (origin : Origin) (document : Except Trouble Document)
  /-- The backend went over it, and it was laid out. -/
  | laidOut (document : Document) (work : Work)
  /-- The layout was delivered, or something went wrong. -/
  | done (outcome : Outcome)

/-- What is shared by the jobs of a run. -/
structure Setting where
  /-- What the run is asked to do. -/
  options : Options
  /-- The backend. -/
  backend : Backend
  /-- The standard input. -/
  input : Except Text Bytes

variable (setting : Setting)

/-- Reads a source. -/
def load (files : FileSystem) : Origin → Except Trouble Document
  | .file path => Document.ofFile files path setting.options.mode
  | .input => Document.ofInput setting.input setting.options.mode

namespace Stage

/-- Says that nothing is left to do. -/
def isDone : Stage → Bool
  | done _ => true
  | _ => false

/-- One step of a job. -/
def advance (files : FileSystem) : Stage → Stage × FileSystem
  | waiting origin => (loaded origin (load setting files origin), files)
  | loaded origin (.error trouble) => (done (unread origin.name trouble), files)
  | loaded _ (.ok document) =>
    (laidOut document (work setting.options setting.backend document), files)
  | laidOut document work =>
    let (outcome, files) := deliver document work files
    (done outcome, files)
  | done outcome => (done outcome, files)

/-- All steps of a job that are left. -/
def complete (files : FileSystem) : Stage → Outcome × FileSystem
  | waiting origin =>
    finish setting.options setting.backend origin.name (load setting files origin) files
  | loaded origin document => finish setting.options setting.backend origin.name document files
  | laidOut document work => deliver document work files
  | done outcome => (outcome, files)

/-- A step is one of those that are left. -/
theorem complete_advance (stage : Stage) (files : FileSystem) :
    (stage.advance setting files).1.complete setting (stage.advance setting files).2 =
      stage.complete setting files := by
  cases stage with
  | loaded origin document => cases document <;> rfl
  | _ => rfl

end Stage

/-- The jobs of a run and the files at one time. -/
structure Moment where
  /-- How far each job has come. -/
  jobs : List Stage
  /-- The files. -/
  files : FileSystem

/-- The sources of a run: its files, or the standard input. -/
def origins (options : Options) : List Origin :=
  if options.readsInput then [.input] else options.files.map .file

/-- Before any step. -/
def Moment.start (options : Options) (files : FileSystem) : Moment :=
  ⟨(origins options).map .waiting, files⟩

/-- The job at an index, which is not done, does its next step. -/
inductive Advances (index : Nat) : Moment → Moment → Prop where
  | step {moment : Moment} {stage : Stage} (here : moment.jobs[index]? = some stage)
      (unfinished : stage.isDone = false) :
      Advances index moment ⟨moment.jobs.set index (stage.advance setting moment.files).1,
        (stage.advance setting moment.files).2⟩

/-- The jobs come from one moment to another by steps of theirs in some order. -/
def Reaches : Moment → Moment → Prop :=
  Relation.ReflTransGen fun first next => ∃ index, Advances setting index first next

/-- Jobs completed one after the other. -/
def completeAll : List Stage → FileSystem → List Outcome × FileSystem
  | [], files => ([], files)
  | stage :: rest, files =>
    let (outcome, files) := stage.complete setting files
    let (outcomes, files) := completeAll rest files
    (outcome :: outcomes, files)

section

variable {setting} {moment next : Moment} {files after : FileSystem} {stage : Stage}
  {jobs later : List Stage}

/-- Jobs before the others do not hinder their steps. -/
theorem Advances.behind {index : Nat} (first : Stage)
    (advances : Advances setting index ⟨jobs, files⟩ ⟨later, after⟩) :
    Advances setting (index + 1) ⟨first :: jobs, files⟩ ⟨first :: later, after⟩ := by
  cases advances with
  | @step stage here unfinished =>
    have there : (Moment.mk (first :: jobs) files).jobs[index + 1]? = some stage := here
    exact .step there unfinished

theorem Reaches.behind (first : Stage) (reaches : Reaches setting ⟨jobs, files⟩ ⟨later, after⟩) :
    Reaches setting ⟨first :: jobs, files⟩ ⟨first :: later, after⟩ := by
  have lifted : ∀ {moment next : Moment}, Reaches setting moment next →
      Reaches setting ⟨first :: moment.jobs, moment.files⟩ ⟨first :: next.jobs, next.files⟩ := by
    intro moment next reaches
    induction reaches with
    | refl => exact .refl
    | tail _ step ih =>
      obtain ⟨index, advances⟩ := step
      exact ih.tail ⟨index + 1, advances.behind first⟩
  exact lifted reaches

/-- The first job may do its next step. -/
theorem advance_reaches (stage : Stage) (rest : List Stage) (files : FileSystem) :
    Reaches setting ⟨stage :: rest, files⟩
      ⟨(stage.advance setting files).1 :: rest, (stage.advance setting files).2⟩ := by
  cases finished : stage.isDone with
  | false =>
    have first : (Moment.mk (stage :: rest) files).jobs[0]? = some stage := rfl
    exact .single ⟨0, .step first finished⟩
  | true =>
    cases stage with
    | done outcome => exact Relation.ReflTransGen.refl
    | _ => cases finished

theorem complete_reaches (stage : Stage) (rest : List Stage) (files : FileSystem) :
    Reaches setting ⟨stage :: rest, files⟩
      ⟨.done (stage.complete setting files).1 :: rest, (stage.complete setting files).2⟩ := by
  -- A job that has been laid out needs one step, and each stage before it one more.
  have last : ∀ document work files, Reaches setting ⟨.laidOut document work :: rest, files⟩
      ⟨.done (deliver document work files).1 :: rest, (deliver document work files).2⟩ :=
    fun document work files => advance_reaches (.laidOut document work) rest files
  have second : ∀ origin document files,
      Reaches setting ⟨.loaded origin document :: rest, files⟩
        ⟨.done ((Stage.loaded origin document).complete setting files).1 :: rest,
          ((Stage.loaded origin document).complete setting files).2⟩ := by
    intro origin document files
    cases document with
    | error trouble => exact advance_reaches (.loaded origin (.error trouble)) rest files
    | ok document =>
      exact (advance_reaches (.loaded origin (.ok document)) rest files).trans (last _ _ _)
  cases stage with
  | waiting origin => exact (advance_reaches (.waiting origin) rest files).trans (second _ _ _)
  | loaded origin document => exact second origin document files
  | laidOut document work => exact last document work files
  | done outcome => exact .refl

/-- Jobs may be completed one after the other. -/
theorem complete_all_reaches (jobs : List Stage) (files : FileSystem) :
    Reaches setting ⟨jobs, files⟩
      ⟨(completeAll setting jobs files).1.map .done, (completeAll setting jobs files).2⟩ := by
  induction jobs generalizing files with
  | nil => exact .refl
  | cons stage rest ih => exact (complete_reaches stage rest files).trans (Reaches.behind _ (ih _))

/-- All sources may be read before anything else is done. -/
theorem load_all_reaches (origins : List Origin) (files : FileSystem) :
    Reaches setting ⟨origins.map .waiting, files⟩
      ⟨origins.map fun origin => .loaded origin (load setting files origin), files⟩ := by
  induction origins with
  | nil => exact .refl
  | cons origin rest ih => exact (advance_reaches (.waiting origin) _ files).trans (Reaches.behind _ ih)

end

section Run

variable (options : Options) (backend : Backend) (input : Except Text Bytes)

/-- One job after the other is a run in order. -/
theorem in_order_eq (paths : List Text) (files : FileSystem) :
    Run.inOrder options backend paths files =
      completeAll ⟨options, backend, input⟩ ((paths.map Origin.file).map .waiting) files := by
  induction paths generalizing files with
  | nil => rfl
  | cons path rest ih =>
    simp only [Run.inOrder, List.map_cons, completeAll, ih]
    rfl

theorem finish_all_eq (loaded : List (Text × Except Trouble Document)) (files : FileSystem) :
    Run.finishAll options backend loaded files = completeAll ⟨options, backend, input⟩
      (loaded.map fun pair => .loaded (.file pair.1) pair.2) files := by
  induction loaded generalizing files with
  | nil => rfl
  | cons pair rest ih =>
    simp only [Run.finishAll, List.map_cons, completeAll, ih]
    rfl

/-- A run is a sequence of steps after which every job is done. -/
theorem outcomes_reaches (files : FileSystem) :
    Reaches ⟨options, backend, input⟩ (.start options files)
      ⟨(Run.outcomes options backend input files).1.map .done,
        (Run.outcomes options backend input files).2⟩ := by
  rw [Run.outcomes, Moment.start, origins]
  split
  · exact complete_reaches (.waiting .input) [] files
  · split
    · have loaded : Reaches ⟨options, backend, input⟩ _ _ :=
        load_all_reaches (options.files.map .file) files
      rw [Run.together, finish_all_eq options backend input]
      refine loaded.trans ?_
      rw [List.map_map, List.map_map]
      exact complete_all_reaches _ files
    · rw [in_order_eq options backend input]
      exact complete_all_reaches _ files

end Run

end LambdaLayout.Job
