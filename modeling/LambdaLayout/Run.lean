import LambdaLayout.Job

/-!
Runs. A run does one job for each file, or a single one for the standard input, and reports on them
in the order in which the files are named. A job that fails does not keep the others from being
done.
-/

namespace LambdaLayout

/-- The numbers of a run. -/
structure Summary where
  /-- How many jobs there were. -/
  jobs : Nat := 0
  /-- How many sources changed. -/
  changed : Nat := 0
  /-- How many jobs failed. -/
  failed : Nat := 0
  deriving DecidableEq

/-- The exit status of a run. A failure counts more than a change, and a change counts only where it
is to be reported. -/
def Summary.exitCode (summary : Summary) (mode : Mode) : Nat :=
  if 0 < summary.failed then 2
  else if 0 < summary.changed && mode.reportsChanges then 1
  else 0

/-- What a run writes, and its numbers. -/
structure Report where
  /-- The standard output. -/
  output : Bytes := []
  /-- The error output. -/
  errors : Text := []
  /-- The numbers. -/
  summary : Summary := { }
  deriving DecidableEq

namespace Report

/-- The report on a single job: a job fails by itself, or because what it printed is refused. -/
def ofOutcome (sink : Sink) (outcome : Outcome) : Report :=
  match sink.write outcome.printed with
  | .error trouble => ⟨[], trouble.line, ⟨1, 0, 1⟩⟩
  | .ok printed =>
    match outcome.result with
    | .error trouble => ⟨printed, trouble.line, ⟨1, 0, 1⟩⟩
    | .ok changed => ⟨printed, [], ⟨1, changed.toNat, 0⟩⟩

/-- One report after another. -/
def append (first second : Report) : Report where
  output := first.output ++ second.output
  errors := first.errors ++ second.errors
  summary :=
    ⟨first.summary.jobs + second.summary.jobs, first.summary.changed + second.summary.changed,
      first.summary.failed + second.summary.failed⟩

/-- The report on several jobs. -/
def ofOutcomes (sink : Sink) : List Outcome → Report
  | [] => { }
  | outcome :: rest => (ofOutcome sink outcome).append (ofOutcomes sink rest)

end Report

namespace Run

/-- Lays out files one after the other. -/
def inOrder (options : Options) (backend : Backend) :
    List Text → FileSystem → List Outcome × FileSystem
  | [], files => ([], files)
  | path :: rest, files =>
    let (outcome, files) := Job.ofFile options backend path files
    let (outcomes, files) := inOrder options backend rest files
    (outcome :: outcomes, files)

/-- Does the last two steps of several jobs whose sources have been read. -/
def finishAll (options : Options) (backend : Backend) :
    List (Text × Except Trouble Document) → FileSystem → List Outcome × FileSystem
  | [], files => ([], files)
  | (path, document) :: rest, files =>
    let (outcome, files) := Job.finish options backend path document files
    let (outcomes, files) := finishAll options backend rest files
    (outcome :: outcomes, files)

/-- Lays out files side by side: all of them are read before the first layout is delivered. -/
def together (options : Options) (backend : Backend) (paths : List Text) (files : FileSystem) :
    List Outcome × FileSystem :=
  finishAll options backend
    (paths.map fun path => (path, Document.ofFile files path options.mode)) files

/-- The jobs of a run. -/
def outcomes (options : Options) (backend : Backend) (input : Except Text Bytes)
    (files : FileSystem) : List Outcome × FileSystem :=
  if options.readsInput then
    let (outcome, files) := Job.ofInput options backend input files
    ([outcome], files)
  else if options.parallel then together options backend options.files files
  else inOrder options backend options.files files

end Run

end LambdaLayout
