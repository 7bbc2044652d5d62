import LambdaLayout.CommandLine
import LambdaLayout.Help
import LambdaLayout.LogFilter
import LambdaLayout.Run

/-!
The program from its arguments to its exit status. It either answers at once, because it is asked
about itself or is not understood, or makes a run.
-/

namespace LambdaLayout

/-- What the program writes, and how it ends. -/
structure Ending where
  /-- The exit status. -/
  exitCode : Nat
  /-- The standard output. -/
  output : Bytes := []
  /-- The error output. -/
  errors : Text := []
  deriving DecidableEq

namespace Program

/-- The status of a program that is misused. -/
def misuse : Nat := 2

/-- The answer to something that stops the program before its work. -/
def stopped : CommandLine.Stop → Ending
  | .help full => { exitCode := 0, output := Utf8.encode (if full then Help.full else Help.short) }
  | .version => { exitCode := 0, output := Utf8.encode Help.version }
  | .complaint complaint => { exitCode := misuse, errors := complaint.report }

/-- What is wrong with options: first with the files named, then with the log filter. -/
def trouble? (options : Options) : Option Trouble :=
  options.trouble?.or
    ((LogFilter.flaw? options.logFilter).map fun flaw => .logFilter flaw.message)

/-- The options of a run, or the ending if there is no run. -/
def start (arguments : List Text) : Except Ending Options :=
  match CommandLine.parse arguments with
  | .error stop => .error (stopped stop)
  | .ok options =>
    match trouble? options with
    | some trouble => .error { exitCode := misuse, errors := trouble.line }
    | none => .ok options

/-- The ending of a run. -/
def ended (mode : Mode) (report : Report) : Ending :=
  ⟨report.summary.exitCode mode, report.output, report.errors⟩

/-- The whole program. -/
def run (arguments : List Text) (backend : Backend) (input : Except Text Bytes) (sink : Sink)
    (files : FileSystem) : Ending × FileSystem :=
  match start arguments with
  | .error ending => (ending, files)
  | .ok options =>
    let (outcomes, files) := Run.outcomes options backend input files
    (ended options.mode (Report.ofOutcomes sink outcomes), files)

end Program

end LambdaLayout
