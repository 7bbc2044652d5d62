import LambdaLayout.Reformat

/-!
What a run is asked to do: which files to lay out, what to do with the result, whether a style
backend goes over each source first, and how the run writes its log.
-/

namespace LambdaLayout

/-- What happens to a laid out source. -/
inductive Mode where
  /-- It is printed. -/
  | print
  /-- Its difference from the source is printed. -/
  | diff
  /-- It replaces the source if it differs. -/
  | inPlace
  /-- Nothing; the exit status tells whether it differs. -/
  | quiet
  deriving DecidableEq, Inhabited

/-- Says that the exit status tells whether a source changed. -/
def Mode.reportsChanges (mode : Mode) : Bool := mode == .diff || mode == .quiet

/-- The style backends. -/
inductive Adapter where
  /-- None. -/
  | dummy
  | yapf
  | black
  deriving DecidableEq, Inhabited

namespace Adapter

/-- All adapters, as they are listed. -/
def all : List Adapter := [dummy, yapf, black]

/-- The name of the adapter. -/
def name : Adapter → Text
  | dummy => "dummy".toList
  | yapf => "yapf".toList
  | black => "black".toList

/-- The adapter of a name. -/
def ofName? (text : Text) : Option Adapter := all.find? fun adapter => adapter.name == text

/-- The command of the backend with further arguments, if there is a backend. Both backends read the
source from their input, which one of them has to be told. -/
def command (adapter : Adapter) (arguments : List Text) : Option (List Text) :=
  match adapter with
  | dummy => none
  | yapf => some ("yapf".toList :: arguments)
  | black => some ("black".toList :: "-q".toList :: arguments ++ ["-".toList])

end Adapter

/-- The forms of log output. -/
inductive LogFormat where
  /-- A line for people. -/
  | compact
  /-- A record for machines. -/
  | json
  deriving DecidableEq, Inhabited

namespace LogFormat

/-- The name of the format. -/
def name : LogFormat → Text
  | compact => "compact".toList
  | json => "json".toList

/-- The format of a name, in letters of either case. -/
def ofName? (text : Text) : Option LogFormat :=
  [compact, json].find? fun format => format.name == text.map Char.toLower

/-- The words for a name that is none of a format. -/
def unknown : Text := "Matching variant not found".toList

end LogFormat

/-- The options of a run. -/
structure Options where
  /-- The style backend. -/
  adapter : Adapter := .dummy
  /-- What happens to the result. -/
  mode : Mode := .print
  /-- Files may be worked on side by side. -/
  parallel : Bool := false
  /-- The files. Without any, the standard input is read. -/
  files : List Text := []
  /-- The keyword of extended lambdas. -/
  keyword : Text := Reformat.defaultKeyword
  /-- Further arguments of the backend. -/
  backendArguments : List Text := []
  /-- Which log records are written. -/
  logFilter : Text := "warn".toList
  /-- How they are written. -/
  logFormat : LogFormat := .compact
  deriving DecidableEq, Inhabited

/-- Says that the standard input is read. -/
def Options.readsInput (options : Options) : Bool := options.files.isEmpty

end LambdaLayout
