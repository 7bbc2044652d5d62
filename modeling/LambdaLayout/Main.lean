import LambdaLayout.Program

/-!
The command. It reads and writes real files and streams, and leaves everything else to the program.
No style backends are at hand, so a run that asks for one reports that it was not found.
-/

namespace LambdaLayout.Main

/-- The reason for which the system refused something. -/
def reasonOf (error : IO.Error) : Text :=
  match error with
  | .noFileOrDirectory _ _ _ => PathFault.notFound.message
  | .inappropriateType _ _ _ => PathFault.isDirectory.message
  | .permissionDenied _ _ _ => PathFault.readOnly.message
  | other => other.toString.toList

/-- An action, or the reason for which it was refused. -/
def attempt {α : Type} (action : IO α) : IO (Except Text α) := do
  try
    return .ok (← action)
  catch error =>
    return .error (reasonOf error)

/-- Everything that is left of a stream, after what has been read already. -/
partial def readRest (stream : IO.FS.Stream) (before : ByteArray) : IO ByteArray := do
  let part ← stream.read 65536
  if part.isEmpty then return before else readRest stream (before ++ part)

/-- The array of some bytes. -/
def toArray (bytes : Bytes) : ByteArray := ⟨bytes.toArray⟩

/-- Reads a file. -/
def readDocument (mode : Mode) (path : Text) : IO (Except Trouble Document) := do
  match ← attempt (IO.FS.readBinFile (String.ofList path)) with
  | .ok bytes => return Document.ofBytes (.file path) mode bytes.toList
  | .error reason => return .error (.read path reason)

/-- Lays out a file. -/
def runFile (options : Options) (path : Text) : IO Outcome := do
  match ← readDocument options.mode path with
  | .error trouble => return Job.unread path trouble
  | .ok document =>
    let work := Job.work options Backend.none document
    match work.code.map document.delivery with
    | .ok (.overwrite path bytes) =>
      match ← attempt (IO.FS.writeBinFile (String.ofList path) (toArray bytes)) with
      | .ok _ => return ⟨document.name, [], .ok true, work.request⟩
      | .error reason => return ⟨document.name, [], .error (.write path reason), work.request⟩
    | _ => return (Job.deliver document work { }).1

/-- Lays out the standard input. -/
def runInput (options : Options) : IO Outcome := do
  let stream ← IO.getStdin
  let input ← attempt (readRest stream ByteArray.empty)
  return (Job.ofInput options Backend.none (input.map ByteArray.toList) { }).1

/-- Writes what the program has to say, and gives its exit status. -/
def finish (ending : Ending) : IO UInt32 := do
  let output ← IO.getStdout
  output.write (toArray ending.output)
  output.flush
  let errors ← IO.getStderr
  errors.putStr (String.ofList ending.errors)
  return ending.exitCode.toUInt32

/-- The whole command. -/
def command (arguments : List String) : IO UInt32 := do
  match Program.start (arguments.map String.toList) with
  | .error ending => finish ending
  | .ok options =>
    let outcomes ←
      if options.readsInput then do
        let outcome ← runInput options
        pure [outcome]
      else options.files.mapM (runFile options)
    finish (Program.ended options.mode (Report.ofOutcomes { } outcomes))

end LambdaLayout.Main

/-- The entry of the command. -/
def main (arguments : List String) : IO UInt32 := LambdaLayout.Main.command arguments
