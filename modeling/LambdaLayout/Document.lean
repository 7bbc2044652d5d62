import LambdaLayout.Diff
import LambdaLayout.FileSystem
import LambdaLayout.Options
import LambdaLayout.Trouble

/-!
Sources and where their layouts go. A document is a source that was read, from a file or from the
standard input. What is to be done with its layout depends on the mode of the run, on where the
source came from, and on whether the layout differs from it.
-/

namespace LambdaLayout

/-- Where a source was read from. -/
inductive Origin where
  /-- The file at a path. -/
  | file (path : Text)
  /-- The standard input. -/
  | input
  deriving DecidableEq

/-- The name of the origin in messages. -/
def Origin.name : Origin → Text
  | .file path => path
  | .input => "<stdin>".toList

/-- Something that takes output. It may have a reason to refuse whatever is not empty. -/
structure Sink where
  /-- Why it takes nothing. -/
  refusal : Option Text := none
  deriving DecidableEq

/-- What arrives of bytes that are written. -/
def Sink.write (sink : Sink) (bytes : Bytes) : Except Trouble Bytes :=
  match sink.refusal with
  | none => .ok bytes
  | some reason => if bytes.isEmpty then .ok [] else .error (.write "stdout".toList reason)

/-- What is to be done with a layout. -/
inductive Delivery where
  /-- Nothing. -/
  | nothing
  /-- Print it. -/
  | print (bytes : Bytes)
  /-- Write it to the file at a path. -/
  | overwrite (path : Text) (bytes : Bytes)
  deriving DecidableEq

/-- Does it: the bytes that are printed, and the files afterwards. -/
def Delivery.perform (sink : Sink) (files : FileSystem) :
    Delivery → Except Trouble (Bytes × FileSystem)
  | .nothing => .ok ([], files)
  | .print bytes => do
    let printed ← sink.write bytes
    return (printed, files)
  | .overwrite path bytes =>
    match files.write path bytes with
    | .ok files => .ok ([], files)
    | .error fault => .error (.write path fault.message)

/-- A source that was read. -/
structure Document where
  /-- Where it came from. -/
  origin : Origin
  /-- What is to happen to its layout. -/
  mode : Mode
  /-- The text. -/
  source : Text
  /-- What the backend made of it. -/
  backendOutput : Bytes := []
  deriving DecidableEq

namespace Document

/-- The name of the document in messages. -/
def name (document : Document) : Text := document.origin.name

/-- The document of bytes that were read. -/
def ofBytes (origin : Origin) (mode : Mode) (bytes : Bytes) : Except Trouble Document :=
  match Utf8.decode bytes with
  | .ok source => .ok { origin := origin, mode := mode, source := source }
  | .error flaw => .error (.decode origin.name flaw)

/-- Reads a file. -/
def ofFile (files : FileSystem) (path : Text) (mode : Mode) : Except Trouble Document :=
  match files.read path with
  | .ok bytes => ofBytes (.file path) mode bytes
  | .error fault => .error (.read path fault.message)

/-- Reads the standard input, which may fail for a reason. -/
def ofInput (input : Except Text Bytes) (mode : Mode) : Except Trouble Document :=
  match input with
  | .ok bytes => ofBytes .input mode bytes
  | .error reason => .error (.read Origin.input.name reason)

/-- Keeps what the backend made of the document. -/
def withBackendOutput (document : Document) (output : Bytes) : Document :=
  { document with backendOutput := output }

/-- Bytes cut after each line feed. -/
def cutLines : Bytes → List Bytes
  | [] => []
  | byte :: rest =>
    if byte = 10 then [byte] :: cutLines rest
    else
      match cutLines rest with
      | [] => [[byte]]
      | line :: lines => (byte :: line) :: lines

/-- The lines of what the backend made of the document. -/
def backendLines (document : Document) : List Bytes := cutLines document.backendOutput

/-- Says that a layout differs from the source. -/
def isChanged (document : Document) (code : Text) : Bool := code != document.source

/-- The difference between the source and a layout. -/
def difference (document : Document) (code : Text) : Text :=
  Diff.unified (document.name ++ " (original)".toList) (document.name ++ " (reformatted)".toList)
    document.source code

/-- What is to be done with a layout. A file is written only when the layout differs, and so is a
difference. What cannot be written in place is printed. -/
def delivery (document : Document) (code : Text) : Delivery :=
  match document.mode, document.origin with
  | .quiet, _ => .nothing
  | .diff, _ =>
    if document.isChanged code then .print (Utf8.encode (document.difference code)) else .nothing
  | .inPlace, .file path =>
    if document.isChanged code then .overwrite path (Utf8.encode code) else .nothing
  | .inPlace, .input => .print (Utf8.encode code)
  | .print, _ => .print (Utf8.encode code)

/-- Delivers a layout. -/
def write (document : Document) (code : Text) (sink : Sink) (files : FileSystem) :
    Except Trouble (Bytes × FileSystem) :=
  (document.delivery code).perform sink files

end Document

end LambdaLayout
