import LambdaLayout.Backend
import LambdaLayout.Document

/-!
Jobs. A job lays out one source in three steps: it reads the source, has the backend go over it and
lays out what comes back, and delivers the layout. Only the first step looks at the files and only
the last one may change them. What a job prints is held back in its outcome.
-/

namespace LambdaLayout

/-- How a job ended. -/
structure Outcome where
  /-- The name of the source. -/
  origin : Text
  /-- What the job printed. -/
  printed : Bytes
  /-- Whether the source changed, or what went wrong. -/
  result : Except Trouble Bool
  /-- What the backend was asked. -/
  request : Option Request

namespace Job

/-- The layout of the code in some bytes, which the messages call by the given name. -/
def layOut (keyword origin : Text) (bytes : Bytes) : Except Trouble Text :=
  match Utf8.decode bytes with
  | .error flaw => .error (.decode origin flaw)
  | .ok code =>
    match Reformat.ofSource keyword code with
    | .error failure => .error (.layout origin failure)
    | .ok reformat => .ok reformat.output

/-- What the backend is asked about a document, if there is a backend. -/
def request? (options : Options) (document : Document) : Option Request :=
  (options.adapter.command options.backendArguments).map fun command =>
    ⟨command, Utf8.encode document.source⟩

/-- What the backend makes of a document. Without a backend that is the document itself. -/
def answer (options : Options) (backend : Backend) (document : Document) : Except Trouble Bytes :=
  match request? options document with
  | none => .ok (Utf8.encode document.source)
  | some request =>
    match backend request with
    | .ok reply => .ok reply.output
    | .error trouble => .error trouble

/-- What is left to do for a document that has been laid out. -/
structure Work where
  /-- What the backend was asked. -/
  request : Option Request
  /-- The layout to deliver, or what went wrong. -/
  code : Except Trouble Text

/-- Has the backend go over a document, and lays it out. -/
def work (options : Options) (backend : Backend) (document : Document) : Work where
  request := request? options document
  code := (answer options backend document).bind (layOut options.keyword document.name)

/-- Delivers what has been laid out. -/
def deliver (document : Document) (work : Work) (files : FileSystem) : Outcome × FileSystem :=
  match work.code with
  | .error trouble => (⟨document.name, [], .error trouble, work.request⟩, files)
  | .ok code =>
    match document.write code { } files with
    | .error trouble => (⟨document.name, [], .error trouble, work.request⟩, files)
    | .ok (printed, files) =>
      (⟨document.name, printed, .ok (document.isChanged code), work.request⟩, files)

/-- The outcome of a job whose source could not be read. -/
def unread (origin : Text) (trouble : Trouble) : Outcome := ⟨origin, [], .error trouble, none⟩

/-- The last two steps of a job. -/
def finish (options : Options) (backend : Backend) (origin : Text)
    (document : Except Trouble Document) (files : FileSystem) : Outcome × FileSystem :=
  match document with
  | .error trouble => (unread origin trouble, files)
  | .ok document => deliver document (work options backend document) files

/-- Lays out a file. -/
def ofFile (options : Options) (backend : Backend) (path : Text) (files : FileSystem) :
    Outcome × FileSystem :=
  finish options backend path (Document.ofFile files path options.mode) files

/-- Lays out the standard input. -/
def ofInput (options : Options) (backend : Backend) (input : Except Text Bytes)
    (files : FileSystem) : Outcome × FileSystem :=
  finish options backend Origin.input.name (Document.ofInput input options.mode) files

end Job

end LambdaLayout
