import LambdaLayout.FileSystem
import LambdaLayout.Trouble

/-!
Style backends: programs that get a source on their input and print it in a style of their own. Here
a backend is whatever answers a request. The answer of a program counts whether or not the program
says that it succeeded.
-/

namespace LambdaLayout

/-- What a backend is asked. -/
structure Request where
  /-- The program and its arguments. -/
  command : List Text
  /-- What the program gets on its input. -/
  input : Bytes
  deriving DecidableEq

/-- What a program gives back. -/
structure Reply where
  /-- The program says that it succeeded. -/
  success : Bool
  /-- What the program printed. -/
  output : Bytes
  deriving DecidableEq

/-- Something that answers requests. -/
abbrev Backend := Request → Except Trouble Reply

/-- A program: it gets arguments and an input. -/
abbrev Tool := List Text → Bytes → Reply

/-- The backend that runs the programs that can be found. -/
def Backend.ofTools (find : Text → Option Tool) : Backend := fun request =>
  match request.command with
  | [] => .error (.backendSpawn [] "empty backend command".toList)
  | program :: arguments =>
    match find program with
    | none => .error (.backendSpawn program PathFault.notFound.message)
    | some tool => .ok (tool arguments request.input)

/-- The backend of a machine on which there are no programs. -/
def Backend.none : Backend := Backend.ofTools fun _ => Option.none

end LambdaLayout
