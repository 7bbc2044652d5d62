import LambdaLayout.Failure
import LambdaLayout.Text.Utf8

/-!
Everything that can go wrong in a run, and the words for it. A trouble names the source or program
concerned and carries the reason as it was given.
-/

namespace LambdaLayout

/-- What went wrong in a run. -/
inductive Trouble where
  /-- The command line is not understood. -/
  | usage (complaint : Text)
  /-- The command line asks to change files, or to show their changes, and names none. -/
  | fileFlags
  /-- A source could not be read. -/
  | read (origin reason : Text)
  /-- A result could not be written. -/
  | write (origin reason : Text)
  /-- The backend could not be started. -/
  | backendSpawn (program reason : Text)
  /-- The backend could not be fed or listened to. -/
  | backendIo (program reason : Text)
  /-- The source, or what the backend made of it, is not a text. -/
  | decode (origin : Text) (flaw : Utf8.Flaw)
  /-- The source could not be laid out. -/
  | layout (origin : Text) (failure : Failure)
  /-- The log filter is not understood. -/
  | logFilter (reason : Text)
  deriving DecidableEq

namespace Trouble

/-- The words of the trouble. -/
def message : Trouble → Text
  | usage complaint => complaint
  | fileFlags => "cannot use --in-place or --diff flags when reading from stdin".toList
  | read origin reason => "failed to read ".toList ++ origin ++ ": ".toList ++ reason
  | write origin reason => "failed to write ".toList ++ origin ++ ": ".toList ++ reason
  | backendSpawn program reason =>
    "failed to spawn backend `".toList ++ program ++ "`: ".toList ++ reason
  | backendIo program reason =>
    "backend `".toList ++ program ++ "` I/O failed: ".toList ++ reason
  | decode origin flaw => origin ++ " is not valid UTF-8: ".toList ++ flaw.message
  | layout origin failure =>
    "failed to format ".toList ++ origin ++ ": ".toList ++ failure.message
  | logFilter reason => "invalid log filter: ".toList ++ reason

/-- Says that the command line is to blame. -/
def isUsage : Trouble → Bool
  | usage _ => true
  | fileFlags => true
  | _ => false

/-- The line in which a run reports the trouble. -/
def line (trouble : Trouble) : Text := "lxfmt: ".toList ++ trouble.message ++ "\n".toList

end Trouble

end LambdaLayout
