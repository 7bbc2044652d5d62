import LambdaLayout.Dispatch

/-!
Everything that can go wrong in finding and laying out extended lambdas, and the words for it.
-/

namespace LambdaLayout

/-- Why an operation on a source failed. -/
inductive Failure where
  /-- The grammar could not be made ready. -/
  | parserInit (reason : Text)
  /-- The source does not follow the grammar. -/
  | unparsable (reason : Text)
  /-- The text of a pattern is not a pattern. -/
  | badPattern (pattern : Text) (reason : Text)
  /-- There is no call of the kind looked for. -/
  | notFound
  /-- There are several calls of the kind looked for. -/
  | ambiguous (identifier : Text)
  /-- A rule for tokens was not taken. -/
  | dispatch (fault : Dispatch.Fault)
  /-- What was laid out is not what was read. -/
  | contentChanged (reason : Text)
  /-- A source file could not be read. -/
  | io (path : Text) (reason : Text)
  deriving DecidableEq

/-- The words of the failure. -/
def Failure.message : Failure → Text
  | .parserInit reason => "failed to initialise Python parser: ".toList ++ reason
  | .unparsable reason => "failed to parse source: ".toList ++ reason
  | .badPattern pattern reason =>
    "invalid pattern '".toList ++ pattern ++ "': ".toList ++ reason
  | .notFound => "cannot parse lambda for unknown reason".toList
  | .ambiguous identifier => "ambiguous identifier '".toList ++ identifier ++ "'".toList
  | .dispatch fault => fault.message
  | .contentChanged reason => "rewrite failed: ".toList ++ reason
  | .io path reason => "failed to read ".toList ++ path ++ ": ".toList ++ reason

end LambdaLayout
