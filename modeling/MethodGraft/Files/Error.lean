/-!
# Files.Error — why files cannot be read or written
-/

namespace MethodGraft.Files

inductive Fault where
  /-- There is no such file. -/
  | notFound
  /-- Anything else: damaged data, a directory where a file was expected. -/
  | other
  deriving DecidableEq, Repr

inductive PublishError where
  /-- The destination names no file. -/
  | notAFilePath (path : String)
  | fault (fault : Fault)
  deriving DecidableEq, Repr

def PublishError.message : PublishError → String
  | .notAFilePath path => path ++ " is not a file path"
  | .fault _ => "I/O error"

end MethodGraft.Files
