import MethodGraft.Files.Tree

/-!
# Files.Publish — all of a file or nothing

The contents go to a temporary file beside the destination, which is then renamed.  At every moment
the destination has its old contents or all of the new ones.
-/

namespace MethodGraft.Files

def faultOf {α : Type} (x : Action Fault α) : Action PublishError α := x.adapt .fault

/-- The name of the temporary file for the file `name`, written by the process with this number. -/
def temporaryName (process : Nat) (name : String) : String :=
  "." ++ name ++ "." ++ toString process ++ ".tmp"

/-- Moves the temporary file at `source` to the destination, or takes it away if that fails. -/
def moveIntoPlace (dest : Path) (source target : Location) : Action Fault Unit := do
  try
    expectFilePath dest
    renameFile source target
  catch e =>
    -- the destination is as before; only the temporary file goes
    modify fun t => t.remove source
    throw e

/-- Writes a file so that it is never seen half written.  Missing directories are made. -/
def publish (process : Nat) (dest : Path) (content : List UInt8) : Action PublishError Unit := do
  let some name := dest.fileName? | throw (.notAFilePath dest.text)
  -- directories that are made stay, even if a later step fails
  let directory ← faultOf (createParent dest)
  let temporary := temporaryName process name
  faultOf (writeFile directory temporary content)
  faultOf (moveIntoPlace dest (directory ++ [temporary]) (directory ++ [name]))

end MethodGraft.Files
