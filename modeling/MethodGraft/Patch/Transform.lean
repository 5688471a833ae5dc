import MethodGraft.Archive.Amend
import MethodGraft.Files.Publish
import MethodGraft.Patch.Apply

/-!
# Patch.Transform — patching archives

An archive is patched in memory and then published as a whole, so a failed patch leaves the
destination as it was.
-/

namespace MethodGraft.Patch

open Classpath

inductive Transformed where
  /-- The patch does not apply; these are the bytes of the input. -/
  | copied (bytes : List UInt8)
  | patched (bytes : List UInt8)

def Transformed.bytes : Transformed → List UInt8
  | .copied bytes | .patched bytes => bytes

def ofOpening {α : Type} (r : Except Classpath.Error α) : Patching α :=
  ExceptT.mk (pure (r.mapError Error.ofLookup))

def openRoots (tree : Files.Tree) : List Entry → Patching Unit
  | [] => return
  | e :: entries => do
    let root ← ofOpening (e.openRoot tree)
    Patching.look (pushRoot root)
    openRoots tree entries

def openOwn (bytes : List UInt8) : Patching Unit := do
  let own ← ofOpening ((Archive.ofBytes bytes).mapError .unreadable)
  Patching.look (pushRoot (.archive own))

def patchEntry (spec : Spec) (entry : String) (content : List UInt8) : Patching (List UInt8) := do
  Patching.tell (.writingBack entry)
  patchClass content spec

/-- Patches the archive called `name` if the patch applies to it.  Classes are looked up in the
archive itself first, then in the classpath. -/
def transformArchive (tree : Files.Tree) (classpath : List Entry) (spec : Spec) (name : String)
    (bytes : List UInt8) : Patching Transformed := do
  if !spec.appliesTo name then
    Patching.tell (.copying name)
    return .copied bytes
  Patching.tell (.patching name)
  openOwn bytes
  openRoots tree classpath
  let wanted (entry : String) : StateM Run Bool := return entry == spec.entryName
  let out ← Archive.amend .archive wanted (patchEntry spec) bytes
  -- the patch applies to the archive, but the class is not there
  if out.changed.isEmpty then throw (.entryNotFound spec.entryName)
  return .patched out.bytes

/-! ## Files -/

/-- One archive of several: its name, where it is read from and where the result goes. -/
structure Job where
  name : String
  input : Files.Path
  dest : Files.Path

def ofPublishing : Files.PublishError → Error
  | .notAFilePath path => .notAFilePath path
  | .fault f => .archive (.io f)

/-- Reads an archive, patches it and publishes the result.  The process with the number `process`
does this. -/
def transformFile (process : Nat) (classpath : List Entry) (spec : Spec) (job : Job) :
    Files.Action Error Transformed := do
  -- what the roots hold is read once, before anything is written
  let tree ← get
  let bytes ← ExceptT.mk (pure ((tree.read job.input).mapError fun f => Error.archive (.io f)))
  let patching := transformArchive tree classpath spec job.name bytes
  let result ← ExceptT.mk (pure (patching.run.run {}).1)
  (Files.publish process job.dest result.bytes).adapt ofPublishing
  return result

/-- Does several jobs, each with a classpath of its own, and returns their results in order. -/
def transformAll (process : Nat) (classpath : List Entry) (spec : Spec) :
    List Job → StateM Files.Tree (List (Except Error Transformed))
  | [] => return []
  | job :: jobs => do
    let r ← (transformFile process classpath spec job).run
    return r :: (← transformAll process classpath spec jobs)

end MethodGraft.Patch
