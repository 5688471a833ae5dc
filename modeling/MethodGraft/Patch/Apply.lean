import MethodGraft.ClassFile.Codec
import MethodGraft.Code.Check
import MethodGraft.Patch.Error
import MethodGraft.Patch.Spec
import MethodGraft.Typed.Compile

/-!
# Patch.Apply — replacing one method of a class

The method that is replaced keeps its body under a new name, and a newly compiled method takes over
its name and descriptor.
-/

namespace MethodGraft.Patch

open ClassFile Classpath

/-! ## 1. Notices -/

inductive Notice where
  | copying (archiveName : String)
  | patching (archiveName : String)
  | writingBack (entry : String)
  | replacing (className method : String)
  | neverCalls (className method renamed : String)
  | generating (className : String)
  deriving DecidableEq, Repr

namespace Notice

def isWarning : Notice → Bool
  | .neverCalls .. => true
  | _ => false

def text : Notice → String
  | .copying name => "Copy " ++ name ++ " without modifications"
  | .patching name => "Patching " ++ name
  | .writingBack entry => "Writing back modified " ++ entry ++ " to archive"
  | .replacing className method => "Replacing " ++ simpleName className ++ "#" ++ method
  | .neverCalls className method renamed =>
    simpleName className ++ "#" ++ method ++ " never calls " ++ renamed
  | .generating className => "Generating bytecode for " ++ simpleName className

def line (n : Notice) : String := (if n.isWarning then "WARN " else "INFO ") ++ n.text

end Notice

/-! ## 2. Steps -/

structure Run where
  resolver : Resolver := {}
  notices : List Notice := []

abbrev Patching := ExceptT Error (StateM Run)

namespace Patching

def tell (n : Notice) : Patching Unit := modify fun r => { r with notices := n :: r.notices }

def ofExcept {α : Type} (r : Except ClassFile.Error α) : Patching α :=
  ExceptT.mk (pure (r.mapError fun e => .malformedClass (.file e)))

def look {α : Type} (x : Resolve α) : Patching α := do
  let s ← get
  let (r, resolver) := x.run.run s.resolver
  set { s with resolver }
  ExceptT.mk (pure (r.mapError Error.ofLookup))

/-- Compiles with the class `file`, and returns it with the constants that were added. -/
def compile {α : Type} (file : ClassFile) (x : Typed.Compilation α) : Patching (α × ClassFile) := do
  let s ← get
  let (r, session) := x.run.run ⟨file, s.resolver⟩
  set { s with resolver := session.resolver }
  ExceptT.mk (pure ((r.map fun a => (a, session.file)).mapError Error.ofTyped))

def edit {α : Type} (file : ClassFile) (x : Edit α) : Patching (α × ClassFile) := do
  let (r, file) := x.run.run file
  ofExcept (r.map fun a => (a, file))

end Patching

open Patching

/-- The class that the bytes hold, which must be the one to be patched, and the index of the
method. -/
def findTarget (bytes : List UInt8) (spec : Spec) : Patching (ClassFile × Nat) := do
  let file ← ofExcept (decode bytes)
  let owner ← ofExcept file.name
  if owner ≠ spec.className then throw (.wrongClass spec.className owner)
  let some index ← ofExcept (file.findMethod? spec.methodName spec.methodDescriptor)
    | throw (.methodNotFound owner spec.methodName spec.methodDescriptor)
  -- the renaming would make two methods alike
  if (← ofExcept (file.findMethod? spec.renamedMethod spec.methodDescriptor)).isSome then
    throw (.duplicateMethod owner spec.renamedMethod spec.methodDescriptor)
  return (file, index)

def checkReplacement (file : ClassFile) (m : Member) (spec : Spec) : Patching Unit := do
  let name ← ofExcept (file.memberName m)
  let descriptor ← ofExcept (file.memberDescriptor m)
  if name ≠ spec.methodName ∨ descriptor ≠ spec.methodDescriptor then
    throw (.notAReplacement spec.firstLine name descriptor spec.methodName
      spec.methodDescriptor)
  -- the method of old has another name by now
  if (← ofExcept (file.findMethod? name descriptor)).isSome then
    throw (.duplicateMethod spec.className name descriptor)
  match m.code? with
  -- without a body there is nothing to warn of
  | none => return
  | some body =>
    ofExcept (Code.checkConstantOperands body.code file.pool)
    let calls ← ofExcept (Code.invokedMethods body.code file.pool)
    if !calls.any fun c => c.owner == spec.className && c.name == spec.renamedMethod &&
        c.descriptor == spec.methodDescriptor then
      tell (.neverCalls spec.className name spec.renamedMethod)

/-- Patches a class file.  The class is made known under its name after the renaming, so the new
body sees the renamed method. -/
def patchClass (bytes : List UInt8) (spec : Spec) : Patching (List UInt8) := do
  let (file, index) ← findTarget bytes spec
  tell (.replacing spec.className spec.methodName)
  let (_, file) ← Patching.edit file (Edit.renameMethod index spec.renamedMethod)
  -- from here on the name means this class, not the one on the classpath
  let _ ← look (define file)
  let (m, file) ← compile file (Typed.compile spec.imports spec.source)
  checkReplacement file m spec
  let (_, file) ← Patching.edit file (Edit.addMethod m)
  tell (.generating spec.className)
  ofExcept file.encode

end MethodGraft.Patch
