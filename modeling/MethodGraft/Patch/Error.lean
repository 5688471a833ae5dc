import MethodGraft.Typed.Error

/-!
# Patch.Error — why a class or an archive is not patched
-/

namespace MethodGraft.Patch

open ClassFile

/-- Everything that can stop a patch.  The first error ends it, and nothing is written. -/
inductive Error where
  | malformedClass (source : Classpath.Malformation)
  /-- The class file declares another class than the one to be patched. -/
  | wrongClass (expected found : String)
  | symbolNotFound (name : String)
  | source (error : Source.Error)
  | typing (line : Nat) (fault : Typed.Fault)
  /-- The source declares another method than the one to be replaced. -/
  | notAReplacement (line : Nat) (name descriptor wantedName wantedDescriptor : String)
  | methodNotFound (owner name descriptor : String)
  | duplicateMethod (owner name descriptor : String)
  | entryNotFound (entry : String)
  | archive (error : Archive.Error)
  /-- The destination names no file. -/
  | notAFilePath (path : String)
  deriving DecidableEq, Repr

namespace Error

def classFault? : Error → Option String
  | .malformedClass m => some m.message
  | .wrongClass expected found => some ("expected class " ++ expected ++ ", found " ++ found)
  | _ => none

def sourceMessage : Source.Error → String
  | .syntaxFault line fault => "syntax error at line " ++ toString line ++ ": " ++ fault.text
  | .unsupported line construct =>
    "unsupported construct at line " ++ toString line ++ ": " ++ construct.text

def typeMessage (line : Nat) (text : String) : String :=
  "type error at line " ++ toString line ++ ": " ++ text

def message (e : Error) : String :=
  match e with
  | .malformedClass _ | .wrongClass .. => "malformed class: " ++ e.classFault?.getD ""
  | .symbolNotFound name => "symbol not found: " ++ dotted name
  | .source e => sourceMessage e
  | .typing line fault => typeMessage line fault.text
  | .notAReplacement line name descriptor wantedName wantedDescriptor =>
    typeMessage line ("synthesized method " ++ name ++ descriptor ++ " does not replace " ++
      wantedName ++ wantedDescriptor)
  | .methodNotFound owner name descriptor =>
    "method " ++ name ++ descriptor ++ " not found in " ++ owner
  | .duplicateMethod owner name descriptor =>
    "method " ++ name ++ descriptor ++ " already exists in " ++ owner
  | .entryNotFound entry => "archive has no entry " ++ entry
  | .archive e => e.message
  | .notAFilePath path => (Files.PublishError.notAFilePath path).message

def line? : Error → Option Nat
  | .source e => some e.line
  | .typing line _ | .notAReplacement line .. => some line
  | _ => none

def ofLookup : Classpath.Error → Error
  | .notFound name => .symbolNotFound name
  | .malformed _ m => .malformedClass m
  | .unreadable e => .archive e

def ofTyped : Typed.Error → Error
  | .source e => .source e
  | .fault line fault => .typing line fault
  | .resolve e => ofLookup e
  | .classFile e => .malformedClass (.file e)

end Error

end MethodGraft.Patch
