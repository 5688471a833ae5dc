import MethodGraft.Archive.Error
import MethodGraft.ClassFile.Error

/-!
# Classpath.Error — why a class cannot be looked up
-/

namespace MethodGraft.Classpath

open ClassFile

inductive Malformation where
  /-- Its bytes are no class file. -/
  | file (error : ClassFile.Error)
  /-- The file for one class declares another one. -/
  | misnamed (requested declared : String)
  /-- Its superclasses come back to this class. -/
  | cyclic (name : String)
  deriving DecidableEq, Repr

def Malformation.message : Malformation → String
  | .file error => error.message
  | .misnamed requested declared => "entry for " ++ requested ++ " declares class " ++ declared
  | .cyclic name => "cyclic inheritance involving " ++ dotted name

inductive Error where
  /-- No root has the class. -/
  | notFound (name : String)
  | malformed (name : String) (source : Malformation)
  /-- A root could not be read. -/
  | unreadable (error : Archive.Error)
  deriving DecidableEq, Repr

/-- The text of an error.  Of a root that could not be read it tells the kind of fault only. -/
def Error.message : Error → String
  | .notFound name => "class " ++ dotted name ++ " not found on the classpath"
  | .malformed name source => "malformed class " ++ name ++ ": " ++ source.message
  | .unreadable (.io _) => "classpath I/O error"
  | .unreadable (.zip _) => "classpath archive error"

end MethodGraft.Classpath
