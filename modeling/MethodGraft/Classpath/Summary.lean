import MethodGraft.ClassFile.Basic

/-!
# Classpath.Summary — a class as others see it

A summary holds the place of a class in the hierarchy and the signatures of its members, but no
method bodies.
-/

namespace MethodGraft.Classpath

open ClassFile

structure MemberSummary where
  flags : AccessFlags
  name : String
  descriptor : String
  deriving DecidableEq, Repr, Inhabited

structure Summary where
  name : String
  superName? : Option String
  interfaces : List String
  flags : AccessFlags
  fields : List MemberSummary
  methods : List MemberSummary
  deriving DecidableEq, Repr, Inhabited

namespace Summary

def ofMember (c : ClassFile) (m : Member) : Except ClassFile.Error MemberSummary := do
  let name ← c.memberName m
  let descriptor ← c.memberDescriptor m
  return ⟨m.flags, name, descriptor⟩

def ofClass (c : ClassFile) : Except ClassFile.Error Summary := do
  let fields ← c.fields.mapM (ofMember c)
  let methods ← c.methods.mapM (ofMember c)
  return {
    name := ← c.name, superName? := ← c.superName?, interfaces := ← c.interfaceNames
    flags := c.flags, fields, methods }

def arrayInterfaces : List String := ["java/lang/Cloneable", "java/io/Serializable"]

/-- The summary of the array class with this name.  Array classes have no class file. -/
def ofArray (name : String) : Summary where
  name
  superName? := some FieldType.rootClass
  interfaces := arrayInterfaces
  flags := .union .publicFlag .finalFlag
  fields := []
  methods := []

def isInterface (s : Summary) : Bool := s.flags.isInterface

end Summary

/-- The package that a class name begins with: what stands before its last slash. -/
def packageOf (name : String) : String :=
  String.ofList ((name.toList.reverse.dropWhile (· != '/')).drop 1).reverse

/-- The name of a class without its package: what stands after the last slash. -/
def simpleName (name : String) : String :=
  String.ofList (name.toList.reverse.takeWhile (· != '/')).reverse

end MethodGraft.Classpath
