import MethodGraft.ClassFile.Basic

/-!
# ClassFile.Edit — making and changing classes

An edit may fail after it has interned names, and those stay in the pool.
-/

namespace MethodGraft.ClassFile

abbrev Edit := ExceptT Error (StateM ClassFile)

namespace Edit

def ofExcept {α : Type} (r : Except Error α) : Edit α := ExceptT.mk (pure r)

def intern {α : Type} (x : Interning α) : Edit α := do
  let c ← get
  let (r, pool) := x.run.run c.pool
  set { c with pool }
  ofExcept r

def ask {α : Type} (f : ClassFile → Except Error α) : Edit α := do
  ofExcept (f (← get))

/-- Renames the method with this index.  The new name is a constant of its own, so whatever else
shares the old one keeps it. -/
def renameMethod (index : Nat) (newName : String) : Edit Unit := do
  if (← get).methods.length ≤ index then throw ⟨.noMethodAt index, []⟩
  -- changing the old constant would rename all that shares it
  let nameIndex ← intern (Interning.utf8 newName)
  modify fun c => { c with methods := c.methods.modify index fun m => { m with nameIndex } }

/-- Adds a method at the end and returns its index.  Refuses a second method with the same name and
descriptor. -/
def addMethod (m : Member) : Edit Nat := do
  let name ← ask (·.memberName m)
  let descriptor ← ask (·.memberDescriptor m)
  -- an unreadable descriptor is refused here, although reading a class file lets it pass
  let _ ← ask fun _ => MethodDescriptor.ofDescriptor descriptor
  if (← ask (·.findMethod? name descriptor)).isSome then throw ⟨.methodExists name descriptor, []⟩
  modify fun c => { c with methods := c.methods ++ [m] }
  return (← get).methods.length - 1

def addField (flags : AccessFlags) (name descriptor : String) : Edit Nat := do
  let nameIndex ← intern (Interning.utf8 name)
  let descriptorIndex ← intern (Interning.utf8 descriptor)
  modify fun c => { c with fields := c.fields ++ [⟨flags, nameIndex, descriptorIndex, []⟩] }
  return (← get).fields.length - 1

def addMethodWithCode (flags : AccessFlags) (name descriptor : String)
    (code : Option CodeAttribute) : Edit Nat := do
  let nameIndex ← intern (Interning.utf8 name)
  let descriptorIndex ← intern (Interning.utf8 descriptor)
  addMethod ⟨flags, nameIndex, descriptorIndex, code.toList.map .code⟩

end Edit

/-- A class without members.  The class and its superclass, if any, are its first constants. -/
def new (name : String) (superName : Option String) (flags : AccessFlags) :
    Except Error ClassFile := do
  -- the class comes first, so that its constants have the lowest indices
  let indices : Interning (UInt16 × UInt16) := do
    let thisClass ← Interning.classRef name
    match superName with
    | some s => return (thisClass, ← Interning.classRef s)
    | none => return (thisClass, 0)
  let (r, pool) := indices.run.run .empty
  let (thisClass, superClass) ← r
  return {
    minorVersion := 0, majorVersion := defaultMajorVersion, pool, flags, thisClass, superClass,
    interfaces := [], fields := [], methods := [], attributes := [] }

end MethodGraft.ClassFile
