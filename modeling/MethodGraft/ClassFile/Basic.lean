import MethodGraft.ClassFile.AccessFlags
import MethodGraft.ClassFile.ConstantPool

/-!
# ClassFile.Basic — the parts of a class file

A class file names everything by constant pool index.  Attributes other than `Code` are kept as the
bytes they came with; `Code` attributes are taken apart wherever they occur, also inside one
another.
-/

namespace MethodGraft

namespace ClassFile

/-- An exception table entry: control that leaves the range by an exception of the caught type goes
to the handler. -/
structure ExceptionHandler where
  startPc : UInt16
  endPc : UInt16
  handlerPc : UInt16
  /-- The index of the caught class; 0 catches everything. -/
  catchType : UInt16
  deriving DecidableEq, Repr, Inhabited

mutual

inductive Attribute where
  | code (body : CodeAttribute)
  | raw (nameIndex : UInt16) (info : List UInt8)

structure CodeAttribute where
  nameIndex : UInt16
  maxStack : UInt16
  maxLocals : UInt16
  code : List UInt8
  handlers : List ExceptionHandler
  attributes : List Attribute

end

def Attribute.nameIndex : Attribute → UInt16
  | .code body => body.nameIndex
  | .raw nameIndex _ => nameIndex

structure Member where
  flags : AccessFlags
  nameIndex : UInt16
  descriptorIndex : UInt16
  attributes : List Attribute

/-- The body of a method, if it has one: its first `Code` attribute. -/
def Member.code? (m : Member) : Option CodeAttribute :=
  m.attributes.findSome? fun
    | .code body => some body
    | .raw .. => none

def defaultMajorVersion : UInt16 := 52

end ClassFile

open ClassFile in
structure ClassFile where
  minorVersion : UInt16
  majorVersion : UInt16
  pool : ConstantPool
  flags : AccessFlags
  thisClass : UInt16
  /-- The index of the superclass; 0 for the class that has none. -/
  superClass : UInt16
  interfaces : List UInt16
  fields : List Member
  methods : List Member
  attributes : List Attribute

namespace ClassFile

def name (c : ClassFile) : Except Error String := c.pool.className c.thisClass

def superName? (c : ClassFile) : Except Error (Option String) :=
  if c.superClass = 0 then .ok none else (c.pool.className c.superClass).map some

def interfaceNames (c : ClassFile) : Except Error (List String) :=
  c.interfaces.mapM c.pool.className

def memberName (c : ClassFile) (m : Member) : Except Error String := c.pool.utf8 m.nameIndex

def memberDescriptor (c : ClassFile) (m : Member) : Except Error String :=
  c.pool.utf8 m.descriptorIndex

def attributeNames (c : ClassFile) : Except Error (List String) :=
  c.attributes.mapM fun a => c.pool.utf8 a.nameIndex

def findMethodFrom (c : ClassFile) (name descriptor : String) :
    (index : Nat) → (methods : List Member) → Except Error (Option Nat)
  | _, [] => .ok none
  | index, m :: methods => do
    if (← c.memberName m) = name then
      if (← c.memberDescriptor m) = descriptor then return some index
    c.findMethodFrom name descriptor (index + 1) methods

def findMethod? (c : ClassFile) (name descriptor : String) : Except Error (Option Nat) :=
  c.findMethodFrom name descriptor 0 c.methods

end ClassFile

end MethodGraft
