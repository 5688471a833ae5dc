/-!
# ClassFile.AccessFlags — access and property bits

Classes, fields and methods carry sixteen flag bits.  Some bits mean different things on different
owners (`SUPER` on a class is `SYNCHRONIZED` on a method), and bits without a name here are kept.
-/

namespace MethodGraft.ClassFile

structure AccessFlags where
  bits : UInt16
  deriving DecidableEq, Repr, Inhabited

namespace AccessFlags

def publicFlag : AccessFlags := ⟨0x0001⟩
def privateFlag : AccessFlags := ⟨0x0002⟩
def protectedFlag : AccessFlags := ⟨0x0004⟩
def staticFlag : AccessFlags := ⟨0x0008⟩
def finalFlag : AccessFlags := ⟨0x0010⟩
def synchronizedFlag : AccessFlags := ⟨0x0020⟩
def volatileFlag : AccessFlags := ⟨0x0040⟩
def transientFlag : AccessFlags := ⟨0x0080⟩
def nativeFlag : AccessFlags := ⟨0x0100⟩
def interfaceFlag : AccessFlags := ⟨0x0200⟩
def abstractFlag : AccessFlags := ⟨0x0400⟩
def strictFlag : AccessFlags := ⟨0x0800⟩

/-- On a class: calls to superclass methods use the current rules. -/
def superFlag : AccessFlags := synchronizedFlag

/-- On a method: it was generated to bridge two signatures. -/
def bridgeFlag : AccessFlags := volatileFlag

/-- On a method: its last parameter collects further arguments. -/
def varargsFlag : AccessFlags := transientFlag

def contains (a b : AccessFlags) : Bool := a.bits &&& b.bits == b.bits

def union (a b : AccessFlags) : AccessFlags := ⟨a.bits ||| b.bits⟩

instance : OrOp AccessFlags := ⟨union⟩

def isStatic (a : AccessFlags) : Bool := a.contains staticFlag
def isPrivate (a : AccessFlags) : Bool := a.contains privateFlag
def isInterface (a : AccessFlags) : Bool := a.contains interfaceFlag

def ofModifier? : String → Option AccessFlags
  | "public" => some publicFlag
  | "protected" => some protectedFlag
  | "private" => some privateFlag
  | "static" => some staticFlag
  | "final" => some finalFlag
  | "synchronized" => some synchronizedFlag
  | "native" => some nativeFlag
  | "abstract" => some abstractFlag
  | "strictfp" => some strictFlag
  | _ => none

end AccessFlags

end MethodGraft.ClassFile
