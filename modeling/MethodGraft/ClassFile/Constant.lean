import MethodGraft.ClassFile.Reader
import MethodGraft.Text.ModifiedUtf8

/-!
# ClassFile.Constant — the entries of a constant pool

Floating point constants keep their raw bits, so every NaN payload survives.  A Utf8 constant whose
bytes are no text (an unpaired surrogate, say) keeps the bytes.
-/

namespace MethodGraft.ClassFile

inductive Constant where
  /-- Index 0, and the slot after a long or a double. -/
  | unusable
  | utf8 (text : String)
  /-- A Utf8 constant that writes no text. -/
  | utf8Bytes (raw : List UInt8)
  | integer (value : Int32)
  | float (bits : UInt32)
  | long (value : Int64)
  | double (bits : UInt64)
  | classRef (nameIndex : UInt16)
  | string (stringIndex : UInt16)
  | fieldRef (classIndex nameAndTypeIndex : UInt16)
  | methodRef (classIndex nameAndTypeIndex : UInt16)
  | interfaceMethodRef (classIndex nameAndTypeIndex : UInt16)
  | nameAndType (nameIndex descriptorIndex : UInt16)
  | methodHandle (kind : UInt8) (referenceIndex : UInt16)
  | methodType (descriptorIndex : UInt16)
  | dynamic (bootstrapIndex nameAndTypeIndex : UInt16)
  | invokeDynamic (bootstrapIndex nameAndTypeIndex : UInt16)
  | module (nameIndex : UInt16)
  | package (nameIndex : UInt16)
  deriving DecidableEq, Repr, Inhabited

namespace Constant

/-- The tag byte; an unusable slot has none and reads as zero. -/
def tag : Constant → UInt8
  | .unusable => 0
  | .utf8 _ | .utf8Bytes _ => 1
  | .integer _ => 3
  | .float _ => 4
  | .long _ => 5
  | .double _ => 6
  | .classRef _ => 7
  | .string _ => 8
  | .fieldRef .. => 9
  | .methodRef .. => 10
  | .interfaceMethodRef .. => 11
  | .nameAndType .. => 12
  | .methodHandle .. => 15
  | .methodType _ => 16
  | .dynamic .. => 17
  | .invokeDynamic .. => 18
  | .module _ => 19
  | .package _ => 20

def kindName : Constant → String
  | .unusable => "Unusable"
  | .utf8 _ => "Utf8"
  | .utf8Bytes _ => "Utf8Bytes"
  | .integer _ => "Integer"
  | .float _ => "Float"
  | .long _ => "Long"
  | .double _ => "Double"
  | .classRef _ => "Class"
  | .string _ => "String"
  | .fieldRef .. => "FieldRef"
  | .methodRef .. => "MethodRef"
  | .interfaceMethodRef .. => "InterfaceMethodRef"
  | .nameAndType .. => "NameAndType"
  | .methodHandle .. => "MethodHandle"
  | .methodType _ => "MethodType"
  | .dynamic .. => "Dynamic"
  | .invokeDynamic .. => "InvokeDynamic"
  | .module _ => "Module"
  | .package _ => "Package"

def indices : Constant → List UInt16
  | .classRef i | .string i | .methodType i | .module i | .package i | .methodHandle _ i => [i]
  | .fieldRef i j | .methodRef i j | .interfaceMethodRef i j | .nameAndType i j
  | .dynamic i j | .invokeDynamic i j => [i, j]
  | _ => []

def isWide : Constant → Bool
  | .long _ | .double _ => true
  | _ => false

/-! ## Bytes -/

def ofUtf8Bytes (raw : List UInt8) : Constant :=
  match ModifiedUtf8.decode raw with
  | some text => .utf8 text
  | none => .utf8Bytes raw

def readTagged (tag : UInt8) : Reader Constant :=
  match tag with
  | 1 => do
    let length ← Reader.u16
    return ofUtf8Bytes (← Reader.bytes length.toNat)
  | 3 => return .integer (← Reader.u32).toInt32
  | 4 => return .float (← Reader.u32)
  | 5 => return .long (← Reader.u64).toInt64
  | 6 => return .double (← Reader.u64)
  | 7 => return .classRef (← Reader.u16)
  | 8 => return .string (← Reader.u16)
  | 9 => return .fieldRef (← Reader.u16) (← Reader.u16)
  | 10 => return .methodRef (← Reader.u16) (← Reader.u16)
  | 11 => return .interfaceMethodRef (← Reader.u16) (← Reader.u16)
  | 12 => return .nameAndType (← Reader.u16) (← Reader.u16)
  | 15 => return .methodHandle (← Reader.u8) (← Reader.u16)
  | 16 => return .methodType (← Reader.u16)
  | 17 => return .dynamic (← Reader.u16) (← Reader.u16)
  | 18 => return .invokeDynamic (← Reader.u16) (← Reader.u16)
  | 19 => return .module (← Reader.u16)
  | 20 => return .package (← Reader.u16)
  | tag => Reader.check (fail (.badTag tag))

def read : Reader Constant := do
  let tag ← Reader.u8
  readTagged tag

def utf8Record (raw : List UInt8) : List UInt8 :=
  1 :: (be16 (UInt16.ofNat raw.length) ++ raw)

/-- The bytes of a constant; an unusable slot has none. -/
def encode (c : Constant) : List UInt8 :=
  match c with
  | .unusable => []
  | .utf8 text => utf8Record (ModifiedUtf8.encode text)
  | .utf8Bytes raw => utf8Record raw
  | .integer value => c.tag :: be32 value.toUInt32
  | .float bits => c.tag :: be32 bits
  | .long value => c.tag :: be64 value.toUInt64
  | .double bits => c.tag :: be64 bits
  | .classRef i | .string i | .methodType i | .module i | .package i => c.tag :: be16 i
  | .fieldRef i j | .methodRef i j | .interfaceMethodRef i j | .nameAndType i j
  | .dynamic i j | .invokeDynamic i j => c.tag :: (be16 i ++ be16 j)
  | .methodHandle kind i => c.tag :: kind :: be16 i

end Constant

end MethodGraft.ClassFile
