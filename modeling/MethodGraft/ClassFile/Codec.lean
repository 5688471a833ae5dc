import MethodGraft.ClassFile.Basic

/-!
# ClassFile.Codec — class files as bytes

`decode` reads a whole class file and `encode` writes one.  Decoding keeps all that encoding needs:
the order of the constants, the payload of attributes it does not know, flag bits without a name.
-/

namespace MethodGraft.ClassFile

def magic : UInt32 := 0xCAFEBABE

/-! ## 1. Reading -/

/-- Reads a body or refuses it; the arguments are the index of the attribute's name and its
bytes. -/
abbrev BodyReader := UInt16 → List UInt8 → Except Error CodeAttribute

/-- Reads an attribute.  One with the name `Code` is taken apart by `body`. -/
def readAttribute (pool : ConstantPool) (body : BodyReader) : Reader Attribute := do
  let nameIndex ← Reader.u16
  let length ← Reader.u32
  -- the contents are cut off before they are looked at, so that nothing in them can read on behind
  -- them
  let info ← Reader.bytes length.toNat
  let name ← Reader.check (within .attributeName (pool.utf8 nameIndex))
  if name = "Code" then
    return .code (← Reader.check (within .codeAttribute (body nameIndex info)))
  else
    return .raw nameIndex info

def readAttributesWith (pool : ConstantPool) (body : BodyReader) : Reader (List Attribute) :=
  Reader.counted fun _ => readAttribute pool body

def readHandler : Reader ExceptionHandler :=
  return ⟨← Reader.u16, ← Reader.u16, ← Reader.u16, ← Reader.u16⟩

/-- Reads the contents of a `Code` attribute; bodies nested in it are read by `body`. -/
def readCode (pool : ConstantPool) (body : BodyReader) (nameIndex : UInt16) :
    Reader CodeAttribute := do
  let maxStack ← Reader.u16
  let maxLocals ← Reader.u16
  let length ← Reader.u32
  let code ← Reader.bytes length.toNat
  let handlers ← Reader.counted fun _ => readHandler
  let attributes ← readAttributesWith pool body
  return ⟨nameIndex, maxStack, maxLocals, code, handlers, attributes⟩

/-- Reads bodies nested at most `depth` deep.  A nested body is shorter than the one around it, so
a body of `depth` bytes never meets the limit, and one without bytes is truncated anyway. -/
def readBody (pool : ConstantPool) : (depth : Nat) → BodyReader
  | 0, _, _ => fail (.truncated 0)
  | depth + 1, nameIndex, info => do
    let (code, rest) ← (readCode pool (readBody pool depth) nameIndex).run info
    if rest.isEmpty then return code else fail (.trailing rest.length)

def readAttributes (pool : ConstantPool) : Reader (List Attribute) :=
  readAttributesWith pool fun nameIndex info => readBody pool info.length nameIndex info

def readField (pool : ConstantPool) (index : Nat) : Reader Member :=
  Reader.within (.field index) do
    let flags ← Reader.u16
    let nameIndex ← Reader.u16
    let descriptorIndex ← Reader.u16
    let _ ← Reader.check (pool.utf8 nameIndex)
    let _ ← Reader.check (pool.utf8 descriptorIndex)
    -- what goes wrong in the attributes of a field is reported with its index
    let attributes ← readAttributes pool
    return ⟨⟨flags⟩, nameIndex, descriptorIndex, attributes⟩

/-- Reads a method.  What goes wrong in its attributes is reported with its name. -/
def readMethod (pool : ConstantPool) : Reader Member := do
  let flags ← Reader.u16
  let nameIndex ← Reader.u16
  let descriptorIndex ← Reader.u16
  let name ← Reader.check (pool.utf8 nameIndex)
  let _ ← Reader.check (pool.utf8 descriptorIndex)
  let attributes ← Reader.within (.method name) (readAttributes pool)
  return ⟨⟨flags⟩, nameIndex, descriptorIndex, attributes⟩

def readClassIndex (pool : ConstantPool) (place : Place) : Reader UInt16 := do
  let index ← Reader.u16
  let _ ← Reader.check (within place (pool.className index))
  return index

def readSuperClass (pool : ConstantPool) : Reader UInt16 := do
  let index ← Reader.u16
  -- the class above all others has no superclass
  if index ≠ 0 then
    let _ ← Reader.check (within .superClass (pool.className index))
  return index

def readMagic : Reader Unit := do
  let found ← Reader.u32
  if found ≠ magic then Reader.check (fail (.badMagic found))

def read : Reader ClassFile := do
  readMagic
  let minorVersion ← Reader.u16
  let majorVersion ← Reader.u16
  let pool ← ConstantPool.read
  let flags ← Reader.u16
  let thisClass ← readClassIndex pool .thisClass
  let superClass ← readSuperClass pool
  let interfaces ← Reader.counted fun _ => readClassIndex pool .interfaces
  let fields ← Reader.counted (readField pool)
  let methods ← Reader.counted fun _ => readMethod pool
  let attributes ← readAttributes pool
  return {
    minorVersion, majorVersion, pool, flags := ⟨flags⟩, thisClass, superClass, interfaces, fields,
    methods, attributes }

def decode (bytes : List UInt8) : Except Error ClassFile := do
  let (c, rest) ← read.run bytes
  if rest.isEmpty then return c else fail (.trailingAfterClass rest.length)

/-! ## 2. Writing -/

def encodeCount (table : Table) (count : Nat) : Except Error (List UInt8) :=
  if count ≤ 65535 then .ok (be16 (UInt16.ofNat count)) else fail (.tooMany table count)

def encodeLength (length : Nat) : Except Error (List UInt8) :=
  if length ≤ 4294967295 then .ok (be32 (UInt32.ofNat length)) else fail (.attributeTooLong length)

def attributeRecord (nameIndex : UInt16) (info : List UInt8) : Except Error (List UInt8) := do
  return be16 nameIndex ++ (← encodeLength info.length) ++ info

def ExceptionHandler.encode (h : ExceptionHandler) : List UInt8 :=
  be16 h.startPc ++ be16 h.endPc ++ be16 h.handlerPc ++ be16 h.catchType

mutual

def Attribute.encode : Attribute → Except Error (List UInt8)
  | .raw nameIndex info => attributeRecord nameIndex info
  | .code body => do
    let info ← body.encodeContents
    attributeRecord body.nameIndex info

def CodeAttribute.encodeContents : CodeAttribute → Except Error (List UInt8)
  | ⟨_, maxStack, maxLocals, code, handlers, attributes⟩ => do
    -- the code may be longer than any that runs; that is checked where code is made
    let length ← encodeLength code.length
    let handlerCount ← encodeCount .exceptionHandlers handlers.length
    let attributeCount ← encodeCount .attributes attributes.length
    let encoded ← Attribute.encodeOnto [] attributes
    return be16 maxStack ++ be16 maxLocals ++ length ++ code ++ handlerCount ++
      handlers.flatMap ExceptionHandler.encode ++ attributeCount ++ encoded

/-- The bytes of several attributes; `written` holds those already written, the last one first. -/
def Attribute.encodeOnto (written : List (List UInt8)) :
    List Attribute → Except Error (List UInt8)
  | [] => .ok written.reverse.flatten
  | a :: attributes => do
    let bytes ← a.encode
    Attribute.encodeOnto (bytes :: written) attributes

end

def encodeAttributes (attributes : List Attribute) : Except Error (List UInt8) := do
  let count ← encodeCount .attributes attributes.length
  return count ++ (← Attribute.encodeOnto [] attributes)

def Member.encode (m : Member) : Except Error (List UInt8) := do
  return be16 m.flags.bits ++ be16 m.nameIndex ++ be16 m.descriptorIndex ++
    (← encodeAttributes m.attributes)

def encodeMembers (table : Table) (members : List Member) : Except Error (List UInt8) := do
  let count ← encodeCount table members.length
  return count ++ (← members.mapM Member.encode).flatten

def encode (c : ClassFile) : Except Error (List UInt8) := do
  let interfaceCount ← encodeCount .interfaces c.interfaces.length
  let fields ← encodeMembers .fields c.fields
  let methods ← encodeMembers .methods c.methods
  let attributes ← encodeAttributes c.attributes
  return be32 magic ++ be16 c.minorVersion ++ be16 c.majorVersion ++ c.pool.encode ++
    be16 c.flags.bits ++ be16 c.thisClass ++ be16 c.superClass ++ interfaceCount ++
    c.interfaces.flatMap be16 ++ fields ++ methods ++ attributes

end MethodGraft.ClassFile
