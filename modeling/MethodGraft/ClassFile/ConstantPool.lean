import MethodGraft.ClassFile.Constant

/-!
# ClassFile.ConstantPool — numbered constants

Entry `i` of a pool is the constant with index `i`; entry 0 is unusable, as is the slot after a long
or a double.  Constants are only ever appended: interning returns the first equal entry or adds one
at the end, so an index keeps its meaning.  A failed interning may leave the constants it had
already added, as the operations on `Interning` show.
-/

namespace MethodGraft.ClassFile

structure ConstantPool where
  entries : Array Constant
  deriving DecidableEq, Repr, Inhabited

structure MemberRef where
  owner : String
  name : String
  descriptor : String
  /-- True for a method of an interface. -/
  onInterface : Bool
  deriving DecidableEq, Repr

namespace ConstantPool

def empty : ConstantPool := ⟨#[.unusable]⟩

/-- The count that the class file stores: one more than the highest index. -/
def count (p : ConstantPool) : UInt16 := UInt16.ofNat p.entries.size

/-! ## 1. Looking up -/

def get (p : ConstantPool) (index : UInt16) : Except Error Constant :=
  match p.entries[index.toNat]? with
  -- index 0 and the second slot of a wide constant are as good as none
  | none | some .unusable => fail (.badIndex index)
  | some c => .ok c

def utf8 (p : ConstantPool) (index : UInt16) : Except Error String := do
  match ← p.get index with
  | .utf8 text => return text
  -- bytes that are no text are kept, but cannot be asked for
  | .utf8Bytes _ => fail (.noText index)
  | other => fail (.wrongConstant index other.tag .utf8)

def className (p : ConstantPool) (index : UInt16) : Except Error String := do
  match ← p.get index with
  | .classRef nameIndex => p.utf8 nameIndex
  | other => fail (.wrongConstant index other.tag .classRef)

def nameAndType (p : ConstantPool) (index : UInt16) : Except Error (String × String) := do
  match ← p.get index with
  | .nameAndType nameIndex descriptorIndex =>
    return (← p.utf8 nameIndex, ← p.utf8 descriptorIndex)
  | other => fail (.wrongConstant index other.tag .nameAndType)

def memberOf (p : ConstantPool) (classIndex nameAndTypeIndex : UInt16) (onInterface : Bool) :
    Except Error MemberRef := do
  let (name, descriptor) ← p.nameAndType nameAndTypeIndex
  return ⟨← p.className classIndex, name, descriptor, onInterface⟩

def memberRef (p : ConstantPool) (index : UInt16) : Except Error MemberRef := do
  match ← p.get index with
  | .fieldRef c n | .methodRef c n => p.memberOf c n false
  | .interfaceMethodRef c n => p.memberOf c n true
  | other => fail (.wrongConstant index other.tag .member)

/-! ## 2. Reading and writing -/

def checkUtf8 (p : ConstantPool) (index : UInt16) : Except Error Unit := do
  match ← p.get index with
  | .utf8 _ | .utf8Bytes _ => return
  | other => fail (.wrongConstant index other.tag .utf8)

def checkTag (p : ConstantPool) (index : UInt16) (tag : UInt8) : Except Error Unit := do
  let found := (← p.get index).tag
  if found != tag then fail (.wrongConstant index found (.tagged tag))

def checkConstant (p : ConstantPool) (c : Constant) : Except Error Unit :=
  match c with
  | .classRef i | .module i | .package i | .string i | .methodType i => p.checkUtf8 i
  | .nameAndType i j => do
    p.checkUtf8 i
    p.checkUtf8 j
  | .fieldRef i j | .methodRef i j | .interfaceMethodRef i j => do
    p.checkTag i (Constant.classRef 0).tag
    p.checkTag j (Constant.nameAndType 0 0).tag
  | .dynamic _ j | .invokeDynamic _ j => p.checkTag j (Constant.nameAndType 0 0).tag
  -- which kind is right depends on the handle; any constant will do
  | .methodHandle _ i => (p.get i).map fun _ => ()
  | _ => .ok ()

def checkFrom (p : ConstantPool) : (index : Nat) → (cs : List Constant) → Except Error Unit
  | _, [] => .ok ()
  | index, c :: cs => do
    within (.constant index) (p.checkConstant c)
    p.checkFrom (index + 1) cs

def checkReferences (p : ConstantPool) : Except Error Unit :=
  p.checkFrom 0 p.entries.toList

/-- Reads constants until the pool has `total` entries; `slots` bounds how many are missing. -/
def readEntries (total : Nat) : (slots : Nat) → (entries : Array Constant) → Reader (Array Constant)
  | 0, entries, c => .ok (entries, c)
  | slots + 1, entries, c =>
    if total ≤ entries.size then .ok (entries, c)
    else
      match Reader.within (.constant entries.size) Constant.read c with
      | .error e => .error e
      | .ok (constant, c) =>
        if constant.isWide then
          -- the second slot would lie behind the end
          if total ≤ entries.size + 1 then fail (.wideOverrun entries.size)
          else readEntries total slots ((entries.push constant).push .unusable) c
        else readEntries total slots (entries.push constant) c

def read : Reader ConstantPool := do
  let total ← Reader.u16
  if total = 0 then Reader.check (fail .emptyPool)
  let entries ← readEntries total.toNat total.toNat #[.unusable]
  Reader.check (checkReferences ⟨entries⟩)
  return ⟨entries⟩

/-- The bytes of a pool: the count and then the constants. -/
def encode (p : ConstantPool) : List UInt8 :=
  be16 p.count ++ p.entries.toList.flatMap Constant.encode

/-! ## 3. Interning -/

def find? (p : ConstantPool) (c : Constant) : Option UInt16 :=
  (p.entries.findIdx? (· == c)).map UInt16.ofNat

/-- The pool with `c` at its end; a wide constant brings an unusable slot along. -/
def push (p : ConstantPool) (c : Constant) : ConstantPool :=
  if c.isWide then ⟨(p.entries.push c).push .unusable⟩ else ⟨p.entries.push c⟩

def hasRoom (p : ConstantPool) (c : Constant) : Bool :=
  p.entries.size + (if c.isWide then 2 else 1) ≤ 65535

end ConstantPool

/-- An operation that may add constants to a pool and may fail; what it added before it failed
stays. -/
abbrev Interning := ExceptT Error (StateM ConstantPool)

namespace Interning

open ConstantPool

def ofExcept {α : Type} (r : Except Error α) : Interning α := ExceptT.mk (pure r)

def refuse {α : Type} (cause : Cause) : Interning α := throw ⟨cause, []⟩

def constant (c : Constant) : Interning UInt16 := do
  let p ← get
  match p.find? c with
  | some index => return index
  | none =>
    if p.hasRoom c then
      set (p.push c)
      return p.count
    else refuse (.poolFull p.entries.size c.isWide)

def utf8 (text : String) : Interning UInt16 := do
  let length := (ModifiedUtf8.encode text).length
  if length > 65535 then refuse (.utf8TooLong length)
  constant (.utf8 text)

def classRef (name : String) : Interning UInt16 := do
  constant (.classRef (← utf8 name))

def string (text : String) : Interning UInt16 := do
  constant (.string (← utf8 text))

def integer (value : Int32) : Interning UInt16 := constant (.integer value)

def long (value : Int64) : Interning UInt16 := constant (.long value)

def nameAndType (name descriptor : String) : Interning UInt16 := do
  let nameIndex ← utf8 name
  let descriptorIndex ← utf8 descriptor
  constant (.nameAndType nameIndex descriptorIndex)

def fieldRef (owner name descriptor : String) : Interning UInt16 := do
  let classIndex ← classRef owner
  let nameAndTypeIndex ← nameAndType name descriptor
  constant (.fieldRef classIndex nameAndTypeIndex)

def methodRef (owner name descriptor : String) (onInterface : Bool) : Interning UInt16 := do
  let classIndex ← classRef owner
  let nameAndTypeIndex ← nameAndType name descriptor
  constant (if onInterface then .interfaceMethodRef classIndex nameAndTypeIndex
    else .methodRef classIndex nameAndTypeIndex)

end Interning

end MethodGraft.ClassFile
