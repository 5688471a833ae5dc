import MethodGraft.ClassFile.ConstantPool

/-!
# Code.Verification — types as the verifier sees them

A verification type describes a local slot or an operand stack entry in a stack map frame.  A long
or a double takes two slots; among the locals the second one reads as `top`.
-/

namespace MethodGraft.Code

open ClassFile

inductive VerificationType where
  /-- A slot without a usable value. -/
  | top
  | integer
  | float
  | double
  | long
  | null
  | uninitializedThis
  /-- A class by internal name, or an array by descriptor. -/
  | object (name : String)
  /-- What the `new` instruction at this position made, until its constructor has run. -/
  | uninitialized (offset : UInt16)
  deriving DecidableEq, Repr, Inhabited

inductive ValueKind where
  | int
  | long
  | float
  | double
  | reference
  deriving DecidableEq, Repr

def ValueKind.ofType : FieldType → ValueKind
  | .boolean | .byte | .char | .short | .int => .int
  | .long => .long
  | .float => .float
  | .double => .double
  | .object _ | .array _ => .reference

namespace VerificationType

def ofType : FieldType → VerificationType
  | .boolean | .byte | .char | .short | .int => .integer
  | .long => .long
  | .float => .float
  | .double => .double
  | .object name => .object name
  | .array component => .object (FieldType.array component).descriptor

def isWide : VerificationType → Bool
  | .long | .double => true
  | _ => false

def width (t : VerificationType) : UInt16 := if t.isWide then 2 else 1

def isUninitialized : VerificationType → Bool
  | .uninitialized _ | .uninitializedThis => true
  | _ => false

def localSlots (types : List FieldType) : List VerificationType :=
  types.flatMap fun t => if (ofType t).isWide then [ofType t, .top] else [ofType t]

/-- The bytes of a type in a stack map frame; class names are interned. -/
def encode : VerificationType → Interning (List UInt8)
  | .top => return [0]
  | .integer => return [1]
  | .float => return [2]
  | .double => return [3]
  | .long => return [4]
  | .null => return [5]
  | .uninitializedThis => return [6]
  | .object name => return 7 :: be16 (← Interning.classRef name)
  | .uninitialized offset => return 8 :: be16 offset

end VerificationType

end MethodGraft.Code
