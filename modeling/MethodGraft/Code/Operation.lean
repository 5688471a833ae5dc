import MethodGraft.Code.Comparison
import MethodGraft.Code.Opcode
import MethodGraft.Code.Verification

/-!
# Code.Operation — instructions before layout

The assembler collects operations.  They are machine instructions, except that a jump names the
label it leads to; its offset is filled in by `Operation.encode` once all labels have positions.
The size of an operation does not depend on where it stands.
-/

namespace MethodGraft.Code

open ClassFile

/-- A place in the code that jumps and exception handlers can name before it has a position. -/
structure Label where
  index : Nat
  deriving DecidableEq, Repr

inductive InvokeKind where
  | virtual
  | special
  | static
  | interface
  deriving DecidableEq, Repr

inductive Test where
  /-- The top `int` compares this way to zero. -/
  | zero (c : Comparison)
  /-- The two top `int`s compare this way. -/
  | ints (c : Comparison)
  /-- The two top references are equal, or are not. -/
  | refs (equal : Bool)
  /-- The top reference is null, or is not. -/
  | null (isNull : Bool)
  deriving DecidableEq, Repr

namespace Test

def opcode : Test → UInt8
  | .zero .eq => Opcode.ifeq
  | .zero .ne => Opcode.ifne
  | .zero .lt => Opcode.iflt
  | .zero .ge => Opcode.ifge
  | .zero .gt => Opcode.ifgt
  | .zero .le => Opcode.ifle
  | .ints .eq => Opcode.ifIcmpeq
  | .ints .ne => Opcode.ifIcmpne
  | .ints .lt => Opcode.ifIcmplt
  | .ints .ge => Opcode.ifIcmpge
  | .ints .gt => Opcode.ifIcmpgt
  | .ints .le => Opcode.ifIcmple
  | .refs true => Opcode.ifAcmpeq
  | .refs false => Opcode.ifAcmpne
  | .null true => Opcode.ifnull
  | .null false => Opcode.ifnonnull

def ofOpcode? : UInt8 → Option Test
  | Opcode.ifeq => some (.zero .eq)
  | Opcode.ifne => some (.zero .ne)
  | Opcode.iflt => some (.zero .lt)
  | Opcode.ifge => some (.zero .ge)
  | Opcode.ifgt => some (.zero .gt)
  | Opcode.ifle => some (.zero .le)
  | Opcode.ifIcmpeq => some (.ints .eq)
  | Opcode.ifIcmpne => some (.ints .ne)
  | Opcode.ifIcmplt => some (.ints .lt)
  | Opcode.ifIcmpge => some (.ints .ge)
  | Opcode.ifIcmpgt => some (.ints .gt)
  | Opcode.ifIcmple => some (.ints .le)
  | Opcode.ifAcmpeq => some (.refs true)
  | Opcode.ifAcmpne => some (.refs false)
  | Opcode.ifnull => some (.null true)
  | Opcode.ifnonnull => some (.null false)
  | _ => none

def operands : Test → Nat
  | .zero _ | .null _ => 1
  | .ints _ | .refs _ => 2

end Test

inductive Conversion where
  | i2l
  | i2f
  | i2d
  | l2f
  | l2d
  | f2d
  deriving DecidableEq, Repr

namespace Conversion

def opcode : Conversion → UInt8
  | .i2l => Opcode.i2l
  | .i2f => Opcode.i2f
  | .i2d => Opcode.i2d
  | .l2f => Opcode.l2f
  | .l2d => Opcode.l2d
  | .f2d => Opcode.f2d

def ofKinds? : ValueKind → ValueKind → Option Conversion
  | .int, .long => some .i2l
  | .int, .float => some .i2f
  | .int, .double => some .i2d
  | .long, .float => some .l2f
  | .long, .double => some .l2d
  | .float, .double => some .f2d
  | _, _ => none

end Conversion

inductive Operation where
  | aconstNull
  /-- Pushes an `int` from -1 to 5. -/
  | iconst (value : Int8)
  | bipush (value : Int8)
  | sipush (value : Int16)
  | lconst0
  | lconst1
  | ldc (index : UInt8)
  | ldcW (index : UInt16)
  | ldc2W (index : UInt16)
  | load (kind : ValueKind) (slot : UInt16)
  | store (kind : ValueKind) (slot : UInt16)
  | getField (index : UInt16)
  | getStatic (index : UInt16)
  /-- Invokes a method.  Only an interface call stores the argument slots, the receiver's
  included. -/
  | invoke (kind : InvokeKind) (index : UInt16) (slots : UInt8)
  | new (index : UInt16)
  | checkcast (index : UInt16)
  | instanceof (index : UInt16)
  | dup
  | pop
  | pop2
  | swap
  | iadd
  | ladd
  | lcmp
  | convert (c : Conversion)
  | branch (test : Test) (target : Label)
  | goto (target : Label)
  | ret (kind : Option ValueKind)
  deriving DecidableEq, Repr

namespace Operation

def loadOpcode : ValueKind → UInt8
  | .int => Opcode.iload
  | .long => Opcode.lload
  | .float => Opcode.fload
  | .double => Opcode.dload
  | .reference => Opcode.aload

def storeOpcode : ValueKind → UInt8
  | .int => Opcode.istore
  | .long => Opcode.lstore
  | .float => Opcode.fstore
  | .double => Opcode.dstore
  | .reference => Opcode.astore

def returnOpcode : Option ValueKind → UInt8
  | some .int => Opcode.ireturn
  | some .long => Opcode.lreturn
  | some .float => Opcode.freturn
  | some .double => Opcode.dreturn
  | some .reference => Opcode.areturn
  | none => Opcode.returnVoid

/-- The bytes of an instruction on a local slot; slots from 256 on need the wide form. -/
def localBytes (opcode : UInt8) (slot : UInt16) : List UInt8 :=
  if slot ≤ 0xff then [opcode, slot.toUInt8] else Opcode.wide :: opcode :: be16 slot

def target? : Operation → Option Label
  | .branch _ target | .goto target => some target
  | _ => none

/-- The bytes of an operation.  A jump covers `distance`, which other operations ignore. -/
def encode (distance : Int16) : Operation → List UInt8
  | .aconstNull => [Opcode.aconstNull]
  | .iconst value => [Opcode.iconst0 + value.toUInt8]
  | .bipush value => [Opcode.bipush, value.toUInt8]
  | .sipush value => Opcode.sipush :: be16 value.toUInt16
  | .lconst0 => [Opcode.lconst0]
  | .lconst1 => [Opcode.lconst1]
  | .ldc index => [Opcode.ldc, index]
  | .ldcW index => Opcode.ldcW :: be16 index
  | .ldc2W index => Opcode.ldc2W :: be16 index
  | .load kind slot => localBytes (loadOpcode kind) slot
  | .store kind slot => localBytes (storeOpcode kind) slot
  | .getField index => Opcode.getfield :: be16 index
  | .getStatic index => Opcode.getstatic :: be16 index
  | .invoke .virtual index _ => Opcode.invokevirtual :: be16 index
  | .invoke .special index _ => Opcode.invokespecial :: be16 index
  | .invoke .static index _ => Opcode.invokestatic :: be16 index
  | .invoke .interface index slots => Opcode.invokeinterface :: (be16 index ++ [slots, 0])
  | .new index => Opcode.new :: be16 index
  | .checkcast index => Opcode.checkcast :: be16 index
  | .instanceof index => Opcode.instanceof :: be16 index
  | .dup => [Opcode.dup]
  | .pop => [Opcode.pop]
  | .pop2 => [Opcode.pop2]
  | .swap => [Opcode.swap]
  | .iadd => [Opcode.iadd]
  | .ladd => [Opcode.ladd]
  | .lcmp => [Opcode.lcmp]
  | .convert c => [c.opcode]
  | .branch test _ => test.opcode :: be16 distance.toUInt16
  | .goto _ => Opcode.goto :: be16 distance.toUInt16
  | .ret kind => [returnOpcode kind]

def size (op : Operation) : Nat := (op.encode 0).length

/-- The distance that a jump covers does not change its length. -/
theorem length_encode (op : Operation) (distance : Int16) :
    (op.encode distance).length = op.size := by
  cases op <;> simp only [size, encode, localBytes] <;> (try split) <;> simp [be16]

end Operation

end MethodGraft.Code
