/-!
# Code.Opcode — instruction opcodes

The opcodes that a method body is assembled from, those that refer to the constant pool, and the
number of operand bytes that each opcode takes.
-/

namespace MethodGraft.Code

namespace Opcode

@[match_pattern] abbrev aconstNull : UInt8 := 0x01
@[match_pattern] abbrev iconst0 : UInt8 := 0x03
@[match_pattern] abbrev lconst0 : UInt8 := 0x09
@[match_pattern] abbrev lconst1 : UInt8 := 0x0a
@[match_pattern] abbrev bipush : UInt8 := 0x10
@[match_pattern] abbrev sipush : UInt8 := 0x11
@[match_pattern] abbrev ldc : UInt8 := 0x12
@[match_pattern] abbrev ldcW : UInt8 := 0x13
@[match_pattern] abbrev ldc2W : UInt8 := 0x14
@[match_pattern] abbrev iload : UInt8 := 0x15
@[match_pattern] abbrev lload : UInt8 := 0x16
@[match_pattern] abbrev fload : UInt8 := 0x17
@[match_pattern] abbrev dload : UInt8 := 0x18
@[match_pattern] abbrev aload : UInt8 := 0x19
@[match_pattern] abbrev istore : UInt8 := 0x36
@[match_pattern] abbrev lstore : UInt8 := 0x37
@[match_pattern] abbrev fstore : UInt8 := 0x38
@[match_pattern] abbrev dstore : UInt8 := 0x39
@[match_pattern] abbrev astore : UInt8 := 0x3a
@[match_pattern] abbrev pop : UInt8 := 0x57
@[match_pattern] abbrev pop2 : UInt8 := 0x58
@[match_pattern] abbrev dup : UInt8 := 0x59
@[match_pattern] abbrev swap : UInt8 := 0x5f
@[match_pattern] abbrev iadd : UInt8 := 0x60
@[match_pattern] abbrev ladd : UInt8 := 0x61
@[match_pattern] abbrev iinc : UInt8 := 0x84
@[match_pattern] abbrev i2l : UInt8 := 0x85
@[match_pattern] abbrev i2f : UInt8 := 0x86
@[match_pattern] abbrev i2d : UInt8 := 0x87
@[match_pattern] abbrev l2f : UInt8 := 0x89
@[match_pattern] abbrev l2d : UInt8 := 0x8a
@[match_pattern] abbrev f2d : UInt8 := 0x8d
@[match_pattern] abbrev lcmp : UInt8 := 0x94
@[match_pattern] abbrev ifeq : UInt8 := 0x99
@[match_pattern] abbrev ifne : UInt8 := 0x9a
@[match_pattern] abbrev iflt : UInt8 := 0x9b
@[match_pattern] abbrev ifge : UInt8 := 0x9c
@[match_pattern] abbrev ifgt : UInt8 := 0x9d
@[match_pattern] abbrev ifle : UInt8 := 0x9e
@[match_pattern] abbrev ifIcmpeq : UInt8 := 0x9f
@[match_pattern] abbrev ifIcmpne : UInt8 := 0xa0
@[match_pattern] abbrev ifIcmplt : UInt8 := 0xa1
@[match_pattern] abbrev ifIcmpge : UInt8 := 0xa2
@[match_pattern] abbrev ifIcmpgt : UInt8 := 0xa3
@[match_pattern] abbrev ifIcmple : UInt8 := 0xa4
@[match_pattern] abbrev ifAcmpeq : UInt8 := 0xa5
@[match_pattern] abbrev ifAcmpne : UInt8 := 0xa6
@[match_pattern] abbrev goto : UInt8 := 0xa7
@[match_pattern] abbrev jsr : UInt8 := 0xa8
@[match_pattern] abbrev ret : UInt8 := 0xa9
@[match_pattern] abbrev tableswitch : UInt8 := 0xaa
@[match_pattern] abbrev lookupswitch : UInt8 := 0xab
@[match_pattern] abbrev ireturn : UInt8 := 0xac
@[match_pattern] abbrev lreturn : UInt8 := 0xad
@[match_pattern] abbrev freturn : UInt8 := 0xae
@[match_pattern] abbrev dreturn : UInt8 := 0xaf
@[match_pattern] abbrev areturn : UInt8 := 0xb0
@[match_pattern] abbrev returnVoid : UInt8 := 0xb1
@[match_pattern] abbrev getstatic : UInt8 := 0xb2
@[match_pattern] abbrev putstatic : UInt8 := 0xb3
@[match_pattern] abbrev getfield : UInt8 := 0xb4
@[match_pattern] abbrev putfield : UInt8 := 0xb5
@[match_pattern] abbrev invokevirtual : UInt8 := 0xb6
@[match_pattern] abbrev invokespecial : UInt8 := 0xb7
@[match_pattern] abbrev invokestatic : UInt8 := 0xb8
@[match_pattern] abbrev invokeinterface : UInt8 := 0xb9
@[match_pattern] abbrev invokedynamic : UInt8 := 0xba
@[match_pattern] abbrev new : UInt8 := 0xbb
@[match_pattern] abbrev newarray : UInt8 := 0xbc
@[match_pattern] abbrev anewarray : UInt8 := 0xbd
@[match_pattern] abbrev checkcast : UInt8 := 0xc0
@[match_pattern] abbrev instanceof : UInt8 := 0xc1
@[match_pattern] abbrev wide : UInt8 := 0xc4
@[match_pattern] abbrev multianewarray : UInt8 := 0xc5
@[match_pattern] abbrev ifnull : UInt8 := 0xc6
@[match_pattern] abbrev ifnonnull : UInt8 := 0xc7
@[match_pattern] abbrev gotoW : UInt8 := 0xc8
@[match_pattern] abbrev jsrW : UInt8 := 0xc9
@[match_pattern] abbrev breakpoint : UInt8 := 0xca

def constantName? : UInt8 → Option String
  | ldc => some "ldc"
  | ldcW => some "ldc_w"
  | ldc2W => some "ldc2_w"
  | getstatic => some "getstatic"
  | putstatic => some "putstatic"
  | getfield => some "getfield"
  | putfield => some "putfield"
  | invokevirtual => some "invokevirtual"
  | invokespecial => some "invokespecial"
  | invokestatic => some "invokestatic"
  | invokeinterface => some "invokeinterface"
  | invokedynamic => some "invokedynamic"
  | new => some "new"
  | anewarray => some "anewarray"
  | checkcast => some "checkcast"
  | instanceof => some "instanceof"
  | multianewarray => some "multianewarray"
  | _ => none

def isInvoke : UInt8 → Bool
  | invokevirtual | invokespecial | invokestatic | invokeinterface => true
  | _ => false

def isJump (op : UInt8) : Bool :=
  (ifeq ≤ op && op ≤ jsr) || op == ifnull || op == ifnonnull

def isWideJump (op : UInt8) : Bool := op == gotoW || op == jsrW

end Opcode

inductive OperandShape where
  | fixed (bytes : Nat)
  /-- The opcode widens the one that follows it. -/
  | widened
  | tableSwitch
  | lookupSwitch
  | unknown
  deriving DecidableEq, Repr

open Opcode in
def operandShape (op : UInt8) : OperandShape :=
  if op == wide then .widened
  else if op == tableswitch then .tableSwitch
  else if op == lookupswitch then .lookupSwitch
  else if breakpoint < op then .unknown
  else if op == bipush || op == ldc || (iload ≤ op && op ≤ aload) ||
      (istore ≤ op && op ≤ astore) || op == ret || op == newarray then .fixed 1
  else if op == sipush || op == ldcW || op == ldc2W || op == iinc || isJump op ||
      (getstatic ≤ op && op ≤ invokestatic) || op == new || op == anewarray ||
      op == checkcast || op == instanceof then .fixed 2
  else if op == multianewarray then .fixed 3
  else if op == invokeinterface || op == invokedynamic || isWideJump op then .fixed 4
  else .fixed 0

end MethodGraft.Code
