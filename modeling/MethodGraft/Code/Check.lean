import MethodGraft.ClassFile.ConstantPool
import MethodGraft.Code.Walk

/-!
# Code.Check — code against its constant pool

An instruction that refers to a constant accepts only some kinds of constant.
`checkConstantOperands` checks all of a code array, and `invokedMethods` lists the methods it
invokes.
-/

namespace MethodGraft.Code

open ClassFile

def accepts (opcode : UInt8) (c : Constant) : Bool :=
  match opcode with
  | Opcode.ldc | Opcode.ldcW =>
    match c with
    | .integer _ | .float _ | .string _ | .classRef _ | .methodType _ | .methodHandle ..
    | .dynamic .. => true
    | _ => false
  | Opcode.ldc2W =>
    match c with
    | .long _ | .double _ | .dynamic .. => true
    | _ => false
  | Opcode.getstatic | Opcode.putstatic | Opcode.getfield | Opcode.putfield =>
    match c with
    | .fieldRef .. => true
    | _ => false
  | Opcode.invokevirtual =>
    match c with
    | .methodRef .. => true
    | _ => false
  | Opcode.invokespecial | Opcode.invokestatic =>
    match c with
    | .methodRef .. | .interfaceMethodRef .. => true
    | _ => false
  | Opcode.invokeinterface =>
    match c with
    | .interfaceMethodRef .. => true
    | _ => false
  | Opcode.invokedynamic =>
    match c with
    | .invokeDynamic .. => true
    | _ => false
  | _ =>
    match c with
    | .classRef _ => true
    | _ => false

/-- The constant that the instruction refers to, if any, exists and is of a kind it accepts. -/
def checkInstruction (pool : ConstantPool) (i : Instruction) : Except Error Unit :=
  match i.constantOperand? with
  | none => .ok ()
  | some index => do
    let c ← within (.instruction i.offset) (pool.get index)
    if accepts i.opcode c then return
    else
      let name := (Opcode.constantName? i.opcode).getD "?"
      fail (.operandConstant name i.offset index c.tag)

def checkConstantOperands (code : List UInt8) (pool : ConstantPool) : Except Error Unit := do
  (← walk code).forM (checkInstruction pool)

def invokedMethod? (pool : ConstantPool) (i : Instruction) : Except Error (Option MemberRef) :=
  if Opcode.isInvoke i.opcode then
    match i.constantOperand? with
    | some index => (pool.memberRef index).map some
    | none => .ok none
  else .ok none

def invokedMethods (code : List UInt8) (pool : ConstantPool) : Except Error (List MemberRef) := do
  return ((← (← walk code).mapM (invokedMethod? pool))).filterMap id

end MethodGraft.Code
