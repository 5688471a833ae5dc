import MethodGraft.ClassFile.Reader
import MethodGraft.Code.Opcode

/-!
# Code.Walk — code arrays as instructions

`walk` splits a code array into its instructions from the front.  The operand bytes of an
instruction follow from its opcode; for the two switches they also depend on the position, since
their tables start at a multiple of four.
-/

namespace MethodGraft.Code

open ClassFile

structure Instruction where
  offset : Nat
  opcode : UInt8
  operands : List UInt8
  deriving DecidableEq, Repr

namespace Instruction

def length (i : Instruction) : Nat := 1 + i.operands.length

def constantOperand? (i : Instruction) : Option UInt16 :=
  if i.opcode = Opcode.ldc then i.operands.head?.map UInt8.toUInt16
  else if (Opcode.constantName? i.opcode).isSome then
    match i.operands with
    | hi :: lo :: _ => some (ofBe16 hi lo)
    | _ => none
  else none

def jumpDistance? (i : Instruction) : Option Int :=
  if Opcode.isJump i.opcode then
    match i.operands with
    | [hi, lo] => some (ofBe16 hi lo).toInt16.toInt
    | _ => none
  else if Opcode.isWideJump i.opcode then
    match i.operands with
    | [a, b, c, d] => some (ofBe32 a b c d).toInt32.toInt
    | _ => none
  else none

def branchTarget? (i : Instruction) : Option Int :=
  i.jumpDistance?.map fun d => (i.offset : Int) + d

end Instruction

def switchPadding (offset : Nat) : Nat := (4 - (offset + 1) % 4) % 4

def readInt : Reader Int := do
  return (← Reader.u32).toInt32.toInt

def tableSwitchBytes (offset : Nat) : Reader Nat := do
  let _ ← Reader.u32
  let low ← readInt
  let high ← readInt
  if high < low then Reader.check (fail (.switchBounds offset high low))
  return switchPadding offset + 12 + (high - low + 1).toNat * 4

def lookupSwitchBytes (offset : Nat) : Reader Nat := do
  let _ ← Reader.u32
  let pairs ← readInt
  if pairs < 0 then Reader.check (fail (.negativePairs offset))
  return switchPadding offset + 8 + pairs.toNat * 8

/-- Reads the head of the table of a switch at `offset`; `rest` follows the opcode. -/
def switchBytes (offset : Nat) (rest : List UInt8) (bytes : Reader Nat) : Except Error Nat :=
  (bytes ⟨rest.drop (switchPadding offset), offset + 1 + switchPadding offset⟩).map Prod.fst

/-- The number of operand bytes of the instruction at `offset`; `rest` follows its opcode. -/
def operandBytes (offset : Nat) (opcode : UInt8) (rest : List UInt8) : Except Error Nat :=
  match operandShape opcode with
  | .fixed n => .ok n
  | .widened =>
    match rest with
    | [] => fail (.truncated (offset + 1))
    | widened :: _ => .ok (if widened = Opcode.iinc then 5 else 3)
  | .tableSwitch => switchBytes offset rest (tableSwitchBytes offset)
  | .lookupSwitch => switchBytes offset rest (lookupSwitchBytes offset)
  | .unknown => fail (.unknownOpcode opcode offset)

/-- What is left after splitting is no longer than before. -/
theorem length_le_of_splitExactly {α : Type} {n : Nat} {taken items a b : List α}
    (h : Reader.splitExactly n taken items = some (a, b)) : b.length ≤ items.length := by
  induction n generalizing taken items with
  | zero => simp [Reader.splitExactly] at h; simp [h.2]
  | succ n ih =>
    cases items with
    | nil => simp [Reader.splitExactly] at h
    | cons x items => exact Nat.le_succ_of_le (ih h)

/-- Splits the code from `offset` on; `found` holds the instructions before it, the last one
first. -/
def walkFrom (offset : Nat) (found : List Instruction) (code : List UInt8) :
    Except Error (List Instruction) :=
  match code with
  | [] => .ok found.reverse
  | opcode :: rest =>
    match operandBytes offset opcode rest with
    | .error e => .error e
    | .ok n =>
      match _h : Reader.splitExactly n [] rest with
      | none => fail (.codeOverrun offset)
      | some (operands, rest) =>
        walkFrom (offset + 1 + n) (⟨offset, opcode, operands⟩ :: found) rest
  termination_by code.length
  decreasing_by exact Nat.lt_succ_of_le (length_le_of_splitExactly _h)

/-- The instructions of a code array.  Fails on an unknown opcode and on an instruction that runs
past the end. -/
def walk (code : List UInt8) : Except Error (List Instruction) := walkFrom 0 [] code

end MethodGraft.Code
