import MethodGraft.Proofs.Assembly.Step
import MethodGraft.Proofs.Machine.Decode
import MethodGraft.Proofs.Typed.Layout
import MethodGraft.Proofs.Verify.Body

/-!
# Proofs.Machine.Slots — how many slots an instruction moves

Whatever the values are, an instruction takes a certain number of slots off the operand stack and
puts a certain number there.  Only instructions that refer to a field or a method need the pool for
it.
-/

namespace MethodGraft.Code

open ClassFile Typed Machine

/-! ## 1. Widths -/

def VerificationType.slots (t : VerificationType) : Nat := if t.isWide then 2 else 1

def widthsOf (stack : List VerificationType) : List Nat := stack.map VerificationType.slots

def depthOf (stack : List VerificationType) : Nat := (widthsOf stack).sum

@[simp] theorem VerificationType.slots_ofType (t : FieldType) :
    (VerificationType.ofType t).slots = t.slots := by
  cases t <;> rfl

theorem VerificationType.slots_pos (t : VerificationType) : 1 ≤ t.slots := by
  unfold slots
  split <;> decide

theorem VerificationType.ofNat_slots (t : VerificationType) : UInt16.ofNat t.slots = t.width := by
  unfold slots width
  split <;> rfl

/-- The count of the slots, which wraps. -/
theorem stackWidth_eq (stack : List VerificationType) :
    stackWidth stack = UInt16.ofNat (depthOf stack) := by
  induction stack with
  | nil => rfl
  | cons t stack ih =>
    show t.width + stackWidth stack = UInt16.ofNat (t.slots + depthOf stack)
    rw [UInt16.ofNat_add, ih, t.ofNat_slots]

/-! ## 2. Instructions -/

def methodType? (p : ConstantPool) (i : UInt16) : Option MethodDescriptor := do
  let m ← (p.memberRef i).toOption
  MethodDescriptor.ofDescriptor? m.descriptor

def operandSlots (kind : InvokeKind) (type : MethodDescriptor) : List Nat :=
  (type.params.map FieldType.slots).reverse ++ if kind = .static then [] else [1]

def Operation.slots? (p : ConstantPool) : Operation → Option (Nat × Nat)
  | .aconstNull | .iconst _ | .bipush _ | .sipush _ | .ldc _ | .ldcW _ | .new _ => some (0, 1)
  | .lconst0 | .lconst1 | .ldc2W _ => some (0, 2)
  | .load k _ => some (0, k.width)
  | .store k _ => some (k.width, 0)
  | .getField i => (p.field? i).map fun f => (1, f.type.slots)
  | .getStatic i => (p.field? i).map fun f => (0, f.type.slots)
  | .invoke kind i _ => (methodType? p i).map fun type =>
    ((operandSlots kind type).sum, (type.ret.toList.map FieldType.slots).sum)
  | .checkcast _ | .instanceof _ => some (1, 1)
  | .dup => some (1, 2)
  | .pop => some (1, 0)
  | .pop2 => some (2, 0)
  | .swap => some (2, 2)
  | .iadd => some (2, 1)
  | .ladd => some (4, 2)
  | .lcmp => some (4, 1)
  | .convert c => some (c.kinds.1.width, c.kinds.2.width)
  | .branch test _ => some (test.operands, 0)
  | .goto _ => some (0, 0)
  | .ret k => some (kindSlots k.toList, 0)

/-- The label and the argument slots of a call do not matter. -/
theorem Operation.slots?_resolve (p : ConstantPool) (op : Operation) (target : Nat) :
    (op.resolve target).slots? p = op.slots? p := by
  cases op with
  | invoke kind i slots => cases kind <;> rfl
  | _ => rfl

/-- What is read back in place of a jump leads to the position of its label. -/
theorem Operation.target?_resolve (op : Operation) (target : Nat) :
    (op.resolve target).target? = op.target?.map fun _ => ⟨target⟩ := by
  cases op with
  | invoke kind i slots => cases kind <;> rfl
  | _ => rfl

/-- Control passes on to the next instruction or not, wherever a jump leads. -/
theorem Operation.goesOn_resolve (op : Operation) (target : Nat) :
    Verify.Body.goesOn (op.resolve target) = Verify.Body.goesOn op := by
  cases op with
  | invoke kind i slots => cases kind <;> rfl
  | _ => rfl

def Operation.touches : Operation → Nat
  | .load k slot | .store k slot => slot.toNat + k.width
  | _ => 0

end MethodGraft.Code
