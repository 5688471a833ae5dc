import Mathlib.Algebra.GroupWithZero.Nat
import MethodGraft.Proofs.Machine.Decode
import MethodGraft.Proofs.Verify.StackMap

/-!
# Proofs.Verify.Body — method bodies as they are verified

The verifier goes through the instructions in order and keeps the kinds of values in the local slots
and on the operand stack.  It goes on from an instruction only with a frame: with the one that the
instruction before left, or, where the stack map has one, with that.  Everything that leads to a
position of the stack map must bring the stack that is listed there, and locals of all kinds that
are listed there.
-/

namespace MethodGraft

open ClassFile Code

/-! ## 1. Locals -/

namespace Code

/-- Locals that can be used as the listed ones. -/
def Layout.Covers (locals listed : Layout) : Prop :=
  ∀ i < listed.length, (listed.slots i).isSome → locals.slots i = listed.slots i

instance (locals listed : Layout) : Decidable (locals.Covers listed) :=
  inferInstanceAs
    (Decidable (∀ i < listed.length, (listed.slots i).isSome → locals.slots i = listed.slots i))

def Layout.store (locals : Layout) (slot : Nat) (k : ValueKind) : Layout :=
  (List.range (max locals.length (slot + k.width))).map
    (Slots.store ValueKind.isWide locals.slots slot k)

end Code

namespace Verify

def KindFrame.depth (f : KindFrame) : Nat := (f.stack.map ValueKind.width).sum

def entryFrame (isStatic : Bool) (type : MethodDescriptor) : KindFrame where
  locals :=
    (if isStatic then [] else ValueKind.reference.layout) ++ type.params.flatMap Typed.layoutOf
  stack := []

/-! ## 2. Instructions -/

structure Body where
  pool : ConstantPool
  code : List UInt8
  handlers : List ExceptionHandler
  table : Table
  maxLocals : Nat

namespace Body

def accepts (b : Body) (position : Nat) (f : KindFrame) : Bool :=
  (b.table.at? position).any fun g => g.stack = f.stack ∧ f.locals.Covers g.locals

/-- The frame of the instruction at a position.  It has one from the instruction before it or from
the stack map, and the two agree if it has both. -/
def enter? (b : Body) (position : Nat) (current : Option KindFrame) : Option KindFrame :=
  match b.table.at? position with
  | none => current
  | some g =>
    if current.all fun f => g.stack = f.stack ∧ f.locals.Covers g.locals then some g else none

/-- An exception that the instruction at the position raises may go to any handler of it. -/
def catches (b : Body) (position : Nat) (locals : Layout) : Bool :=
  b.handlers.all fun h =>
    !(h.startPc.toNat ≤ position && position < h.endPc.toNat) ||
      b.accepts h.handlerPc.toNat ⟨locals, [.reference]⟩

/-- The locals after an instruction.  It finds a value of its kind in the slot that it reads, and
all slots that it uses are among those of the body. -/
def localsAfter? (b : Body) (op : Operation) (locals : Layout) : Option Layout :=
  match op with
  | .load k slot =>
    if locals.slots slot.toNat = some k ∧ slot.toNat + k.width ≤ b.maxLocals then some locals
      else none
  | .store k slot =>
    if slot.toNat + k.width ≤ b.maxLocals then some (locals.store slot.toNat k) else none
  | _ => some locals

def goesOn : Operation → Bool
  | .goto _ | .ret _ => false
  | _ => true

def after? (b : Body) (position : Nat) (op : Operation) (f : KindFrame) : Option KindFrame := do
  let stack ← op.effect b.pool f.stack
  let locals ← b.localsAfter? op f.locals
  if b.catches position f.locals && op.target?.all (b.accepts ·.index ⟨locals, stack⟩) then
    some ⟨locals, stack⟩
  else none

/-- The frame of the instruction at a position, the position after it, and the frame that control
brings there. -/
def pass? (b : Body) (position : Nat) (current : Option KindFrame) :
    Option (KindFrame × Nat × Option KindFrame) := do
  let f ← b.enter? position current
  let (op, length) ← decodeAt b.code position
  let after ← b.after? position op f
  some (f, position + length, if goesOn op then some after else none)

/-! ## 3. Bodies -/

/-- The frames of the instructions from a position on, of which there are `n`.  Control does not get
behind the last one. -/
def framesFrom? (b : Body) : (n position : Nat) → (current : Option KindFrame) →
    Option (List (Nat × KindFrame))
  | 0, position, current => if position = b.code.length ∧ current = none then some [] else none
  | n + 1, position, current => do
    let (f, next, after) ← b.pass? position current
    let rest ← b.framesFrom? n next after
    some ((position, f) :: rest)

/-- The code type-checks against its stack map, and its instructions have these frames.  The stack
map has frames at instructions only, and no frame has more slots than the body. -/
structure Verifies (b : Body) (entry : KindFrame) (frames : List (Nat × KindFrame)) : Prop where
  passes : b.framesFrom? frames.length 0 (some entry) = some frames
  table : ∀ e ∈ b.table, e.1 ∈ frames.map Prod.fst ∧ e.2.locals.length ≤ b.maxLocals
  entry : entry.locals.length ≤ b.maxLocals

instance (b : Body) (entry : KindFrame) (frames : List (Nat × KindFrame)) :
    Decidable (b.Verifies entry frames) :=
  decidable_of_iff (b.framesFrom? frames.length 0 (some entry) = some frames ∧
      (∀ e ∈ b.table, e.1 ∈ frames.map Prod.fst ∧ e.2.locals.length ≤ b.maxLocals) ∧
        entry.locals.length ≤ b.maxLocals)
    ⟨fun h => ⟨h.1, h.2.1, h.2.2⟩, fun h => ⟨h.passes, h.table, h.entry⟩⟩

/-- The body pushes an `int`, drops it and returns. -/
example : Body.Verifies ⟨.empty, [0x04, 0x57, 0xb1], [], [], 0⟩ ⟨[], []⟩
    [(0, ⟨[], []⟩), (1, ⟨[], [.int]⟩), (2, ⟨[], []⟩)] := by decide

/-- The body drops what is not there. -/
example : Body.framesFrom? ⟨.empty, [0x57, 0xb1], [], [], 0⟩ 2 0 (some ⟨[], []⟩) = none := by decide

end Body

end Verify

end MethodGraft
