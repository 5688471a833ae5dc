import Mathlib.Algebra.GroupWithZero.Nat
import MethodGraft.Code.Operation
import MethodGraft.Proofs.Machine.Value

/-!
# Proofs.Machine.Effect — what an instruction does to kinds

Local slots hold values, or kinds of values where only these are followed.  `Operation.effect` is
the rule of an instruction for the kinds on the operand stack: what it must find there, and what it
leaves.
-/

namespace MethodGraft.Code

open ClassFile Typed Machine

/-! ## 1. Local slots -/

/-- What the local slots hold.  The second slot of a wide value holds nothing. -/
abbrev Slots (α : Type) := Nat → Option α

/-- The slots after a value is stored in slot `n`.  It takes the next slot as well if it is wide,
and destroys a wide value that began in the slot before. -/
def Slots.store {α : Type} (wide : α → Bool) (s : Slots α) (n : Nat) (v : α) : Slots α := fun i =>
  if i = n then some v
  else if i = n + 1 ∧ wide v then none
  else if i + 1 = n ∧ (s i).any wide then none
  else s i

def Layout.slots (layout : Layout) : Slots ValueKind := fun i => (layout[i]?).join

theorem Slots.store_self {α : Type} (wide : α → Bool) (s : Slots α) (n : Nat) (v : α) :
    s.store wide n v n = some v := if_pos rfl

/-- A slot that survives a store keeps what it held. -/
theorem Slots.store_eq_some {α : Type} {wide : α → Bool} {s : Slots α} {n i : Nat} {v w : α}
    (hi : i ≠ n) : s.store wide n v i = some w ↔
      s i = some w ∧ ¬(i = n + 1 ∧ wide v) ∧ ¬(i + 1 = n ∧ wide w) := by
  unfold Slots.store
  rw [if_neg hi]
  split
  next h => simp [h]
  next h =>
    split
    next hw =>
      simp only [reduceCtorEq, false_iff]
      rintro ⟨hs, -, hnot⟩
      rw [hs] at hw
      exact hnot ⟨hw.1, by simpa using hw.2⟩
    next hw =>
      constructor
      · intro hs
        rw [hs] at hw
        exact ⟨hs, h, by simpa using hw⟩
      · exact fun hs => hs.1

/-! ## 2. The operand stack -/

def takeKinds : (taken stack : List ValueKind) → Option (List ValueKind)
  | [], stack => some stack
  | k :: taken, k' :: stack => if k = k' then takeKinds taken stack else none
  | _ :: _, [] => none

theorem takeKinds_eq_some_iff {taken stack rest : List ValueKind} :
    takeKinds taken stack = some rest ↔ stack = taken ++ rest := by
  fun_induction takeKinds taken stack with
  | case1 stack => simp
  | case2 taken k stack ih => simp [ih]
  | case3 taken k k' stack hne =>
    simp only [reduceCtorEq, List.cons_append, List.cons.injEq, false_iff, not_and]
    exact fun h => absurd h.symm hne
  | case4 => simp

def constantKind (p : ConstantPool) (i : UInt16) (wide : Bool) : Option ValueKind := do
  let v ← p.value? i
  if v.kind.isWide = wide then some v.kind else none

def operandKinds (c : Callee) : List ValueKind :=
  (c.type.params.map ValueKind.ofType).reverse ++ if c.kind = .static then [] else [.reference]

def ValueKind.width (k : ValueKind) : Nat := if k.isWide then 2 else 1

@[simp] theorem ValueKind.width_ofType (t : FieldType) : (ValueKind.ofType t).width = t.slots := by
  cases t <;> rfl

def kindSlots (kinds : List ValueKind) : Nat := (kinds.map ValueKind.width).sum

/-- An interface call gives the count of its operand slots, which is taken in sixteen bits. -/
def Counts (kind : InvokeKind) (c : Callee) (count : UInt8) : Prop :=
  kind = .interface → count.toUInt16 = UInt16.ofNat (kindSlots (operandKinds c))

instance (kind : InvokeKind) (c : Callee) (count : UInt8) : Decidable (Counts kind c count) :=
  inferInstanceAs (Decidable (_ → _))

def Test.operandKinds : Test → List ValueKind
  | .zero _ => [.int]
  | .ints _ => [.int, .int]
  | .refs _ => [.reference, .reference]
  | .null _ => [.reference]

def Conversion.kinds : Conversion → ValueKind × ValueKind
  | .i2l => (.int, .long)
  | .i2f => (.int, .float)
  | .i2d => (.int, .double)
  | .l2f => (.long, .float)
  | .l2d => (.long, .double)
  | .f2d => (.float, .double)

/-- The kinds on the stack after an operation, its top first, if the operation finds what it takes
and its constant is of a kind that it accepts. -/
def Operation.effect (p : ConstantPool) (op : Operation) (stack : List ValueKind) :
    Option (List ValueKind) :=
  match op with
  | .aconstNull => some (.reference :: stack)
  | .iconst v => if -1 ≤ v ∧ v ≤ 5 then some (.int :: stack) else none
  | .bipush _ | .sipush _ => some (.int :: stack)
  | .lconst0 | .lconst1 => some (.long :: stack)
  | .ldc i => (constantKind p i.toUInt16 false).map (· :: stack)
  | .ldcW i => (constantKind p i false).map (· :: stack)
  | .ldc2W i => (constantKind p i true).map (· :: stack)
  | .load k _ => some (k :: stack)
  | .store k _ => takeKinds [k] stack
  | .getField i => do
    let f ← p.field? i
    (takeKinds [.reference] stack).map (.ofType f.type :: ·)
  | .getStatic i => (p.field? i).map fun f => .ofType f.type :: stack
  | .invoke kind i count => do
    let c ← p.callee? kind i
    if Counts kind c count then
      (takeKinds (operandKinds c) stack).map ((c.type.ret.map ValueKind.ofType).toList ++ ·)
    else none
  | .new i => (p.class? i).map fun _ => .reference :: stack
  | .checkcast i => do
    let _ ← p.class? i
    (takeKinds [.reference] stack).map (.reference :: ·)
  | .instanceof i => do
    let _ ← p.class? i
    (takeKinds [.reference] stack).map (.int :: ·)
  | .dup =>
    match stack with
    | k :: rest => if k.isWide then none else some (k :: k :: rest)
    | [] => none
  | .pop =>
    match stack with
    | k :: rest => if k.isWide then none else some rest
    | [] => none
  | .pop2 =>
    match stack with
    | k :: rest => if k.isWide then some rest else none
    | [] => none
  | .swap =>
    match stack with
    | k :: l :: rest => if k.isWide ∨ l.isWide then none else some (l :: k :: rest)
    | _ => none
  | .iadd => (takeKinds [.int, .int] stack).map (.int :: ·)
  | .ladd => (takeKinds [.long, .long] stack).map (.long :: ·)
  | .lcmp => (takeKinds [.long, .long] stack).map (.int :: ·)
  | .convert c => (takeKinds [c.kinds.1] stack).map (c.kinds.2 :: ·)
  | .branch test _ => takeKinds test.operandKinds stack
  | .goto _ => some stack
  | .ret k => takeKinds k.toList stack

theorem Operation.effect_invoke_eq_some_iff {p : ConstantPool} {kind : InvokeKind} {i : UInt16}
    {count : UInt8} {stack after : List ValueKind} :
    (Operation.invoke kind i count).effect p stack = some after ↔
      ∃ c, p.callee? kind i = some c ∧ Counts kind c count ∧
        (takeKinds (operandKinds c) stack).map ((c.type.ret.map ValueKind.ofType).toList ++ ·) =
          some after := by
  refine Option.bind_eq_some_iff.trans (exists_congr fun c => and_congr_right fun _ => ?_)
  exact Option.ite_none_right_eq_some

theorem constantKind_mono {p q : ConstantPool} (hle : p ≤ q) {i : UInt16} {wide : Bool}
    {k : ValueKind} (h : constantKind p i wide = some k) : constantKind q i wide = some k := by
  unfold constantKind at h ⊢
  obtain ⟨v, hv, hk⟩ := Option.bind_eq_some_iff.mp h
  exact Option.bind_eq_some_iff.mpr ⟨v, ConstantPool.value?_mono hle hv, hk⟩

/-- The operation can be written: only an `int` from -1 to 5 is part of an opcode. -/
def Operation.InRange (op : Operation) : Prop := ∀ v, op = .iconst v → -1 ≤ v ∧ v ≤ 5

theorem Operation.inRange_of_effect {p : ConstantPool} {op : Operation}
    {stack after : List ValueKind} (h : op.effect p stack = some after) : op.InRange := by
  rintro v rfl
  by_contra hv
  rw [Operation.effect, if_neg hv] at h
  cases h

theorem toInt32_toInt8 {v : Int32} (h : -128 ≤ v ∧ v ≤ 127) : v.toInt8.toInt32 = v := by
  have hlow : -128 ≤ v.toInt := Int32.le_iff_toInt_le.mp h.1
  have hhigh : v.toInt ≤ 127 := Int32.le_iff_toInt_le.mp h.2
  apply Int32.toInt_inj.mp
  rw [Int8.toInt_toInt32, Int32.toInt_toInt8]
  exact Int.bmod_eq_of_le (by omega) (by omega)

theorem toInt8_inRange {v : Int32} (h : -1 ≤ v ∧ v ≤ 5) : -1 ≤ v.toInt8 ∧ v.toInt8 ≤ 5 := by
  have hlow : -1 ≤ v.toInt := Int32.le_iff_toInt_le.mp h.1
  have hhigh : v.toInt ≤ 5 := Int32.le_iff_toInt_le.mp h.2
  have hbyte : v.toInt8.toInt32 = v :=
    toInt32_toInt8 ⟨Int32.le_iff_toInt_le.mpr (Int.le_trans (by decide) hlow),
      Int32.le_iff_toInt_le.mpr (Int.le_trans hhigh (by decide))⟩
  have hsame : v.toInt8.toInt = v.toInt := by rw [← Int8.toInt_toInt32, hbyte]
  rw [Int8.le_iff_toInt_le, Int8.le_iff_toInt_le, hsame]
  exact ⟨hlow, hhigh⟩

/-- An operation does the same with a larger pool. -/
theorem Operation.effect_mono {p q : ConstantPool} (hle : p ≤ q) {op : Operation}
    {stack after : List ValueKind} (h : op.effect p stack = some after) :
    op.effect q stack = some after := by
  cases op with
  | ldc | ldcW | ldc2W =>
    obtain ⟨k, hk, rfl⟩ := Option.map_eq_some_iff.mp h
    exact Option.map_eq_some_iff.mpr ⟨k, constantKind_mono hle hk, rfl⟩
  | getField i =>
    obtain ⟨f, hf, hs⟩ := Option.bind_eq_some_iff.mp h
    exact Option.bind_eq_some_iff.mpr ⟨f, ConstantPool.field?_mono hle hf, hs⟩
  | getStatic i =>
    obtain ⟨f, hf, rfl⟩ := Option.map_eq_some_iff.mp h
    exact Option.map_eq_some_iff.mpr ⟨f, ConstantPool.field?_mono hle hf, rfl⟩
  | invoke kind i slots =>
    obtain ⟨c, hc, hs⟩ := effect_invoke_eq_some_iff.mp h
    exact effect_invoke_eq_some_iff.mpr ⟨c, ConstantPool.callee?_mono hle hc, hs⟩
  | new i =>
    obtain ⟨c, hc, rfl⟩ := Option.map_eq_some_iff.mp h
    exact Option.map_eq_some_iff.mpr ⟨c, ConstantPool.class?_mono hle hc, rfl⟩
  | checkcast i | instanceof i =>
    obtain ⟨c, hc, hs⟩ := Option.bind_eq_some_iff.mp h
    exact Option.bind_eq_some_iff.mpr ⟨c, ConstantPool.class?_mono hle hc, hs⟩
  | _ => exact h

end MethodGraft.Code
