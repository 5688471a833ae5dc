import MethodGraft.Proofs.Bytes
import MethodGraft.Proofs.Machine.Effect

/-!
# Proofs.Machine.Decode — instructions in bytes

`decodeAt` reads the instruction at a position of a code array.  A jump is read with the position
that it leads to in place of a label.  It reads back every instruction that is written.
-/

namespace MethodGraft.Code

open ClassFile

/-! ## 1. Reading -/

def plainOperation? : UInt8 → Option Operation
  | Opcode.aconstNull => some .aconstNull
  | Opcode.lconst0 => some .lconst0
  | Opcode.lconst1 => some .lconst1
  | Opcode.dup => some .dup
  | Opcode.pop => some .pop
  | Opcode.pop2 => some .pop2
  | Opcode.swap => some .swap
  | Opcode.iadd => some .iadd
  | Opcode.ladd => some .ladd
  | Opcode.lcmp => some .lcmp
  | Opcode.i2l => some (.convert .i2l)
  | Opcode.i2f => some (.convert .i2f)
  | Opcode.i2d => some (.convert .i2d)
  | Opcode.l2f => some (.convert .l2f)
  | Opcode.l2d => some (.convert .l2d)
  | Opcode.f2d => some (.convert .f2d)
  | Opcode.ireturn => some (.ret (some .int))
  | Opcode.lreturn => some (.ret (some .long))
  | Opcode.freturn => some (.ret (some .float))
  | Opcode.dreturn => some (.ret (some .double))
  | Opcode.areturn => some (.ret (some .reference))
  | Opcode.returnVoid => some (.ret none)
  | opcode =>
    if 0x02 ≤ opcode ∧ opcode ≤ 0x08 then some (.iconst (opcode - Opcode.iconst0).toInt8) else none

def localOperation? (slot : UInt16) : UInt8 → Option Operation
  | Opcode.iload => some (.load .int slot)
  | Opcode.lload => some (.load .long slot)
  | Opcode.fload => some (.load .float slot)
  | Opcode.dload => some (.load .double slot)
  | Opcode.aload => some (.load .reference slot)
  | Opcode.istore => some (.store .int slot)
  | Opcode.lstore => some (.store .long slot)
  | Opcode.fstore => some (.store .float slot)
  | Opcode.dstore => some (.store .double slot)
  | Opcode.astore => some (.store .reference slot)
  | _ => none

def byteOperation? (operand : UInt8) : UInt8 → Option Operation
  | Opcode.bipush => some (.bipush operand.toInt8)
  | Opcode.ldc => some (.ldc operand)
  | opcode => localOperation? operand.toUInt16 opcode

def shortOperation? (operand : UInt16) : UInt8 → Option Operation
  | Opcode.sipush => some (.sipush operand.toInt16)
  | Opcode.ldcW => some (.ldcW operand)
  | Opcode.ldc2W => some (.ldc2W operand)
  | Opcode.getfield => some (.getField operand)
  | Opcode.getstatic => some (.getStatic operand)
  | Opcode.invokevirtual => some (.invoke .virtual operand 0)
  | Opcode.invokespecial => some (.invoke .special operand 0)
  | Opcode.invokestatic => some (.invoke .static operand 0)
  | Opcode.new => some (.new operand)
  | Opcode.checkcast => some (.checkcast operand)
  | Opcode.instanceof => some (.instanceof operand)
  | _ => none

def jumpTo? (target : Label) (opcode : UInt8) : Option Operation :=
  if opcode = Opcode.goto then some (.goto target)
  else (Test.ofOpcode? opcode).map fun test => .branch test target

def jump? (offset : Nat) (distance : Int16) (opcode : UInt8) : Option Operation :=
  let target : Int := offset + distance.toInt
  if 0 ≤ target then jumpTo? ⟨target.toNat⟩ opcode else none

def decodeOperation? (offset : Nat) : List UInt8 → Option (Operation × Nat)
  | [] => none
  | opcode :: rest =>
    match plainOperation? opcode with
    | some op => some (op, 1)
    | none =>
      match rest with
      | [] => none
      | a :: rest =>
        match byteOperation? a opcode with
        | some op => some (op, 2)
        | none =>
          match rest with
          | [] => none
          | b :: rest =>
            if opcode = Opcode.wide then
              match rest with
              | c :: _ => (localOperation? (ofBe16 b c) a).map (·, 4)
              | [] => none
            else if opcode = Opcode.invokeinterface then
              match rest with
              | slots :: 0 :: _ => some (.invoke .interface (ofBe16 a b) slots, 5)
              | _ => none
            else
              match shortOperation? (ofBe16 a b) opcode with
              | some op => some (op, 3)
              | none => (jump? offset (ofBe16 a b).toInt16 opcode).map (·, 3)

def decodeAt (code : List UInt8) (offset : Nat) : Option (Operation × Nat) :=
  decodeOperation? offset (code.drop offset)

/-! ## 2. Reading back what is written -/

/-- The operation as it is read back where its label has the position `target`.  Only an interface
call stores its argument slots. -/
def Operation.resolve (target : Nat) : Operation → Operation
  | .branch test _ => .branch test ⟨target⟩
  | .goto _ => .goto ⟨target⟩
  | .invoke .interface i slots => .invoke .interface i slots
  | .invoke kind i _ => .invoke kind i 0
  | op => op

theorem localOperation?_loadOpcode (k : ValueKind) (slot : UInt16) :
    localOperation? slot (Operation.loadOpcode k) = some (.load k slot) := by
  cases k <;> rfl

theorem localOperation?_storeOpcode (k : ValueKind) (slot : UInt16) :
    localOperation? slot (Operation.storeOpcode k) = some (.store k slot) := by
  cases k <;> rfl

theorem decodeOperation?_plain (offset : Nat) {opcode : UInt8} {op : Operation} (rest : List UInt8)
    (hop : plainOperation? opcode = some op) :
    decodeOperation? offset (opcode :: rest) = some (op, 1) := by
  simp only [decodeOperation?, hop]

theorem decodeOperation?_byte (offset : Nat) {opcode a : UInt8} {op : Operation}
    (rest : List UInt8) (hplain : plainOperation? opcode = none)
    (hop : byteOperation? a opcode = some op) :
    decodeOperation? offset (opcode :: a :: rest) = some (op, 2) := by
  simp only [decodeOperation?, hplain, hop]

structure TakesShort (opcode : UInt8) : Prop where
  plain : plainOperation? opcode = none
  byte : ∀ a, byteOperation? a opcode = none
  notWide : opcode ≠ Opcode.wide
  notInterface : opcode ≠ Opcode.invokeinterface

theorem decodeOperation?_short (offset : Nat) {opcode : UInt8} {i : UInt16} {op : Operation}
    (rest : List UInt8) (htakes : TakesShort opcode) (hop : shortOperation? i opcode = some op) :
    decodeOperation? offset (opcode :: be16 i ++ rest) = some (op, 3) := by
  show decodeOperation? offset (opcode :: (i >>> 8).toUInt8 :: i.toUInt8 :: rest) = some (op, 3)
  simp only [decodeOperation?, htakes.plain, htakes.byte, htakes.notWide, htakes.notInterface,
    if_false, ofBe16_be16, hop]

/-- A jump is read with the position that its distance leads to. -/
theorem decodeOperation?_jump {offset target : Nat} {distance : Int16} {opcode : UInt8}
    {op : Operation} (rest : List UInt8) (htakes : TakesShort opcode)
    (hshort : ∀ i, shortOperation? i opcode = none)
    (htarget : (offset : Int) + distance.toInt = target)
    (hop : jumpTo? ⟨target⟩ opcode = some op) :
    decodeOperation? offset (opcode :: be16 distance.toUInt16 ++ rest) = some (op, 3) := by
  have hjump : jump? offset distance opcode = some op := by
    simp only [jump?, htarget, Int.natCast_nonneg, if_true, Int.toNat_natCast]
    exact hop
  have hdistance : distance.toUInt16.toInt16 = distance := by simp
  show decodeOperation? offset
    (opcode :: (distance.toUInt16 >>> 8).toUInt8 :: distance.toUInt16.toUInt8 :: rest) = _
  simp only [decodeOperation?, htakes.plain, htakes.byte, htakes.notWide, htakes.notInterface,
    hshort, if_false, ofBe16_be16, hdistance, hjump, Option.map_some]

/-- An instruction on a local slot is read back in both of its forms. -/
theorem decodeOperation?_localBytes (offset : Nat) {opcode : UInt8} {slot : UInt16} {op : Operation}
    (rest : List UInt8) (hplain : plainOperation? opcode = none)
    (hbyte : ∀ operand, byteOperation? operand opcode = localOperation? operand.toUInt16 opcode)
    (hop : localOperation? slot opcode = some op) :
    decodeOperation? offset (Operation.localBytes opcode slot ++ rest) =
      some (op, (Operation.localBytes opcode slot).length) := by
  unfold Operation.localBytes
  split
  next hslot =>
    have hsame : slot.toUInt8.toUInt16 = slot := by
      apply UInt16.toNat_inj.mp
      rw [UInt8.toNat_toUInt16, UInt16.toNat_toUInt8]
      exact Nat.mod_eq_of_lt (Nat.lt_succ_of_le (UInt16.le_iff_toNat_le.mp hslot))
    show decodeOperation? offset (opcode :: slot.toUInt8 :: rest) = some (op, 2)
    simp only [decodeOperation?, hplain, hbyte, hsame, hop]
  next =>
    show decodeOperation? offset
      (Opcode.wide :: opcode :: (slot >>> 8).toUInt8 :: slot.toUInt8 :: rest) = some (op, 4)
    have hwide : plainOperation? Opcode.wide = none := by decide
    have hwide' (a : UInt8) : byteOperation? a Opcode.wide = none := rfl
    simp only [decodeOperation?, hwide, hwide', if_true, ofBe16_be16, hop, Option.map_some]

theorem iconst_cases {v : Int8} (h : -1 ≤ v ∧ v ≤ 5) :
    v = -1 ∨ v = 0 ∨ v = 1 ∨ v = 2 ∨ v = 3 ∨ v = 4 ∨ v = 5 := by
  have hlow : -1 ≤ v.toInt := Int8.le_iff_toInt_le.mp h.1
  have hhigh : v.toInt ≤ 5 := Int8.le_iff_toInt_le.mp h.2
  simp only [← Int8.toInt_inj]
  have h1 : (-1 : Int8).toInt = -1 := rfl
  have h0 : (0 : Int8).toInt = 0 := rfl
  rw [h1, h0]
  show v.toInt = -1 ∨ v.toInt = 0 ∨ v.toInt = 1 ∨ v.toInt = 2 ∨ v.toInt = 3 ∨ v.toInt = 4 ∨
    v.toInt = 5
  omega

theorem takesShort_test (test : Test) :
    TakesShort test.opcode ∧ ∀ i, shortOperation? i test.opcode = none := by
  rcases test with (_ | _ | _ | _ | _ | _) | (_ | _ | _ | _ | _ | _) | (_ | _) | (_ | _) <;>
    exact ⟨⟨rfl, fun _ => rfl, by decide, by decide⟩, fun _ => rfl⟩

theorem jumpTo?_test (target : Label) (test : Test) :
    jumpTo? target test.opcode = some (.branch test target) := by
  rcases test with (_ | _ | _ | _ | _ | _) | (_ | _ | _ | _ | _ | _) | (_ | _) | (_ | _) <;> rfl

/-- Every instruction that can be written is read back from its bytes. -/
theorem decodeOperation?_encode {op : Operation} (hrange : op.InRange) {offset target : Nat}
    {distance : Int16} (htarget : op.target?.isSome → (offset : Int) + distance.toInt = target)
    (rest : List UInt8) :
    decodeOperation? offset (op.encode distance ++ rest) = some (op.resolve target, op.size) := by
  -- an opcode is looked up among the plain ones first, then among those with one byte, with two and
  -- with a jump
  cases op with
  | iconst v =>
    rcases iconst_cases (hrange v rfl) with rfl | rfl | rfl | rfl | rfl | rfl | rfl <;> rfl
  | aconstNull | lconst0 | lconst1 | dup | pop | pop2 | swap | iadd | ladd | lcmp =>
    exact decodeOperation?_plain offset rest rfl
  | convert c => cases c <;> exact decodeOperation?_plain offset rest rfl
  | ret k =>
    rcases k with _ | k <;> [skip; cases k] <;> exact decodeOperation?_plain offset rest rfl
  | bipush v =>
    refine decodeOperation?_byte offset rest rfl ?_
    show some (Operation.bipush v.toUInt8.toInt8) = some (.bipush v)
    simp
  | ldc i => exact decodeOperation?_byte offset rest rfl rfl
  | load k slot =>
    refine decodeOperation?_localBytes offset rest ?_ ?_ (localOperation?_loadOpcode k slot)
    · cases k <;> rfl
    · cases k <;> exact fun _ => rfl
  | store k slot =>
    refine decodeOperation?_localBytes offset rest ?_ ?_ (localOperation?_storeOpcode k slot)
    · cases k <;> rfl
    · cases k <;> exact fun _ => rfl
  | sipush v =>
    refine decodeOperation?_short offset rest ⟨rfl, fun _ => rfl, by decide, by decide⟩ ?_
    show some (Operation.sipush v.toUInt16.toInt16) = some (.sipush v)
    simp
  | ldcW | ldc2W | getField | getStatic | new | checkcast | instanceof =>
    exact decodeOperation?_short offset rest ⟨rfl, fun _ => rfl, by decide, by decide⟩ rfl
  | invoke kind i slots =>
    cases kind with
    | interface =>
      -- its operands are the index, the slots and a zero, so it has a form of its own
      show decodeOperation? offset
        (Opcode.invokeinterface :: (i >>> 8).toUInt8 :: i.toUInt8 :: slots :: 0 :: rest) = _
      have hplain : plainOperation? Opcode.invokeinterface = none := by decide
      have hbyte (a : UInt8) : byteOperation? a Opcode.invokeinterface = none := rfl
      have hwide : Opcode.invokeinterface ≠ Opcode.wide := by decide
      simp only [decodeOperation?, hplain, hbyte, hwide, if_false, if_true, ofBe16_be16]
      rfl
    | virtual | special | static =>
      exact decodeOperation?_short offset rest ⟨rfl, fun _ => rfl, by decide, by decide⟩ rfl
  | branch test l =>
    obtain ⟨htakes, hshort⟩ := takesShort_test test
    exact decodeOperation?_jump rest htakes hshort (htarget rfl) (jumpTo?_test ⟨target⟩ test)
  | goto l =>
    exact decodeOperation?_jump rest ⟨rfl, fun _ => rfl, by decide, by decide⟩ (fun _ => rfl)
      (htarget rfl) rfl

end MethodGraft.Code
