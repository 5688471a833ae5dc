import MethodGraft.Code.Check
import MethodGraft.Proofs.Finish.Code

/-!
# Proofs.Finish.Walk — the code array of a complete body, split into instructions

Splitting the code array gives back one instruction for each operation.  Every constant that one of
them refers to is there and of a kind that it accepts, and every method that one of them invokes can
be resolved.
-/

namespace MethodGraft.Code

open ClassFile Typed

/-! ## 1. One instruction -/

def Operation.instruction (op : Operation) (offset : Nat) (d : Int16) : Instruction :=
  ⟨offset, (op.encode d).headD 0, (op.encode d).tail⟩

theorem splitExactly_append {α : Type} (items rest taken : List α) :
    Reader.splitExactly items.length taken (items ++ rest) =
    some (taken.reverse ++ items, rest) := by
  induction items generalizing taken with
  | nil => simp [Reader.splitExactly]
  | cons x items ih =>
    show Reader.splitExactly items.length (x :: taken) (items ++ rest) = _
    rw [ih]
    simp

/-- The opcode tells how many bytes follow. -/
theorem operandBytes_encode {op : Operation} (h : op.InRange) (d : Int16) : ∃ opcode operands,
      op.encode d = opcode :: operands ∧ ∀ offset rest,
        operandBytes offset opcode (operands ++ rest) = .ok operands.length := by
  cases op with
  | iconst v =>
    rcases iconst_cases (h v rfl) with rfl | rfl | rfl | rfl | rfl | rfl | rfl <;>
      exact ⟨_, _, rfl, fun _ _ => rfl⟩
  | load k slot | store k slot =>
    simp only [Operation.encode, Operation.localBytes]
    cases k <;> split <;> exact ⟨_, _, rfl, fun _ _ => rfl⟩
  | invoke kind => cases kind <;> exact ⟨_, _, rfl, fun _ _ => rfl⟩
  | convert c => cases c <;> exact ⟨_, _, rfl, fun _ _ => rfl⟩
  | ret k => rcases k with _ | (_ | _ | _ | _ | _) <;> exact ⟨_, _, rfl, fun _ _ => rfl⟩
  | branch test =>
    rcases test with (_ | _ | _ | _ | _ | _) | (_ | _ | _ | _ | _ | _) | (_ | _) | (_ | _) <;>
      exact ⟨_, _, rfl, fun _ _ => rfl⟩
  | _ => exact ⟨_, _, rfl, fun _ _ => rfl⟩

/-- The walk takes the instruction off the front. -/
theorem walkFrom_encode {op : Operation} (h : op.InRange) (d : Int16) (offset : Nat)
    (found : List Instruction) (rest : List UInt8) : walkFrom offset found (op.encode d ++ rest) =
      walkFrom (offset + op.size) (op.instruction offset d :: found) rest := by
  obtain ⟨opcode, operands, hbytes, hcount⟩ := operandBytes_encode h d
  have hsize : 1 + operands.length = op.size := by
    rw [← op.length_encode d, hbytes, List.length_cons, Nat.add_comm]
  have hinstruction : op.instruction offset d = ⟨offset, opcode, operands⟩ := by
    rw [Operation.instruction, hbytes]
    rfl
  rw [hbytes, List.cons_append, walkFrom, hcount, hinstruction, ← hsize, ← Nat.add_assoc]
  dsimp only
  split
  next hnone =>
    rw [splitExactly_append] at hnone
    cases hnone
  next hsome =>
    rw [splitExactly_append] at hsome
    cases hsome
    rfl

/-! ## 2. Constants -/

variable {pool : ConstantPool}

theorem checkInstruction_of_get {i : Instruction} {index : UInt16} {c : Constant}
    (hoperand : i.constantOperand? = some index) (hget : pool.get index = .ok c)
    (haccepts : accepts i.opcode c = true) : checkInstruction pool i = .ok () := by
  unfold checkInstruction
  rw [hoperand]
  show (do
    let c ← within (.instruction i.offset) (pool.get index)
    if accepts i.opcode c then return else fail _ : Except Error Unit) = _
  rw [hget]
  show (if accepts i.opcode c then return else fail _ : Except Error Unit) = _
  rw [if_pos haccepts]
  rfl

/-- A constant with a value, of the width that is asked for. -/
theorem get_of_constantKind {i : UInt16} {wide : Bool} {k : ValueKind}
    (h : constantKind pool i wide = some k) : ∃ c, pool.get i = .ok c ∧
      if wide then accepts Opcode.ldc2W c = true else accepts Opcode.ldcW c = true := by
  obtain ⟨v, hv, hk⟩ := Option.bind_eq_some_iff.mp h
  have hwide : v.kind.isWide = wide := by
    split at hk
    next h => exact h
    next => cases hk
  subst hwide
  unfold ConstantPool.value? at hv
  split at hv
  next hget =>
    cases hv
    exact ⟨_, hget, rfl⟩
  next hget =>
    cases hv
    exact ⟨_, hget, rfl⟩
  next hget =>
    cases hv
    exact ⟨_, hget, rfl⟩
  next hget =>
    cases hv
    exact ⟨_, hget, rfl⟩
  next hget =>
    obtain ⟨text, -, rfl⟩ := Option.map_eq_some_iff.mp hv
    exact ⟨_, hget, rfl⟩
  next => cases hv

theorem constantOperand?_be16 {offset : Nat} {opcode : UInt8} {i : UInt16} {more : List UInt8}
    (hldc : (opcode == Opcode.ldc) = false) (hname : (Opcode.constantName? opcode).isSome) :
    Instruction.constantOperand? ⟨offset, opcode, be16 i ++ more⟩ = some i := by
  unfold Instruction.constantOperand?
  rw [if_neg (by simpa using hldc), if_pos hname]
  show some (ofBe16 (i >>> 8).toUInt8 i.toUInt8) = some i
  rw [ofBe16_be16]

theorem get_of_callee? {kind : InvokeKind} {i : UInt16} {c : Callee}
    (h : pool.callee? kind i = some c) (d : Int16) (slots : UInt8) :
    (∃ k, pool.get i = .ok k ∧
      accepts (((Operation.invoke kind i slots).encode d).headD 0) k = true) ∧
      ∃ m, pool.memberRef i = .ok m := by
  obtain ⟨-, ⟨k, n, hget⟩, ⟨hinterface, hvirtual⟩, m, hm, -⟩ :=
    ConstantPool.callee?_eq_some_iff.mp h
  refine ⟨⟨_, hget, ?_⟩, m, hm⟩
  cases kind with
  | virtual =>
    rw [hvirtual rfl]
    rfl
  | interface =>
    rw [hinterface rfl]
    rfl
  | special | static => cases c.onInterface <;> rfl

/-- An operation that has an effect refers to no constant or to one that it accepts. -/
theorem checkInstruction_instruction {op : Operation} {taken left : List ValueKind}
    (h : op.effect pool taken = some left) (offset : Nat) (d : Int16) :
    checkInstruction pool (op.instruction offset d) = .ok () := by
  cases op with
  | ldc i =>
    obtain ⟨k, hk, -⟩ := Option.map_eq_some_iff.mp h
    obtain ⟨c, hget, haccepts⟩ := get_of_constantKind hk
    exact checkInstruction_of_get rfl hget haccepts
  | ldcW i =>
    obtain ⟨k, hk, -⟩ := Option.map_eq_some_iff.mp h
    obtain ⟨c, hget, haccepts⟩ := get_of_constantKind hk
    exact checkInstruction_of_get (constantOperand?_be16 rfl rfl) hget haccepts
  | ldc2W i =>
    obtain ⟨k, hk, -⟩ := Option.map_eq_some_iff.mp h
    obtain ⟨c, hget, haccepts⟩ := get_of_constantKind hk
    exact checkInstruction_of_get (constantOperand?_be16 rfl rfl) hget haccepts
  | getField i =>
    obtain ⟨f, hf, -⟩ := Option.bind_eq_some_iff.mp h
    obtain ⟨⟨c, n, hget⟩, -⟩ := ConstantPool.field?_eq_some_iff.mp hf
    exact checkInstruction_of_get (constantOperand?_be16 rfl rfl) hget rfl
  | getStatic i =>
    obtain ⟨f, hf, -⟩ := Option.map_eq_some_iff.mp h
    obtain ⟨⟨c, n, hget⟩, -⟩ := ConstantPool.field?_eq_some_iff.mp hf
    exact checkInstruction_of_get (constantOperand?_be16 rfl rfl) hget rfl
  | invoke kind i slots =>
    obtain ⟨c, hc, -⟩ := Option.bind_eq_some_iff.mp h
    obtain ⟨⟨k, hget, haccepts⟩, -⟩ := get_of_callee? hc d slots
    refine checkInstruction_of_get ?_ hget haccepts
    cases kind <;> exact constantOperand?_be16 rfl rfl
  | new i =>
    obtain ⟨name, hname, -⟩ := Option.map_eq_some_iff.mp h
    obtain ⟨n, hget, -⟩ :=
      ConstantPool.className_eq_ok_iff.mp (ConstantPool.class?_eq_some_iff.mp hname)
    exact checkInstruction_of_get (constantOperand?_be16 rfl rfl) hget rfl
  | checkcast i | instanceof i =>
    obtain ⟨name, hname, -⟩ := Option.bind_eq_some_iff.mp h
    obtain ⟨n, hget, -⟩ :=
      ConstantPool.className_eq_ok_iff.mp (ConstantPool.class?_eq_some_iff.mp hname)
    exact checkInstruction_of_get (constantOperand?_be16 rfl rfl) hget rfl
  -- from here on no constant is referred to; the instructions are looked at one by one
  | iconst v =>
    rcases iconst_cases (Operation.inRange_of_effect h v rfl)
      with rfl | rfl | rfl | rfl | rfl | rfl | rfl <;> rfl
  | load k slot | store k slot =>
    unfold Operation.instruction
    simp only [Operation.encode, Operation.localBytes]
    cases k <;> split <;> rfl
  | convert c => cases c <;> rfl
  | ret k => rcases k with _ | (_ | _ | _ | _ | _) <;> rfl
  | branch test =>
    rcases test with (_ | _ | _ | _ | _ | _) | (_ | _ | _ | _ | _ | _) | (_ | _) | (_ | _) <;> rfl
  | _ => rfl

/-- An operation that has an effect calls the method that its constant refers to, or calls none. -/
theorem invokedMethod?_of_effect {op : Operation} {taken left : List ValueKind}
    (h : op.effect pool taken = some left) (offset : Nat) (d : Int16) :
    (∃ kind i slots m, op = .invoke kind i slots ∧ pool.memberRef i = .ok m ∧
      invokedMethod? pool (op.instruction offset d) = .ok (some m)) ∨
    invokedMethod? pool (op.instruction offset d) = .ok none := by
  cases op with
  | invoke kind i slots =>
    obtain ⟨c, hc, -⟩ := Option.bind_eq_some_iff.mp h
    obtain ⟨-, m, hm⟩ := get_of_callee? hc d slots
    have hoperand : ((Operation.invoke kind i slots).instruction offset d).constantOperand? =
        some i := by
      cases kind <;> exact constantOperand?_be16 rfl rfl
    have hinvoke : Opcode.isInvoke ((Operation.invoke kind i slots).instruction offset d).opcode =
        true := by
      cases kind <;> rfl
    refine .inl ⟨kind, i, slots, m, rfl, hm, ?_⟩
    unfold invokedMethod?
    rw [if_pos hinvoke, hoperand]
    show (pool.memberRef i).map some = .ok (some m)
    rw [hm]
    rfl
  -- the others have opcodes of their own, none of which calls a method
  | iconst v =>
    rcases iconst_cases (Operation.inRange_of_effect h v rfl)
      with rfl | rfl | rfl | rfl | rfl | rfl | rfl <;> exact .inr rfl
  | load k slot | store k slot =>
    unfold Operation.instruction
    simp only [Operation.encode, Operation.localBytes]
    cases k <;> split <;> exact .inr rfl
  | convert c => cases c <;> exact .inr rfl
  | ret k => rcases k with _ | (_ | _ | _ | _ | _) <;> exact .inr rfl
  | branch test =>
    rcases test with (_ | _ | _ | _ | _ | _) | (_ | _ | _ | _ | _ | _) | (_ | _) | (_ | _) <;>
      exact .inr rfl
  | _ => exact .inr rfl

/-- An operation that has an effect invokes no method or one that can be resolved. -/
theorem invokedMethod?_instruction {op : Operation} {taken left : List ValueKind}
    (h : op.effect pool taken = some left) (offset : Nat) (d : Int16) :
    ∃ m, invokedMethod? pool (op.instruction offset d) = .ok m := by
  obtain ⟨_, _, _, m, -, -, hm⟩ | hnone := invokedMethod?_of_effect h offset d
  · exact ⟨some m, hm⟩
  · exact ⟨none, hnone⟩

/-! ## 3. The whole code -/

namespace Assembler

variable {a : Assembler} {offset : Nat} {ops : List Operation} {bytes : List UInt8}

/-- The instructions are those of the operations, the first of which stands at `offset`. -/
inductive Split (a : Assembler) : Nat → List Operation → List Instruction → Prop
  | nil (offset : Nat) : Split a offset [] []
  | cons {offset : Nat} {op : Operation} {ops : List Operation} {is : List Instruction} (d : Int16)
      (covered : a.Covered offset op d) (rest : Split a (offset + op.size) ops is) :
      Split a offset (op :: ops) (op.instruction offset d :: is)

theorem Encoded.walkFrom (h : a.Encoded offset ops bytes) (hops : ∀ op ∈ ops, op.InRange)
    (found : List Instruction) :
    ∃ is, Code.walkFrom offset found bytes = .ok (found.reverse ++ is) ∧ a.Split offset ops is := by
  induction h generalizing found with
  | nil offset =>
    refine ⟨[], ?_, .nil offset⟩
    rw [Code.walkFrom, List.append_nil]
  | @cons offset op ops bytes d covered rest ih =>
    obtain ⟨is, his, hsplit⟩ := ih (fun op' hop' => hops op' (List.mem_cons_of_mem op hop'))
      (op.instruction offset d :: found)
    refine ⟨op.instruction offset d :: is, ?_, .cons d covered hsplit⟩
    rw [walkFrom_encode (hops op List.mem_cons_self), his, List.reverse_cons, List.append_assoc]
    rfl

/-- Splitting the code gives one instruction for each operation. -/
theorem Encoded.walk (h : a.Encoded 0 ops bytes) (hops : ∀ op ∈ ops, op.InRange) :
    ∃ is, Code.walk bytes = .ok is ∧ a.Split 0 ops is := h.walkFrom hops []

theorem Split.checkConstantOperands {is : List Instruction} (h : a.Split offset ops is)
    (hops : ∀ op ∈ ops, ∃ taken left, op.effect pool taken = some left) :
    is.forM (checkInstruction pool) = .ok () := by
  induction h with
  | nil => rfl
  | @cons offset op ops is d covered rest ih =>
    obtain ⟨taken, left, heffect⟩ := hops op List.mem_cons_self
    show (do
      checkInstruction pool (op.instruction offset d)
      is.forM (checkInstruction pool)) = _
    rw [checkInstruction_instruction heffect]
    exact ih fun op' hop' => hops op' (List.mem_cons_of_mem op hop')

theorem Split.invokedMethods {is : List Instruction} (h : a.Split offset ops is)
    (hops : ∀ op ∈ ops, ∃ taken left, op.effect pool taken = some left) :
    ∃ ms, is.mapM (invokedMethod? pool) = .ok ms := by
  induction h with
  | nil => exact ⟨[], rfl⟩
  | @cons offset op ops is d covered rest ih =>
    obtain ⟨taken, left, heffect⟩ := hops op List.mem_cons_self
    obtain ⟨m, hm⟩ := invokedMethod?_instruction heffect offset d
    obtain ⟨ms, hms⟩ := ih fun op' hop' => hops op' (List.mem_cons_of_mem op hop')
    refine ⟨m :: ms, ?_⟩
    rw [List.mapM_cons, hm, hms]
    rfl

/-- Every method that the code invokes is the one of some call. -/
theorem Split.invoke_mem {is : List Instruction} (h : a.Split offset ops is)
    (hops : ∀ op ∈ ops, ∃ taken left, op.effect pool taken = some left)
    {ms : List (Option MemberRef)} (hms : is.mapM (invokedMethod? pool) = .ok ms) {ref : MemberRef}
    (href : some ref ∈ ms) :
    ∃ kind i slots, .invoke kind i slots ∈ ops ∧ pool.memberRef i = .ok ref := by
  induction h generalizing ms with
  | nil =>
    cases hms
    cases href
  | @cons offset op ops is d covered rest ih =>
    obtain ⟨taken, left, heffect⟩ := hops op List.mem_cons_self
    rw [List.mapM_cons] at hms
    obtain ⟨found, hfound, hms⟩ := bind_eq_ok_iff.mp hms
    obtain ⟨ms', hms', hms⟩ := bind_eq_ok_iff.mp hms
    cases hms
    rcases List.mem_cons.mp href with rfl | href
    · obtain ⟨kind, i, slots, m, rfl, hi, hm⟩ | hnone := invokedMethod?_of_effect heffect offset d
      · cases hm.symm.trans hfound
        exact ⟨kind, i, slots, List.mem_cons_self, hi⟩
      · cases hnone.symm.trans hfound
    · obtain ⟨kind, i, slots, hmem, hi⟩ :=
        ih (fun op' hop' => hops op' (List.mem_cons_of_mem op hop')) hms' href
      exact ⟨kind, i, slots, List.mem_cons_of_mem op hmem, hi⟩

end Assembler

end MethodGraft.Code
