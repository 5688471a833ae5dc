import MethodGraft.Code.Walk
import MethodGraft.Proofs.ClassFile.Reading
import MethodGraft.Proofs.Runs

/-!
# Proofs.Code.Tiling — code arrays as rows of instructions

A code array is split into instructions in one way at most: they stand one after another, and the
operands of each one have the form that its opcode asks for.  What these forms are is said here
without reading from the front.  No operands begin with other operands of the same opcode at the
same position, so a code array that is cut within an instruction cannot be split at all.
-/

namespace MethodGraft.Code

open ClassFile Reader

variable {offset n : Nat} {opcode : UInt8} {shape : OperandShape} {bytes rest code : List UInt8}
  {i : Instruction} {is js : List Instruction}

/-! ## 1. Operands -/

inductive SwitchHead : OperandShape → List UInt8 → Nat → Prop
  | table {d : UInt32} {low high : Int32} : low.toInt ≤ high.toInt →
    SwitchHead .tableSwitch (be32 d ++ be32 low.toUInt32 ++ be32 high.toUInt32)
      ((high.toInt - low.toInt + 1).toNat * 4)
  | lookup {d : UInt32} {pairs : Int32} : 0 ≤ pairs.toInt →
    SwitchHead .lookupSwitch (be32 d ++ be32 pairs.toUInt32) (pairs.toInt.toNat * 8)

inductive Operands (offset : Nat) : OperandShape → List UInt8 → Prop
  | fixed (bytes : List UInt8) : Operands offset (.fixed bytes.length) bytes
  | widened {op : UInt8} {bytes : List UInt8} : bytes.length = (if op = Opcode.iinc then 4 else 2) →
    Operands offset .widened (op :: bytes)
  | switch {shape : OperandShape} {padding head table : List UInt8} {n : Nat} :
    padding.length = switchPadding offset → SwitchHead shape head n → table.length = n →
    Operands offset shape (padding ++ head ++ table)

theorem length_be32 (n : UInt32) : (be32 n).length = 4 := rfl

theorem reads_readInt :
    Reads readInt fun v bytes => ∃ w : Int32, v = w.toInt ∧ bytes = be32 w.toUInt32 := by
  refine (reads_u32.map fun n => n.toInt32.toInt).congr fun v bytes => ⟨?_, ?_⟩
  · rintro ⟨n, rfl, rfl⟩
    exact ⟨n.toInt32, rfl, by rw [UInt32.toUInt32_toInt32]⟩
  · rintro ⟨w, rfl, rfl⟩
    exact ⟨w.toUInt32, by rw [Int32.toInt32_toUInt32], rfl⟩

/-- A reader of the head of the table of a switch, which tells the size of the switch with its
padding. -/
def ReadsHead (offset : Nat) (shape : OperandShape) (r : Reader Nat) : Prop :=
  Reads r fun n head => ∃ m, SwitchHead shape head m ∧ n = switchPadding offset + head.length + m

theorem readsHead_tableSwitchBytes : ReadsHead offset .tableSwitch (tableSwitchBytes offset) := by
  refine (reads_u32.bind fun d => reads_readInt.bind fun low => reads_readInt.bind fun high =>
    Reads.unless fun _ => .pure _).congr fun n head => ⟨?_, ?_⟩
  · rintro ⟨d, _, _, rfl, rfl, _, _, _, rfl, ⟨low, rfl, rfl⟩, _, _, _, rfl, ⟨high, rfl, rfl⟩, hle,
      rfl, rfl⟩
    refine ⟨_, by simpa using SwitchHead.table (d := d) (Int.not_lt.mp hle), by simp [length_be32]⟩
  · rintro ⟨m, hhead, rfl⟩
    cases hhead with
    | @table d low high hle =>
      exact ⟨d, _, _, by rw [List.append_assoc], rfl, _, _, _, rfl, ⟨low, rfl, rfl⟩, _, _,
        [], by simp, ⟨high, rfl, rfl⟩, Int.not_lt.mpr hle, by simp [length_be32], rfl⟩

theorem readsHead_lookupSwitchBytes :
    ReadsHead offset .lookupSwitch (lookupSwitchBytes offset) := by
  refine (reads_u32.bind fun d => reads_readInt.bind fun pairs =>
    Reads.unless fun _ => .pure _).congr fun n head => ⟨?_, ?_⟩
  · rintro ⟨d, _, _, rfl, rfl, _, _, _, rfl, ⟨pairs, rfl, rfl⟩, hle, rfl, rfl⟩
    refine ⟨_, by simpa using SwitchHead.lookup (d := d) (Int.not_lt.mp hle), by simp [length_be32]⟩
  · rintro ⟨m, hhead, rfl⟩
    cases hhead with
    | @lookup d pairs hle =>
      exact ⟨d, _, _, rfl, rfl, _, _, [], by simp, ⟨pairs, rfl, rfl⟩,
        Int.not_lt.mpr hle, by simp [length_be32], rfl⟩

/-- Only a switch has a table. -/
theorem SwitchHead.isSwitch {head : List UInt8} (h : SwitchHead shape head n) :
    head ≠ [] ∧ (shape = .tableSwitch ∨ shape = .lookupSwitch) := by
  cases h with
  | table => exact ⟨by simp [be32], .inl rfl⟩
  | lookup => exact ⟨by simp [be32], .inr rfl⟩

/-- A switch takes its padding, the head of its table and as many bytes as the head asks for. -/
theorem switchBytes_eq_ok_iff {r : Reader Nat} (hr : ReadsHead offset shape r)
    (hshape : shape = .tableSwitch ∨ shape = .lookupSwitch) :
    switchBytes offset (bytes ++ rest) r = .ok bytes.length ↔ Operands offset shape bytes := by
  have hmap : switchBytes offset (bytes ++ rest) r = .ok bytes.length ↔ ∃ c,
      r ⟨(bytes ++ rest).drop (switchPadding offset), offset + 1 + switchPadding offset⟩ =
        .ok (bytes.length, c) := by
    unfold switchBytes
    cases r _ with
    | error e => exact ⟨nofun, nofun⟩
    | ok p => simp [Except.map, Prod.ext_iff]
  rw [hmap]
  constructor
  · rintro ⟨c, hread⟩
    obtain ⟨head, hdrop, -, m, hhead, hlength⟩ := (hr _ _ _).mp hread
    dsimp only at hdrop
    have hpadding : ((bytes ++ rest).take (switchPadding offset)).length =
        switchPadding offset := by
      have hhead := List.length_pos_of_ne_nil hhead.isSwitch.1
      have hdrop := congrArg List.length hdrop
      rw [List.length_drop, @List.length_append _ head] at hdrop
      rw [List.length_take]
      omega
    have hsplit := List.take_append_drop (switchPadding offset) (bytes ++ rest)
    rw [hdrop, ← List.append_assoc] at hsplit
    -- padding and head are no longer than the bytes, so the bytes begin with them
    obtain ⟨table, htable⟩ :=
      List.prefix_of_prefix_length_le ⟨_, hsplit⟩ (List.prefix_append bytes rest) (by
      rw [List.length_append, hpadding, hlength]
      omega)
    have htotal := congrArg List.length htable
    rw [List.length_append, List.length_append, hpadding, hlength] at htotal
    rw [← htable]
    exact .switch hpadding hhead (Nat.add_left_cancel htotal)
  · intro h
    cases h with
    | fixed | widened => simp at hshape
    | @switch _ padding head table _ hpadding hhead htable =>
      refine ⟨⟨table ++ rest, offset + 1 + switchPadding offset + head.length⟩,
        (hr _ _ _).mpr ⟨head, ?_, rfl, _, hhead, ?_⟩⟩
      · rw [← hpadding, List.append_assoc, List.append_assoc, List.drop_left]
      · rw [List.length_append, List.length_append, hpadding, htable]

/-- The bytes are operands if and only if this is what the number of operand bytes is found to be,
whatever follows. -/
theorem operandBytes_eq_ok_iff : operandBytes offset opcode (bytes ++ rest) = .ok bytes.length ↔
    Operands offset (operandShape opcode) bytes := by
  unfold operandBytes
  cases operandShape opcode with
  | fixed n =>
    constructor
    · intro h
      cases h
      exact .fixed bytes
    · intro h
      cases h with
      | fixed => rfl
      | switch _ hhead => simpa using hhead.isSwitch.2
  | widened =>
    constructor
    · intro h
      cases bytes with
      | nil =>
        cases rest with
        | nil => cases h
        | cons op rest =>
          -- the widened opcode itself is among the operands, so there is one byte at least
          have hlength : (if op = Opcode.iinc then 5 else 3) = 0 := Except.ok.inj h
          split at hlength <;> cases hlength
      -- the first of the bytes is the widened opcode, which says how many follow
      | cons op more =>
        have hlength : (if op = Opcode.iinc then 5 else 3) = more.length + 1 := Except.ok.inj h
        refine .widened ?_
        split at hlength
        next hop => rw [if_pos hop, Nat.succ.inj hlength]
        next hop => rw [if_neg hop, Nat.succ.inj hlength]
    · intro h
      cases h with
      | @widened op more hmore =>
        show Except.ok _ = Except.ok _
        rw [List.length_cons, hmore]
        split <;> rfl
      | switch _ hhead => simpa using hhead.isSwitch.2
  | tableSwitch => exact switchBytes_eq_ok_iff readsHead_tableSwitchBytes (.inl rfl)
  | lookupSwitch => exact switchBytes_eq_ok_iff readsHead_lookupSwitchBytes (.inr rfl)
  | unknown =>
    constructor
    · intro h
      cases h
    · intro h
      cases h with
      | switch _ hhead => simpa using hhead.isSwitch.2

/-- No operands begin with others. -/
theorem Operands.eq_of_append {a b x y : List UInt8} (ha : Operands offset (operandShape opcode) a)
    (hb : Operands offset (operandShape opcode) b) (h : a ++ x = b ++ y) : a = b ∧ x = y := by
  have hlength : operandBytes offset opcode (a ++ x) = .ok a.length := operandBytes_eq_ok_iff.mpr ha
  rw [h, operandBytes_eq_ok_iff.mpr hb] at hlength
  exact List.append_inj h (Except.ok.inj hlength).symm

/-! ## 2. Rows of instructions -/

/-- The instructions stand one after another from `offset` on, without gap or overlap, and they are
all of the code. -/
inductive Tiles : (offset : Nat) → List UInt8 → List Instruction → Prop
  | done {offset : Nat} : Tiles offset [] []
  | cons {i : Instruction} {code : List UInt8} {is : List Instruction} :
    Operands i.offset (operandShape i.opcode) i.operands → Tiles (i.offset + i.length) code is →
    Tiles i.offset (i.opcode :: i.operands ++ code) (i :: is)

theorem walkFrom_cons {operands : List UInt8} (h : Operands offset (operandShape opcode) operands)
    (found : List Instruction) (rest : List UInt8) :
    walkFrom offset found (opcode :: (operands ++ rest)) =
      walkFrom (offset + 1 + operands.length) (⟨offset, opcode, operands⟩ :: found) rest := by
  have hsplit : splitExactly operands.length [] (operands ++ rest) = some (operands, rest) :=
    splitExactly_eq_some_iff.mpr ⟨operands, rfl, rfl, rfl⟩
  rw [walkFrom, operandBytes_eq_ok_iff.mpr h]
  dsimp only
  split
  next hnone => cases hnone.symm.trans hsplit
  next hsome =>
    cases hsome.symm.trans hsplit
    rfl

theorem Tiles.walkFrom (h : Tiles offset code is) (found : List Instruction) :
    walkFrom offset found code = .ok (found.reverse ++ is) := by
  induction h generalizing found with
  | done => rw [Code.walkFrom, List.append_nil]
  | @cons i code is hoperands _ ih =>
    rw [List.cons_append, walkFrom_cons hoperands, Nat.add_assoc]
    show Code.walkFrom (i.offset + i.length) (i :: found) code = _
    rw [ih, List.reverse_cons, List.append_assoc]
    rfl

theorem tiles_of_walkFrom {found all : List Instruction}
    (h : walkFrom offset found code = .ok all) :
    ∃ is, all = found.reverse ++ is ∧ Tiles offset code is := by
  fun_induction walkFrom offset found code with
  | case1 =>
    cases h
    exact ⟨[], (List.append_nil _).symm, .done⟩
  | case2 => cases h
  | case3 => cases h
  | case4 offset found opcode rest n hn operands rest' hsplit ih =>
    obtain ⟨is, rfl, his⟩ := ih h
    obtain ⟨operands, rfl, rfl, rfl⟩ := splitExactly_eq_some_iff.mp hsplit
    have hoperands := operandBytes_eq_ok_iff.mp hn
    refine ⟨⟨offset, opcode, operands⟩ :: is, by simp, ?_⟩
    rw [Nat.add_assoc] at his
    exact .cons (i := ⟨offset, opcode, operands⟩) hoperands his

/-- Splitting a code array succeeds if and only if it is a row of instructions, and then these are
found. -/
theorem walk_eq_ok_iff : walk code = .ok is ↔ Tiles 0 code is := by
  constructor
  · intro h
    obtain ⟨_, rfl, h⟩ := tiles_of_walkFrom h
    exact h
  · exact fun h => h.walkFrom []

/-! ## 3. Cuts -/

theorem Tiles.le_offset (h : Tiles offset code is) : ∀ i ∈ is, offset ≤ i.offset := by
  induction h with
  | done => exact nofun
  | cons _ _ ih =>
    exact List.forall_mem_cons.mpr ⟨Nat.le_refl _, fun j hj => Nat.le_of_add_right_le (ih j hj)⟩

theorem tiles_nil_iff : Tiles offset [] is ↔ is = [] := by
  constructor
  · intro h
    cases h
    rfl
  · rintro rfl
    exact .done

/-- The first instruction is determined by the code. -/
theorem tiles_cons_iff (h : Operands i.offset (operandShape i.opcode) i.operands) :
    Tiles i.offset (i.opcode :: i.operands ++ code) js ↔
    ∃ is, js = i :: is ∧ Tiles (i.offset + i.length) code is := by
  constructor
  · intro hjs
    generalize hoffset : i.offset = offset at hjs
    generalize hcode : i.opcode :: i.operands ++ code = all at hjs
    cases hjs with
    | done => cases hcode
    | @cons j rest is hj his =>
      obtain ⟨hopcode, hoperands⟩ := List.cons.inj hcode
      rw [← hopcode, ← hoffset] at hj
      obtain ⟨hoperands, rfl⟩ := h.eq_of_append hj hoperands
      obtain rfl : i = j := by
        cases i
        cases j
        simp_all
      exact ⟨is, rfl, his⟩
  · rintro ⟨is, rfl, his⟩
    exact .cons h his

/-- Within an instruction no row of instructions ends. -/
theorem Operands.not_tiles_take (h : Operands i.offset (operandShape i.opcode) i.operands)
    (hzero : n ≠ 0) (hn : n < i.length) :
    ¬Tiles i.offset ((i.opcode :: i.operands ++ code).take n) js := by
  obtain ⟨n, rfl⟩ := Nat.exists_eq_succ_of_ne_zero hzero
  intro hjs
  have hrest := List.take_append_drop n (i.operands ++ code)
  generalize hoffset : i.offset = offset at hjs
  generalize hcode : (i.opcode :: i.operands ++ code).take (n + 1) = cut at hjs
  cases hjs with
  | done => cases hcode
  | @cons j rest is hj his =>
    have hopcode : i.opcode = j.opcode := (List.cons.inj hcode).1
    have hoperands : (i.operands ++ code).take n = j.operands ++ rest := (List.cons.inj hcode).2
    rw [← hopcode, ← hoffset] at hj
    rw [hoperands, List.append_assoc] at hrest
    obtain ⟨hoperands', -⟩ := hj.eq_of_append h hrest
    have hlength := congrArg List.length hoperands
    rw [List.length_take, List.length_append, List.length_append, hoperands'] at hlength
    unfold Instruction.length at hn
    omega

/-- A code array that is cut off is a row of instructions if and only if the cut is between two
instructions, before the first one or after the last one. -/
theorem Tiles.take_iff (h : Tiles offset code is) (hn : n ≤ code.length) :
    Tiles offset (code.take n) js ↔
    ((∃ i ∈ is, i.offset = offset + n) ∨ n = code.length) ∧ js = is.filter
    (·.offset < offset + n) := by
  induction h generalizing n js with
  | done =>
    cases Nat.le_zero.mp hn
    rw [List.take_zero, tiles_nil_iff]
    simp
  | @cons i code is hoperands hrest ih =>
    have hafter := hrest.le_offset
    have hlength : (i.opcode :: i.operands ++ code).length = i.length + code.length := by
      simp [Instruction.length, Nat.add_assoc, Nat.add_comm]
    rw [hlength] at hn ⊢
    by_cases hzero : n = 0
    -- nothing is left
    · subst hzero
      have hnone : (i :: is).filter (·.offset < i.offset + 0) = [] := by
        rw [List.filter_eq_nil_iff]
        refine List.forall_mem_cons.mpr ⟨by simp, fun j hj => ?_⟩
        have hj := hafter j hj
        simp only [decide_eq_true_eq]
        omega
      rw [List.take_zero, tiles_nil_iff, hnone]
      simp
    by_cases hwithin : n < i.length
    -- the cut is within the first instruction
    · constructor
      · intro hjs
        exact absurd hjs (hoperands.not_tiles_take hzero hwithin)
      · rintro ⟨⟨j, hj, hoffset⟩ | hall, -⟩
        · obtain rfl | hj := List.mem_cons.mp hj
          · omega
          · have hj := hafter j hj
            omega
        · omega
    -- the first instruction is left, and the cut is behind it
    · obtain ⟨m, rfl⟩ := Nat.exists_eq_add_of_le (Nat.le_of_not_lt hwithin)
      have htake : (i.opcode :: i.operands ++ code).take (i.length + m) =
          i.opcode :: i.operands ++ code.take m := by
        rw [List.take_append, List.take_of_length_le (by simp [Instruction.length]; omega)]
        simp [Instruction.length, Nat.add_comm]
      have hfirst : i.offset ≠ i.offset + (i.length + m) := by omega
      have hmem : i.offset < i.offset + (i.length + m) := by omega
      rw [htake, tiles_cons_iff hoperands, List.filter_cons_of_pos (by simpa using hmem)]
      simp only [ih (Nat.le_of_add_le_add_left hn), List.mem_cons, exists_eq_or_imp, hfirst,
        false_or, Nat.add_assoc, Nat.add_left_cancel_iff]
      constructor
      · rintro ⟨_, rfl, hcut, rfl⟩
        exact ⟨hcut, rfl⟩
      · rintro ⟨hcut, rfl⟩
        exact ⟨_, rfl, hcut, rfl⟩

/-! ## 4. What instructions refer to -/

theorem operandShape_of_constantName? (h : (Opcode.constantName? opcode).isSome) :
    ∃ n, operandShape opcode = .fixed n ∧ (if opcode = Opcode.ldc then 1 else 2) ≤ n := by
  unfold Opcode.constantName? at h
  split at h
  all_goals first | exact ⟨_, rfl, by decide⟩ | cases h

theorem operandShape_of_isJump (h : Opcode.isJump opcode) : operandShape opcode = .fixed 2 := by
  have hall :
      ∀ n < 256, Opcode.isJump (UInt8.ofNat n) → operandShape (UInt8.ofNat n) = .fixed 2 := by
    decide +kernel
  have hopcode := hall opcode.toNat opcode.toNat_lt
  rw [UInt8.ofNat_toNat] at hopcode
  exact hopcode h

theorem operandShape_of_isWideJump (h : Opcode.isWideJump opcode) :
    operandShape opcode = .fixed 4 := by
  simp only [Opcode.isWideJump, Bool.or_eq_true, beq_iff_eq] at h
  obtain rfl | rfl := h <;> rfl

/-- Operands of a fixed size have this size. -/
theorem Operands.length_of_fixed (h : Operands offset (.fixed n) bytes) : bytes.length = n := by
  cases h with
  | fixed => rfl
  | switch _ hhead => simpa using hhead.isSwitch.2

/-- An instruction whose opcode refers to a constant has the index of one. -/
theorem Operands.isSome_constantOperand?
    (h : Operands i.offset (operandShape i.opcode) i.operands) :
    i.constantOperand?.isSome = (Opcode.constantName? i.opcode).isSome := by
  unfold Instruction.constantOperand?
  by_cases hname : (Opcode.constantName? i.opcode).isSome
  · obtain ⟨n, hshape, hle⟩ := operandShape_of_constantName? hname
    rw [hshape] at h
    have hlength := h.length_of_fixed
    rw [hname]
    split
    next hldc =>
      rw [if_pos hldc, ← hlength] at hle
      obtain ⟨b, more, hoperands⟩ := List.exists_cons_of_length_pos hle
      rw [hoperands]
      rfl
    next hldc =>
      rw [if_neg hldc, ← hlength] at hle
      match hoperands : i.operands with
      | _ :: _ :: _ => simp
      | [] | [_] => simp [hoperands] at hle
  · have hldc : i.opcode ≠ Opcode.ldc := fun hldc => hname (by rw [hldc]; rfl)
    rw [if_neg hldc, if_neg hname]
    simpa using hname

/-- An instruction whose opcode jumps has a target. -/
theorem Operands.isSome_branchTarget? (h : Operands i.offset (operandShape i.opcode) i.operands) :
    i.branchTarget?.isSome = (Opcode.isJump i.opcode || Opcode.isWideJump i.opcode) := by
  rw [Instruction.branchTarget?, Option.isSome_map]
  unfold Instruction.jumpDistance?
  cases hjump : Opcode.isJump i.opcode with
  | true =>
    rw [operandShape_of_isJump hjump] at h
    match hoperands : i.operands, h.length_of_fixed with
    | [_, _], _ => rfl
  | false =>
    cases hwide : Opcode.isWideJump i.opcode with
    | true =>
      rw [operandShape_of_isWideJump hwide] at h
      match hoperands : i.operands, h.length_of_fixed with
      | [_, _, _, _], _ => rfl
    | false => rfl

theorem Tiles.operands (h : Tiles offset code is) :
    ∀ i ∈ is, Operands i.offset (operandShape i.opcode) i.operands := by
  induction h with
  | done => exact nofun
  | cons hoperands _ ih => exact List.forall_mem_cons.mpr ⟨hoperands, ih⟩

/-- A code array that can be split is a row of instructions, and of no others.  None of them is
empty, and each has the constant and the target that its opcode asks for.  Cut off at any place the
code can be split if and only if the place is between two instructions, before the first one or
after the last one, and then into those before the cut. -/
theorem walk_tiles (h : walk code = .ok is) :
    (∀ js, Tiles 0 code js ↔ js = is) ∧
    (∀ i ∈ is, 1 ≤ i.length ∧ i.constantOperand?.isSome = (Opcode.constantName? i.opcode).isSome ∧
      i.branchTarget?.isSome = (Opcode.isJump i.opcode || Opcode.isWideJump i.opcode)) ∧
    ∀ k ≤ code.length, ∀ js, walk (code.take k) = .ok js ↔
      ((∃ i ∈ is, i.offset = k) ∨ k = code.length) ∧ js = is.filter (·.offset < k) := by
  have htiles := walk_eq_ok_iff.mp h
  refine ⟨fun js => ?_, fun i hi => ?_, fun k hk js => ?_⟩
  · rw [← walk_eq_ok_iff, h, Except.ok.injEq, eq_comm]
  · have hoperands := htiles.operands i hi
    exact ⟨Nat.le_add_right 1 _, hoperands.isSome_constantOperand?, hoperands.isSome_branchTarget?⟩
  · rw [walk_eq_ok_iff, htiles.take_iff hk, Nat.zero_add]

/-- A switch with one padding byte, a widened instruction and a jump back: the code cannot be cut
within the switch, but it can be cut behind it. -/
theorem walk_tiles_switch :
    let jump : List UInt8 := [0xa7, 0xff, 0xfa]
    let wide : List UInt8 := [0xc4, 0x84, 0, 1, 0xff, 0xff]
    let table : List UInt8 :=
      [0, 0, 0, 22, 0xff, 0xff, 0xff, 0xff, 0, 0, 0, 0, 0, 0, 0, 22, 0, 0, 0, 28]
    let code : List UInt8 := 0x03 :: 0x57 :: 0xaa :: 0 :: table ++ wide ++ jump
    let is : List Instruction :=
      [⟨0, 0x03, []⟩, ⟨1, 0x57, []⟩, ⟨2, 0xaa, 0 :: table⟩, ⟨24, 0xc4, wide.tail⟩,
        ⟨30, 0xa7, jump.tail⟩]
    walk code = .ok is ∧ walk (code.take 24) = .ok (is.take 3) ∧
      ∀ js, walk (code.take 14) ≠ .ok js := by
  intro jump wide table code is
  have h : walk code = .ok is := by
    decide +kernel
  obtain ⟨-, -, hcut⟩ := walk_tiles h
  refine ⟨h, (hcut 24 (by decide) _).mpr
    ⟨.inl ⟨⟨24, 0xc4, wide.tail⟩, by simp [is], rfl⟩, by decide⟩, fun js hjs => ?_⟩
  · obtain ⟨⟨i, hi, hoffset⟩ | hall, -⟩ := (hcut 14 (by decide) js).mp hjs
    · revert i
      decide
    · exact absurd hall (by decide)

end MethodGraft.Code
