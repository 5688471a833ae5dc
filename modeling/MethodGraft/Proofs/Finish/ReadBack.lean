import MethodGraft.Proofs.Assembly.Calls
import MethodGraft.Proofs.ClassFile.Edits
import MethodGraft.Proofs.Finish.Table

/-!
# Proofs.Finish.ReadBack — what is read back from a finished body

Whatever calls have made a body: if it can be finished, its code splits into the operations, jumps
and handlers lead to instructions, and the stack map has a frame for each position that one of them
leads to, and for no other.
-/

namespace MethodGraft.Code

open ClassFile Verify Machine

/-! ## 1. Jumps -/

/-- An operation that names no label is not read as a jump. -/
theorem Operation.branchTarget?_of_straight {op : Operation} (hrange : op.InRange)
    (h : op.target? = none) (offset : Nat) (d : Int16) :
    (op.instruction offset d).branchTarget? = none := by
  cases op with
  | branch test l => cases h
  | goto l => cases h
  | iconst v =>
    rcases iconst_cases (hrange v rfl) with rfl | rfl | rfl | rfl | rfl | rfl | rfl <;> rfl
  | load k slot | store k slot =>
    unfold Operation.instruction
    simp only [Operation.encode, Operation.localBytes]
    cases k <;> split <;> rfl
  | invoke kind => cases kind <;> rfl
  | convert c => cases c <;> rfl
  | ret k => rcases k with _ | (_ | _ | _ | _ | _) <;> rfl
  | _ => rfl

/-- A jump is read as a jump over the distance that was written. -/
theorem Operation.branchTarget?_of_target {op : Operation} {l : Label} (h : op.target? = some l)
    (offset : Nat) (d : Int16) :
    (op.instruction offset d).branchTarget? = some (offset + d.toInt) := by
  have hjump {opcode : UInt8} (hopcode : Opcode.isJump opcode = true) :
      Instruction.branchTarget? ⟨offset, opcode, be16 d.toUInt16⟩ = some (offset + d.toInt) := by
    unfold Instruction.branchTarget? Instruction.jumpDistance?
    rw [if_pos hopcode]
    show some
      ((offset : Int) + (ofBe16 (d.toUInt16 >>> 8).toUInt8 d.toUInt16.toUInt8).toInt16.toInt) = _
    rw [ofBe16_be16, Int16.toInt16_toUInt16]
  cases op with
  | goto => exact hjump rfl
  | branch test =>
    refine hjump ?_
    rcases test with (_ | _ | _ | _ | _ | _) | (_ | _ | _ | _ | _ | _) | (_ | _) | (_ | _) <;> rfl
  | _ => cases h

namespace Assembler

variable {a : Assembler} {offset p : Nat} {op : Operation} {ops : List Operation}
    {is : List Instruction} {l : Label}

/-- The instruction is the operation.  If this is a jump, the instruction leads to where its label
was placed. -/
structure ReadAs (a : Assembler) (op : Operation) (i : Instruction) : Prop where
  bytes : ∃ d, op.encode d = i.opcode :: i.operands
  straight : op.target? = none → i.branchTarget? = none
  jump :
    ∀ l, op.target? = some l →
    ∃ p : Nat, (a.labelState l).position = some p ∧ i.branchTarget? = some (p : Int)

theorem readAs_instruction (hrange : op.InRange) {d : Int16} (hcovered : a.Covered offset op d) :
    a.ReadAs op (op.instruction offset d) where
  bytes := by
    obtain ⟨opcode, operands, hbytes, -⟩ := operandBytes_encode hrange d
    refine ⟨d, ?_⟩
    rw [Operation.instruction, hbytes]
    rfl
  straight h := Operation.branchTarget?_of_straight hrange h offset d
  jump l h := by
    obtain ⟨p, hp, hd⟩ := hcovered l h
    exact ⟨p, hp, by rw [Operation.branchTarget?_of_target h, hd]⟩

theorem Split.readAs (h : a.Split offset ops is) (hops : ∀ op ∈ ops, op.InRange) :
    List.Forall₂ a.ReadAs ops is := by
  induction h with
  | nil => exact .nil
  | cons d covered rest ih =>
    exact .cons (readAs_instruction (hops _ List.mem_cons_self) covered)
      (ih fun op hop => hops op (List.mem_cons_of_mem _ hop))

/-! ## 2. Positions -/

def Begins (is : List Instruction) (p : Nat) : Prop := ∃ i ∈ is, i.offset = p

theorem Encoded.length {bytes : List UInt8} (h : a.Encoded offset ops bytes) :
    bytes.length = (ops.map Operation.size).sum := by
  induction h with
  | nil => rfl
  | @cons offset op ops bytes d covered rest ih =>
    rw [List.length_append, op.length_encode, ih, List.map_cons, List.sum_cons]

theorem Split.begins {before after : List Operation}
    (h : a.Split offset (before ++ op :: after) is) :
    Begins is (offset + (before.map Operation.size).sum) := by
  induction before generalizing offset is with
  | nil =>
    cases h with
    | cons d => exact ⟨op.instruction offset d, List.mem_cons_self, rfl⟩
  | cons op' before ih =>
    cases h with
    | cons d covered rest =>
      obtain ⟨i, hi, hoffset⟩ := ih rest
      refine ⟨i, List.mem_cons_of_mem _ hi, ?_⟩
      rw [hoffset, List.map_cons, List.sum_cons, Nat.add_assoc]

/-- A boundary before the end of the code is where an instruction begins. -/
theorem Consistent.begins (ha : a.Consistent) (h : a.Split 0 a.operations.toList is)
    (hp : a.Boundary p) (hinside : p < a.offset) : Begins is p := by
  obtain ⟨before, after, hops, rfl⟩ := hp
  cases after with
  | nil =>
    rw [ha.offset, hops, List.append_nil] at hinside
    exact absurd hinside (Nat.lt_irrefl _)
  | cons op after =>
    rw [hops] at h
    have hbegins := h.begins
    rwa [Nat.zero_add] at hbegins

theorem Consistent.position_le (ha : a.Consistent) (hp : (a.labelState l).position = some p) :
    p ≤ a.offset := by
  obtain ⟨before, after, hops, rfl⟩ := ha.placed l p hp
  rw [ha.offset, hops, List.map_append, List.sum_append]
  exact Nat.le_add_right _ _

/-! ## 3. Handlers -/

theorem toNat_placed (ha : a.Consistent) (hsize : a.offset ≤ 65535)
    (hp : (a.labelState l).position = some p) :
    (UInt16.ofNat p).toNat = p := toNat_ofNat (Nat.le_trans (ha.position_le hp) hsize)

/-- An entry of the exception table has the positions of its labels, and its range is not empty. -/
theorem handlerEntry_eq_ok (ha : a.Consistent) (hsize : a.offset ≤ 65535) {r : HandlerRange}
    {e : ExceptionHandler} (h : a.handlerEntry r = .ok e) :
    a.Located r e ∧ e.startPc < e.endPc := by
  obtain ⟨p, hp, h⟩ := bind_eq_ok_iff.mp h
  obtain ⟨q, hq, h⟩ := bind_eq_ok_iff.mp h
  rw [position_eq_ok_iff] at hp hq
  dsimp only at h
  split at h
  next => cases h
  next hnonempty =>
    obtain ⟨t, ht, h⟩ := bind_eq_ok_iff.mp h
    rw [position_eq_ok_iff] at ht
    cases h
    refine ⟨⟨?_, ?_, ?_, rfl⟩, UInt16.not_le.mp hnonempty⟩
    · rw [hp, toNat_placed ha hsize hp]
    · rw [hq, toNat_placed ha hsize hq]
    · rw [ht, toNat_placed ha hsize ht]

/-! ## 4. Frames -/

theorem ensures_encodeTypes (ts : List VerificationType) :
    Ensures (encodeTypes ts) fun _ => ts.length ≤ 65535 :=
  (Ensures.ofMk fun _ h => (encodeCount_eq_ok_iff.mp h).1).bind fun _ h => .after fun _ => .ofPure h

/-- Frames that are written are small enough for that. -/
theorem ensures_encodeFrames (fs : List (Nat × Frame)) (previous : Option Nat) :
    Ensures (encodeFrames previous fs) fun _ =>
      ∀ e ∈ fs, (localEntries e.2.locals.toList).length ≤ 65535 ∧ e.2.stack.length ≤ 65535 := by
  induction fs generalizing previous with
  | nil => exact .ofPure nofun
  | cons e fs ih =>
    have hframe : Ensures (encodeFrame previous e.1 e.2) fun _ =>
        (localEntries e.2.locals.toList).length ≤ 65535 ∧ e.2.stack.length ≤ 65535 :=
      (ensures_encodeTypes _).bind fun _ hlocals => (ensures_encodeTypes _).bind fun _ hstack =>
        .ofPure ⟨hlocals, by rwa [List.length_reverse] at hstack⟩
    exact hframe.bind fun _ he =>
      (ih (some e.1)).bind fun _ hfs => .ofPure (List.forall_mem_cons.mpr ⟨he, hfs⟩)

theorem ensures_stackMap (fs : List (Nat × Frame)) : Ensures (stackMap fs) fun _ =>
    ∀ e ∈ fs, (localEntries e.2.locals.toList).length ≤ 65535 ∧ e.2.stack.length ≤ 65535 := by
  unfold stackMap
  cases fs with
  | nil => exact .ofPure nofun
  | cons e fs =>
    exact .after fun _ => (ensures_encodeFrames (e :: fs) none).bind
      fun _ h => .after fun _ => .ofPure h

/-- A stack whose entries all hold a value has a kind for each. -/
theorem filled_of_full {f : Frame} (h : Full f.stack) : f.Filled := by
  have hkind : ∀ t ∈ f.stack, t.kind? = some (t.kind?.getD .int) := by
    intro t ht
    cases t with
    | top => exact absurd rfl (h _ ht)
    | _ => rfl
  refine ⟨f.stack.map fun t => t.kind?.getD .int, ?_⟩
  rw [List.map_map]
  exact List.map_congr_left hkind

/-- There is a frame where a label is placed that a jump or a handler leads to, and nowhere else. -/
theorem Consistent.framed_iff (ha : a.Consistent) {fs : List (Nat × Frame)} (hfs : a.FramesOf fs) :
    p ∈ fs.map Prod.fst ↔ ∃ l, a.LeadsTo l ∧ (a.labelState l).position = some p := by
  constructor
  · intro hp
    obtain ⟨⟨p, f⟩, he, rfl⟩ := List.mem_map.mp hp
    obtain ⟨l, htargeted, hposition, -⟩ := mem_entries (hfs.mem _ he)
    exact ⟨l, (ha.targeted l).mp htargeted, hposition⟩
  · rintro ⟨l, hl, hposition⟩
    have htargeted := (ha.targeted l).mpr hl
    obtain ⟨f, hf⟩ := Option.isSome_iff_exists.mp (ha.framed l htargeted)
    have hsettles : a.Settles l p f := ⟨htargeted, hposition, hf⟩
    obtain ⟨-, g, -, -, hentry⟩ := hsettles.entryAt
    exact List.mem_map.mpr ⟨(p, g), List.mem_of_find?_eq_some (hfs.entryAt p ▸ hentry), rfl⟩

/-! ## 5. The attribute -/

/-- A jump or a handler leads to the position. -/
def Reached (is : List Instruction) (handlers : List ExceptionHandler) (p : Nat) : Prop :=
  (∃ i ∈ is, i.branchTarget? = some (p : Int)) ∨ ∃ e ∈ handlers, e.handlerPc.toNat = p

/-- What is read back from a Code attribute that was made of the body `a`. -/
structure ReadBack (a : Assembler) (majorVersion : UInt16) (pool : ConstantPool) (c : CodeAttribute)
    (is : List Instruction) : Prop where
  walk : Code.walk c.code = .ok is
  instructions : List.Forall₂ a.ReadAs a.operations.toList is
  jumps : ∀ i ∈ is, ∀ t, i.branchTarget? = some t → ∃ j ∈ is, t = j.offset
  handlers : List.Forall₂ a.Located a.handlers.toList c.handlers
  ranges : ∀ e ∈ c.handlers, e.startPc < e.endPc ∧ Begins is e.startPc.toNat ∧
    Begins is e.handlerPc.toNat ∧ (Begins is e.endPc.toNat ∨ e.endPc.toNat = c.code.length)
  stackMap : stackMapVersion ≤ majorVersion → ∃ table, stackMap? pool c.attributes = some table ∧
    table.Pairwise (fun f g => f.1 < g.1) ∧ ∀ p, p ∈ table.map Prod.fst ↔ Reached is c.handlers p
  unmapped : majorVersion < stackMapVersion → c.attributes = []

/-- Jumps and handlers lead to the positions of the labels that they name. -/
theorem reached_iff {handlers : List ExceptionHandler}
    (his : List.Forall₂ a.ReadAs a.operations.toList is)
    (hhandlers : List.Forall₂ a.Located a.handlers.toList handlers) :
    Reached is handlers p ↔ ∃ l, a.LeadsTo l ∧ (a.labelState l).position = some p := by
  constructor
  · rintro (⟨i, hi, hp⟩ | ⟨e, he, rfl⟩)
    · obtain ⟨op, hop, hread⟩ := forall₂_mem_left his.flip i hi
      cases htarget : op.target? with
      | none =>
        rw [hread.straight htarget] at hp
        cases hp
      | some l =>
        obtain ⟨q, hq, hi⟩ := hread.jump l htarget
        rw [hi] at hp
        obtain rfl : q = p := Int.ofNat_inj.mp (Option.some.inj hp)
        exact ⟨l, .inl ⟨op, hop, htarget⟩, hq⟩
    -- each handler is one of those that were added, and stands where its label is placed
    · obtain ⟨r, hr, hlocated⟩ := forall₂_mem_left hhandlers.flip e he
      exact ⟨r.handler, .inr ⟨r, hr, rfl⟩, hlocated.handler⟩
  · rintro ⟨l, ⟨op, hop, htarget⟩ | ⟨r, hr, rfl⟩, hp⟩
    · obtain ⟨i, hi, hread⟩ := forall₂_mem_left his op hop
      obtain ⟨q, hq, hiq⟩ := hread.jump l htarget
      rw [hq] at hp
      cases hp
      exact .inl ⟨i, hi, hiq⟩
    · obtain ⟨e, he, hlocated⟩ := forall₂_mem_left hhandlers r hr
      refine .inr ⟨e, he, ?_⟩
      rw [hlocated.handler] at hp
      exact Option.some.inj hp

/-- The frames of a body can be written if they were. -/
theorem Consistent.stackMap (ha : a.Consistent) {fs : List (Nat × Frame)} (hfs : a.FramesOf fs)
    (hsize : a.offset ≤ 65535) {pool r : ConstantPool} (hpool : pool.WellFormed)
    {attributes : List Attribute} (hrun : (Code.stackMap fs).run.run pool = (.ok attributes, r))
    {q : ConstantPool} (hq : r ≤ q) : stackMap? q attributes = some (tableOf fs) := by
  have hsmall := ensures_stackMap fs pool attributes r hrun
  have hwritable : Writable fs :=
    ⟨hfs.sorted,
      fun e he => ⟨Nat.le_of_lt (Nat.lt_of_lt_of_le (hfs.inside e he) hsize), hsmall e he⟩⟩
  obtain ⟨-, -, hread⟩ :=
    (meets_stackMap hpool hwritable (Nat.le_trans hfs.length_le hsize)).of_ok hrun
  refine (hread q hq).2 fun e he => ?_
  obtain ⟨p, f⟩ := e
  obtain ⟨l, -, -, hf⟩ := mem_entries (hfs.mem _ he)
  exact filled_of_full (ha.frames l f hf)

/-- A body that is completed is read back. -/
theorem Consistent.readBack (ha : a.Consistent) (hpool : a.pool.WellFormed) {majorVersion : UInt16}
    {c : CodeAttribute} {q : ConstantPool}
    (h : (a.layout majorVersion).run.run a.pool = (.ok c, q)) :
    ∃ is, a.ReadBack majorVersion q c is := by
  obtain ⟨fs, r, -, hsize, hcode, hhandlers, hframes, hattributes, hname⟩ := layout_eq_ok h
  obtain ⟨bytes, hbytes, hencoded⟩ := codeFrom_eq_ok hcode
  obtain rfl : c.code = bytes := hbytes
  obtain ⟨is, hwalk, hsplit⟩ := hencoded.walk ha.inRange
  have hlength : c.code.length = a.offset := by rw [hencoded.length, ha.offset]
  have hfs := framesOf_frames hframes
  have his := hsplit.readAs ha.inRange
  have hentries := (mapM_eq_ok_iff.mp hhandlers).imp fun _ _ he => handlerEntry_eq_ok ha hsize he
  have hlocated := hentries.imp fun _ _ he => he.1
  have hbegins {l : Label} {p : Nat} (hp : (a.labelState l).position = some p)
      (hlt : p < a.offset) : Begins is p :=
    ha.begins hsplit (ha.placed l p hp) hlt
  -- where a jump or a handler leads there is a frame, and no frame stands at the end of the code
  have hreached (p : Nat) : p ∈ fs.map Prod.fst ↔ Reached is c.handlers p :=
    (ha.framed_iff hfs).trans (reached_iff his hlocated).symm
  have hinside {p : Nat} (hp : Reached is c.handlers p) : Begins is p := by
    obtain ⟨e, he, rfl⟩ := List.mem_map.mp ((hreached p).mpr hp)
    obtain ⟨l, -, hposition⟩ := (reached_iff his hlocated).mp hp
    exact hbegins hposition (hfs.inside e he)
  refine ⟨is, hwalk, his, ?_, hlocated, ?_, ?_, ?_⟩
  · intro i hi t ht
    obtain ⟨op, -, hread⟩ := forall₂_mem_left his.flip i hi
    cases htarget : op.target? with
    | none =>
      rw [hread.straight htarget] at ht
      cases ht
    | some l =>
      obtain ⟨p, -, hp⟩ := hread.jump l htarget
      obtain rfl : (p : Int) = t := Option.some.inj (hp.symm.trans ht)
      obtain ⟨j, hj, rfl⟩ := hinside (.inl ⟨i, hi, hp⟩)
      exact ⟨j, hj, rfl⟩
  · intro e he
    obtain ⟨r, -, hr, hlt⟩ := forall₂_mem_left hentries.flip e he
    have hstop := ha.position_le hr.stop
    have hstart := UInt16.lt_iff_toNat_lt.mp hlt
    refine ⟨hlt, hbegins hr.start (by omega), hinside (.inr ⟨e, he, rfl⟩), ?_⟩
    rw [hlength]
    exact (Nat.lt_or_eq_of_le hstop).imp_left (hbegins hr.stop)
  · intro hnew
    rw [if_pos hnew] at hattributes
    have hle : r ≤ q := by
      have hle := (asks_utf8 "Code").le r
      rwa [hname] at hle
    refine ⟨tableOf fs, ha.stackMap hfs hsize hpool hattributes hle,
      List.pairwise_map.mpr hfs.sorted, fun p => ?_⟩
    rw [tableOf, List.map_map]
    exact hreached p
  · intro hold
    rw [if_neg (UInt16.not_le.mpr hold)] at hattributes
    exact (Except.ok.inj (Prod.mk.inj hattributes).1).symm

end Assembler

/-! ## 6. Calls -/

namespace Assembly

open Assembler

/-- A body that any calls made and that could be completed is read back as it was made. -/
theorem finish_readBack {pool : ConstantPool} (hpool : pool.WellFormed) {receiver : Option String}
    {params : List FieldType} {calls : List Call} (hcalls : Named 0 calls) {majorVersion : UInt16}
    {c : CodeAttribute} {b : Assembler}
    (h : (do runAll calls; finish majorVersion).run.run (start pool receiver params) = (.ok c, b)) :
    ∃ a is, (runAll calls).run.run (start pool receiver params) = (.ok ⟨⟩, a) ∧
      a.ReadBack majorVersion b.pool c is := by
  obtain ⟨_, a, hrun, hfinish⟩ := run_bind_eq_ok.mp h
  have ha := consistent_runAll (consistent_start pool receiver params) hcalls hrun
  have hwellFormed := (requests_runAll calls).wellFormed (s := start pool receiver params) hpool
  rw [hrun] at hwellFormed
  obtain ⟨is, his⟩ := ha.readBack hwellFormed (run_finish hfinish)
  exact ⟨a, is, hrun, his⟩

def joiningCalls : List Call :=
  [.newLabel, .newLabel, .newLabel, .place ⟨0⟩, .aconstNull, .checkcast "java/lang/Throwable",
    .place ⟨1⟩, .addHandler ⟨0⟩ ⟨1⟩ ⟨2⟩ none, .goto ⟨2⟩, .place ⟨2⟩, .popValue, .returnValue none]

theorem finish_readBack_joining : Named 0 joiningCalls ∧ ∃ c a b is,
    (do runAll joiningCalls; finish 52).run.run (start .empty none []) = (.ok c, b) ∧
      ReadBack a 52 b.pool c is ∧ c.code = [1, 192, 0, 2, 167, 0, 3, 87, 177] ∧
        c.handlers = [⟨0, 4, 7, 0⟩] := by
  have hnamed : Named 0 joiningCalls := by decide
  have h : (match ((do runAll joiningCalls; finish 52).run.run (start .empty none [])).1 with
      | .ok c => decide (c.code = [1, 192, 0, 2, 167, 0, 3, 87, 177] ∧ c.handlers = [⟨0, 4, 7, 0⟩])
      | .error _ => false) = true := by decide +kernel
  generalize hrun : (do runAll joiningCalls; finish 52).run.run (start .empty none []) = out at h
  obtain ⟨result, b⟩ := out
  cases result with
  | error e => cases h
  | ok c =>
    obtain ⟨hcode, hhandlers⟩ := of_decide_eq_true h
    obtain ⟨a, is, -, his⟩ := finish_readBack ConstantPool.wellFormed_empty hnamed hrun
    exact ⟨hnamed, c, a, b, is, rfl, his, hcode, hhandlers⟩

end Assembly

end MethodGraft.Code
