import MethodGraft.Proofs.Assembly.Widths

/-!
# Proofs.Assembly.Outcomes — what a call leaves behind

A call that succeeds adds an instruction that control passes through, or a return, or a jump with
the frame that it brings to its label, or it places a label, opens a handler range or does none of
this.  Each case says all that it changes.
-/

namespace MethodGraft.Code

open ClassFile Assembly Interning Verify

namespace Assembler

variable {q : ConstantPool} {a b c : Assembler} {op : Operation} {t : VerificationType}

/-! ## 1. Constants -/

theorem crosses_constant {index : UInt16} (ht : t.slots = 1) (ha : a.Draws b [] 0 [])
    (h : (do loadConstant index; Assembly.push t : Assembly Unit).run.run b = (.ok ⟨⟩, c)) :
    a.Crosses q c := by
  unfold loadConstant at h
  refine crosses_pushing ha ?_ ?_ h
  · split <;> exact ⟨rfl, rfl, rfl⟩
  · rw [ht]
    split <;> rfl

theorem crosses_iconst {value : Int32} (ha : a.Counted)
    (h : (iconst value).run.run a = (.ok ⟨⟩, b)) : a.Crosses q b := by
  unfold iconst at h
  split at h
  next => exact crosses_pushing (.refl ha) ⟨rfl, rfl, rfl⟩ rfl h
  next =>
    split at h
    next => exact crosses_pushing (.refl ha) ⟨rfl, rfl, rfl⟩ rfl h
    next =>
      split at h
      next => exact crosses_pushing (.refl ha) ⟨rfl, rfl, rfl⟩ rfl h
      next =>
        obtain ⟨index, d, hintern, h⟩ := run_bind_eq_ok.mp h
        exact crosses_constant rfl ((Draws.refl ha).intern (asks_request (.integer value)) hintern)
          h

theorem crosses_lconst {value : Int64} (ha : a.Counted)
    (h : (lconst value).run.run a = (.ok ⟨⟩, b)) : a.Crosses q b := by
  unfold lconst at h
  split at h
  next => exact crosses_pushing (.refl ha) ⟨rfl, rfl, rfl⟩ rfl h
  next =>
    split at h
    next => exact crosses_pushing (.refl ha) ⟨rfl, rfl, rfl⟩ rfl h
    next =>
      obtain ⟨index, d, hintern, h⟩ := run_bind_eq_ok.mp h
      exact crosses_pushing ((Draws.refl ha).intern (asks_request (.long value)) hintern)
        ⟨rfl, rfl, rfl⟩ rfl h

theorem crosses_ldc {r : Request} (ht : t.slots = 1) (ha : a.Counted)
    (h : (do loadConstant (← Assembly.intern r.intern); Assembly.push t : Assembly Unit).run.run a =
      (.ok ⟨⟩, b)) :
    a.Crosses q b := by
  obtain ⟨index, d, hintern, h⟩ := run_bind_eq_ok.mp h
  exact crosses_constant ht ((Draws.refl ha).intern (asks_request r) hintern) h

/-! ## 2. Members and objects -/

/-- What is asked of the pool is what the index means from then on. -/
theorem means_of_run (ha : a.Counted) (hpool : a.pool.WellFormed) {r : Request} {index : UInt16}
    (h : (Assembly.intern r.intern).run.run a = (.ok index, b)) :
    a.Draws b [] 0 [] ∧ ∀ q, b.pool ≤ q → r.Means q index := by
  refine ⟨(Draws.refl ha).intern (asks_request r) h, fun q hq => ?_⟩
  obtain ⟨pool, hrun, rfl⟩ := run_intern_eq_ok h
  exact ((r.meets hpool).of_ok hrun).2.2.mono hq

theorem field?_of_means {owner name : String} {type : FieldType} (htype : type.Readable)
    {index : UInt16} (h : (Request.fieldRef owner name type.descriptor).Means q index) :
    q.field? index = some ⟨owner, name, type⟩ :=
  ConstantPool.field?_eq_some_iff.mpr ⟨h.1, _, h.2, rfl, rfl, htype⟩

theorem methodType?_of_means {owner name : String} {type : MethodDescriptor} {onInterface : Bool}
    (htype : type.Readable) {index : UInt16}
    (h : (Request.methodRef owner name type.descriptor onInterface).Means q index) :
    methodType? q index = some type :=
  Option.bind_eq_some_iff.mpr ⟨_, ConstantPool.toOption_eq_some_iff.mpr h.2, htype⟩

theorem crosses_getField {owner name : String} {type : FieldType} (ha : a.Counted)
    (hpool : a.pool.WellFormed) (hq : b.pool ≤ q) (hfits : [1] <+: widthsOf a.stack)
    (htype : type.Readable) (h : (getField owner name type).run.run a = (.ok ⟨⟩, b)) :
    a.Crosses q b := by
  obtain ⟨index, d, hintern, h⟩ := run_bind_eq_ok.mp h
  obtain ⟨hd, hmeans⟩ := means_of_run (r := .fieldRef owner name type.descriptor) ha hpool hintern
  have hfield :=
    field?_of_means htype (hmeans q ((pool_le_of_requests (requests_replace _ _) h).trans hq))
  refine crosses_replacing hd ⟨rfl, rfl, rfl⟩ hfits ?_ h
  rw [Operation.slots?, hfield, VerificationType.slots_ofType]
  rfl

theorem crosses_getStatic {owner name : String} {type : FieldType} (ha : a.Counted)
    (hpool : a.pool.WellFormed) (hq : b.pool ≤ q) (htype : type.Readable)
    (h : (getStatic owner name type).run.run a = (.ok ⟨⟩, b)) : a.Crosses q b := by
  obtain ⟨index, d, hintern, h⟩ := run_bind_eq_ok.mp h
  obtain ⟨hd, hmeans⟩ := means_of_run (r := .fieldRef owner name type.descriptor) ha hpool hintern
  have hrest : Requests (do Assembly.emit (.getStatic index); Assembly.push (.ofType type)) :=
    (requests_emit _).bind fun _ => requests_push _
  have hfield := field?_of_means htype (hmeans q ((pool_le_of_requests hrest h).trans hq))
  refine crosses_pushing hd ⟨rfl, rfl, rfl⟩ ?_ h
  rw [Operation.slots?, hfield, VerificationType.slots_ofType]
  rfl

/-- An instruction on a reference that names a class. -/
theorem crosses_classed {name : String} (ha : a.Counted) (hfits : [1] <+: widthsOf a.stack)
    (ht : t.slots = 1) {f : UInt16 → Operation}
    (hf : ∀ i, (f i).Plain ∧ (f i).slots? q = some (1, 1))
    (h : (do
      Assembly.emit (f (← Assembly.intern (classRef name))); let _ ← Assembly.pop; Assembly.push t :
      Assembly Unit).run.run a = (.ok ⟨⟩, b)) : a.Crosses q b := by
  obtain ⟨index, d, hintern, h⟩ := run_bind_eq_ok.mp h
  refine crosses_replacing ((Draws.refl ha).intern (asks_classRef name) hintern) (hf index).1 hfits
    ?_ h
  rw [(hf index).2, ht]

theorem crosses_newObject {name : String} (ha : a.Counted)
    (h : (newObject name).run.run a = (.ok ⟨⟩, b)) : a.Crosses q b := by
  unfold newObject at h
  obtain ⟨index, d, hintern, h⟩ := run_bind_eq_ok.mp h
  rw [run_get_bind] at h
  exact crosses_pushing ((Draws.refl ha).intern (asks_classRef name) hintern) ⟨rfl, rfl, rfl⟩ rfl h

/-- The result of a call, if there is one, is put on the stack. -/
theorem draws_answer {ops : List Operation} {n : Nat} {ret : Option FieldType}
    (hb : a.Draws b ops n []) (h : (match ret with
      | some t => Assembly.push (.ofType t)
      | none => return : Assembly Unit).run.run b = (.ok ⟨⟩, c)) :
    a.Draws c ops n (ret.toList.map FieldType.slots) := by
  cases ret with
  | none =>
    cases h
    exact hb
  | some t =>
    have hc := hb.push h
    rwa [VerificationType.slots_ofType] at hc

/-- What is left of a call once its constant is known. -/
theorem draws_invoking {kind : InvokeKind} {owner name : String} {type : MethodDescriptor}
    {onInterface : Bool} (ha : a.Counted)
    (h : (invoke kind owner name type onInterface).run.run a = (.ok ⟨⟩, b)) :
    ∃ index slots d, (Assembly.intern (Interning.methodRef owner name type.descriptor
        (onInterface || kind = .interface))).run.run a = (.ok index, d) ∧
      d.Draws b [.invoke kind index slots] (operandSlots kind type).length
        (type.ret.toList.map FieldType.slots) := by
  unfold invoke at h
  obtain ⟨index, d, hintern, h⟩ := run_bind_eq_ok.mp h
  have hd : d.Counted := ((Draws.refl ha).intern (asks_request (.methodRef ..)) hintern).counted
  obtain ⟨-, h⟩ := run_refusing_eq_ok h
  obtain ⟨_, e, hemit, h⟩ := run_bind_eq_ok.mp h
  obtain ⟨_, f, hpops, h⟩ := run_bind_eq_ok.mp h
  have hf := ((Draws.refl hd).emit hemit).popMany hpops
  refine ⟨index, (type.paramSlots + 1).toUInt8, d, hintern, ?_⟩
  -- a slot for each argument and, unless the method is static, for the receiver
  have hlength : (operandSlots kind type).length = 0 + type.params.length + if kind = .static then 0
      else 1 := by
    unfold operandSlots
    split <;> simp
  rw [hlength]
  extract_lets answer at h
  split at h
  next hkind =>
    rw [if_neg hkind]
    obtain ⟨receiver, g, hpop, h⟩ := run_bind_eq_ok.mp h
    -- what takes the place of an uninitialized receiver is as wide
    have hg := (hf.pop hpop).1
    split at h
    next hmark =>
      obtain ⟨_, k, hmarked, h⟩ := run_bind_eq_ok.mp h
      exact draws_answer (hg.mark hmark.2 hmarked) h
    next => exact draws_answer hg h
  next hkind =>
    rw [if_pos (not_not.mp hkind)]
    exact draws_answer hf h

theorem crosses_invoke {kind : InvokeKind} {owner name : String} {type : MethodDescriptor}
    {onInterface : Bool} (ha : a.Counted) (hpool : a.pool.WellFormed) (hq : b.pool ≤ q)
    (hfits : operandSlots kind type <+: widthsOf a.stack)
    (htype : type.Readable)
    (h : (invoke kind owner name type onInterface).run.run a = (.ok ⟨⟩, b)) : a.Crosses q b := by
  obtain ⟨index, slots, d, hintern, hb⟩ := draws_invoking ha h
  obtain ⟨hd, hmeans⟩ := means_of_run (r := .methodRef ..) ha hpool hintern
  have hmethod := methodType?_of_means htype (hmeans q (hb.pool.trans hq))
  refine crosses_of_plain (operandSlots kind type) ⟨rfl, rfl, rfl⟩ (hd.followed hb) hfits ?_
  rw [Operation.slots?, hmethod]
  rfl

/-! ## 3. The stack -/

theorem prefix_singleton {ws : List Nat} {w : Nat} (h : ws[0]? = some w) : [w] <+: ws := by
  cases ws with
  | nil => cases h
  | cons w ws =>
    cases h
    exact ⟨ws, rfl⟩

theorem prefix_pair {ws : List Nat} {w w' : Nat} (h : ws[0]? = some w) (h' : ws[1]? = some w') :
    [w, w'] <+: ws := by
  cases ws with
  | nil => cases h
  | cons w ws =>
    cases h
    exact (List.prefix_cons_inj _).mpr (prefix_singleton h')

theorem crosses_dup (ha : a.Counted) (h : dup.run.run a = (.ok ⟨⟩, b)) : a.Crosses q b := by
  obtain ⟨_, d, hemit, h⟩ := run_bind_eq_ok.mp h
  obtain ⟨t, e, hpop, h⟩ := run_bind_eq_ok.mp h
  obtain ⟨hnarrow, h⟩ := run_refusing_eq_ok h
  obtain ⟨_, f, hpush, h⟩ := run_bind_eq_ok.mp h
  obtain ⟨he, htop⟩ := ((Draws.refl ha).emit hemit).pop hpop
  have ht : t.slots = 1 := if_neg hnarrow
  rw [ht] at htop
  have hb := (he.push hpush).push h
  rw [ht] at hb
  exact crosses_of_plain [1] ⟨rfl, rfl, rfl⟩ hb (prefix_singleton htop) rfl

theorem crosses_popValue (ha : a.Counted) (h : popValue.run.run a = (.ok ⟨⟩, b)) :
    a.Crosses q b := by
  unfold popValue at h
  rw [run_get_bind] at h
  split at h
  next => cases h
  next t rest hstack =>
    obtain ⟨_, d, hemit, h⟩ := run_bind_eq_ok.mp h
    obtain ⟨t', e, hpop, h⟩ := run_bind_eq_ok.mp h
    cases h
    have hb := (((Draws.refl ha).emit hemit).pop hpop).1
    have htop : [t.slots] <+: widthsOf a.stack := by
      rw [hstack]
      exact ⟨widthsOf rest, rfl⟩
    refine crosses_of_plain [t.slots] ?_ hb htop ?_
    · split <;> exact ⟨rfl, rfl, rfl⟩
    · unfold VerificationType.slots
      split <;> rfl

theorem crosses_swap (ha : a.Counted) (h : swap.run.run a = (.ok ⟨⟩, b)) : a.Crosses q b := by
  obtain ⟨_, d, hemit, h⟩ := run_bind_eq_ok.mp h
  obtain ⟨t, e, hpop, h⟩ := run_bind_eq_ok.mp h
  obtain ⟨u, f, hpop', h⟩ := run_bind_eq_ok.mp h
  obtain ⟨hnarrow, h⟩ := run_refusing_eq_ok h
  obtain ⟨_, g, hpush, h⟩ := run_bind_eq_ok.mp h
  obtain ⟨he, htop⟩ := ((Draws.refl ha).emit hemit).pop hpop
  obtain ⟨hf, hnext⟩ := he.pop hpop'
  have ht : t.slots = 1 ∧ u.slots = 1 := by
    rw [Bool.or_eq_true, not_or] at hnarrow
    exact ⟨if_neg hnarrow.1, if_neg hnarrow.2⟩
  rw [ht.1] at htop
  rw [ht.2] at hnext
  have hb := (hf.push hpush).push h
  rw [ht.1, ht.2] at hb
  exact crosses_of_plain [1, 1] ⟨rfl, rfl, rfl⟩ hb (prefix_pair htop hnext) rfl

theorem crosses_add {type : FieldType} (ha : a.Counted)
    (hfits : [type.slots, type.slots] <+: widthsOf a.stack)
    (h : (add type).run.run a = (.ok ⟨⟩, b)) : a.Crosses q b := by
  unfold add at h
  rw [← ValueKind.width_ofType] at hfits
  split at h
  next hkind =>
    rw [hkind] at hfits
    exact crosses_joining ha ⟨rfl, rfl, rfl⟩ hfits rfl h
  next hkind =>
    rw [hkind] at hfits
    exact crosses_joining ha ⟨rfl, rfl, rfl⟩ hfits rfl h
  next => cases h

theorem kinds_of_ofKinds? {k k' : ValueKind} {c : Conversion}
    (h : Conversion.ofKinds? k k' = some c) : c.kinds = (k, k') := by
  unfold Conversion.ofKinds? at h
  split at h <;> cases h <;> rfl

/-- Nothing happens between types that are held alike. -/
theorem widen_cases {source target : FieldType} (ha : a.Counted)
    (hfits : (Call.widen source target).operands <+: widthsOf a.stack)
    (h : (widen source target).run.run a = (.ok ⟨⟩, b)) : b = a ∨ a.Crosses q b := by
  unfold widen at h
  split at h
  next =>
    cases h
    exact .inl rfl
  next hother =>
    simp only [Call.operands, if_neg hother] at hfits
    split at h
    next c hc =>
      refine .inr (crosses_replacing (.refl ha) ⟨rfl, rfl, rfl⟩ hfits ?_ h)
      rw [Operation.slots?, kinds_of_ofKinds? hc, ValueKind.width_ofType, ValueKind.width_ofType,
        VerificationType.slots_ofType]
    next => cases h

/-! ## 4. Locals -/

theorem crosses_load {slot : UInt16} {type : FieldType} (ha : a.Counted)
    (hmeant : (Call.load slot type).Meant a)
    (h : (load slot type).run.run a = (.ok ⟨⟩, b)) : a.Crosses q b := by
  obtain ⟨_, d, hemit, h⟩ := run_bind_eq_ok.mp h
  have hd := (Draws.refl ha).emit hemit
  obtain ⟨-, rfl⟩ := run_emit_eq_ok hemit
  rw [run_get_bind] at h
  split at h
  next => cases h
  next => cases h
  next held _ hheld =>
    have hwidth : held.slots = (ValueKind.ofType type).width := by
      rw [ValueKind.width_ofType]
      exact hmeant held hheld
    refine ⟨_, [], _, ⟨hd.push h, rfl, rfl, List.nil_prefix, ?_⟩, fun n hn => ?_⟩
    · rw [Operation.slots?, ← hwidth]
      rfl
    · refine hn slot.toNat _ ?_
      rw [Array.getElem?_map, hheld, ← hwidth]
      rfl

def storing (a : Assembler) (slot : UInt16) (t : FieldType) : Assembler :=
  let locals := localsAfterStore a.locals slot.toNat t
  { a with locals, maxLocals := max a.maxLocals (UInt16.ofNat locals.size) }

def allocated (a : Assembler) (t : FieldType) : Assembler :=
  let locals := a.locals ++ Array.replicate t.slots .top
  { a with locals, maxLocals := max a.maxLocals (UInt16.ofNat locals.size) }

def left (a : Assembler) : Assembler := { a with reachable := false, stack := [], stackSlots := 0 }

theorem store_eq_ok {slot : UInt16} {type : FieldType} (ha : a.Counted)
    (h : (store slot type).run.run a = (.ok ⟨⟩, b)) :
    ∃ d, a.Draws d [.store (.ofType type) slot] 1 [] ∧ b = d.storing slot type := by
  obtain ⟨_, d, hemit, h⟩ := run_bind_eq_ok.mp h
  obtain ⟨_, e, hpop, h⟩ := run_bind_eq_ok.mp h
  cases h
  exact ⟨e, (((Draws.refl ha).emit hemit).pop hpop).1, rfl⟩

theorem allocateLocal_eq_ok {type : FieldType}
    (h : (Call.allocateLocal type).run.run.run a = (.ok ⟨⟩, b)) :
    (a.allocated type).locals.size ≤ 65535 ∧ b = a.allocated type := by
  obtain ⟨slot, d, hallocate, hpure⟩ := run_bind_eq_ok.mp h
  cases hpure
  unfold allocateLocal at hallocate
  rw [run_get_bind] at hallocate
  obtain ⟨_, e, hmodify, hallocate⟩ := run_bind_eq_ok.mp hallocate
  cases hmodify
  rw [run_get_bind] at hallocate
  obtain ⟨hsize, hallocate⟩ := run_refusing_eq_ok hallocate
  cases hallocate
  exact ⟨Nat.le_of_not_lt hsize, rfl⟩

/-! ## 5. Control -/

theorem returnValue_eq_ok {type : Option FieldType} (ha : a.Counted)
    (h : (returnValue type).run.run a = (.ok ⟨⟩, b)) :
    ∃ d, a.Draws d [.ret (type.map .ofType)] (type.toList.map FieldType.slots).length [] ∧
    b = d.left := by
  unfold returnValue at h
  obtain ⟨_, d, hemit, h⟩ := run_bind_eq_ok.mp h
  have hd := (Draws.refl ha).emit hemit
  cases type with
  | none =>
    cases h
    exact ⟨d, hd, rfl⟩
  | some t =>
    obtain ⟨_, e, hpop, h⟩ := run_bind_eq_ok.mp h
    cases h
    exact ⟨e, (hd.pop hpop).1, rfl⟩

structure Jumping (q : ConstantPool) (a d : Assembler) (op : Operation) (l : Label)
    (taken : List Nat) : Prop where
  draws : a.Draws d [] taken.length []
  live : a.reachable = true
  target : op.target? = some l
  fits : taken <+: widthsOf a.stack
  slots : op.slots? q = some (taken.sum, 0)
  localFree : op.touches = 0

end Assembler

/-! ## 6. Calls -/

namespace Assembly

open Assembler

variable {q : ConstantPool} {a b : Assembler}

inductive CallStep (q : ConstantPool) (a : Assembler) : Call → Assembler → Prop
  | idle {c : Call} : CallStep q a c a
  | crosses {c : Call} {b : Assembler} (crosses : a.Crosses q b) : CallStep q a c b
  | stores {slot : UInt16} {t : FieldType} {d : Assembler}
      (passage : a.Passage q d (.store (.ofType t) slot) [t.slots] []) :
      CallStep q a (.store slot t) (d.storing slot t)
  | allocates {t : FieldType} (size : (a.allocated t).locals.size ≤ 65535) :
      CallStep q a (.allocateLocal t) (a.allocated t)
  | truncates {length : Nat} : CallStep q a (.truncateLocals length) (a.truncated length)
  | returns {t : Option FieldType} {d : Assembler}
      (draws : a.Draws d [.ret (t.map .ofType)] (t.toList.map FieldType.slots).length [])
      (fits : t.toList.map FieldType.slots <+: widthsOf a.stack) :
      CallStep q a (.returnValue t) d.left
  | makes : CallStep q a .newLabel a.labelled
  | jumps {c : Call} {op : Operation} {l : Label} {taken : List Nat} {d : Assembler} {n : Nat}
      {stack : List VerificationType} (jumped : a.Jumping q d op l taken)
      (edge : c.edge? a = some (l, stack)) (depth : depthOf d.stack = depthOf stack) :
      CallStep q a c { d.withJump op l (d.frameUpTo n) with reachable := Body.goesOn op }
  | resumes {l : Label} {f : Frame} (unplaced : (a.labelState l).position = none)
      (known : (a.labelState l).frame = some f) : CallStep q a (.place l) (a.placed l f)
  | marks {l : Label} {n : Nat} (unplaced : (a.labelState l).position = none)
      (unknown : (a.labelState l).frame = none) (live : a.reachable = true) :
      CallStep q a (.place l) { a with
        labels := a.labels.modify l.index fun s => s.settle a.offset (some (a.frameUpTo n))
        locals := a.locals.take n }
  | passesBy {l : Label} (unplaced : (a.labelState l).position = none)
      (unknown : (a.labelState l).frame = none) (dead : a.reachable = false) :
      CallStep q a (.place l) (a.passedBy l)
  | guards {start stop handler : Label} {catchType : Option String} {pool : ConstantPool}
      {i : UInt16} {n : Nat} {name : String}
      (edge : ∃ t, (Call.addHandler start stop handler catchType).edge? a =
        some (handler, [.object t])) :
      CallStep q a (.addHandler start stop handler catchType)
        ({ a with pool }.withHandler ⟨start, stop, handler, i⟩ ⟨a.locals.take n, [.object name]⟩)

theorem callStep_branch {opcode : UInt8} {l : Label} (ha : a.Counted) (hl : l.index < a.labels.size)
    (hfits : (Call.branch opcode l).operands <+: widthsOf a.stack)
    (h : (branchBy opcode l).run.run a = (.ok ⟨⟩, b)) : CallStep q a (.branch opcode l) b := by
  unfold branchBy at h
  split at h
  next test htest =>
    unfold branch at h
    rw [run_get_bind] at h
    dsimp only at h
    split at h
    next => cases h
    next =>
      obtain ⟨_, d, hpops, h⟩ := run_bind_eq_ok.mp h
      have hd := (Draws.refl ha).popMany hpops
      obtain ⟨hlive, rfl⟩ := run_jump_eq_ok (hd.labels ▸ hl) h
      have htaken : List.replicate test.operands 1 <+: widthsOf a.stack := by
        rwa [Call.operands, htest] at hfits
      -- taking operands from the stack does not change whether control is here
      have hlive' : a.reachable = true := hd.reachable ▸ hlive
      have hdepth : depthOf d.stack = depthOf (a.stack.drop test.operands) := by
        rw [depthOf, hd.stack, depthOf, widthsOf, widthsOf, List.map_drop, Nat.zero_add]
        rfl
      have hjumped : a.Jumping q d (.branch test l) l (List.replicate test.operands 1) :=
        { draws := by rwa [List.length_replicate, ← Nat.zero_add test.operands]
          live := hlive'
          target := rfl
          fits := htaken
          slots := by cases test <;> rfl
          localFree := rfl }
      have hjumps :=
        CallStep.jumps (c := .branch opcode l) (n := (d.labelState l).localsLength) hjumped
        (by rw [Call.edge?, htest]; exact if_pos ⟨hlive', Nat.zero_add test.operands ▸ hd.length⟩)
          hdepth
      rw [show Body.goesOn (.branch test l) = d.reachable from hlive.symm] at hjumps
      exact hjumps
  next => cases h

theorem callStep_goto {l : Label} (ha : a.Counted) (hl : l.index < a.labels.size)
    (h : (goto l).run.run a = (.ok ⟨⟩, b)) : CallStep q a (.goto l) b := by
  obtain ⟨_, d, hjump, h⟩ := run_bind_eq_ok.mp h
  obtain ⟨hlive, rfl⟩ := run_jump_eq_ok hl hjump
  cases h
  have hjumped : a.Jumping q a (.goto l) l [] := ⟨.refl ha, hlive, rfl, List.nil_prefix, rfl, rfl⟩
  exact .jumps hjumped (if_pos hlive) rfl

theorem edge_addHandler {start stop handler : Label} {catchType : Option String}
    (h : (addHandler start stop handler catchType).run.run a = (.ok ⟨⟩, b)) :
    ∃ t, (Call.addHandler start stop handler catchType).edge? a = some (handler, [.object t]) := by
  refine ⟨catchType.getD "java/lang/Throwable", if_pos ?_⟩
  cases catchType with
  | none => rfl
  | some name =>
    -- the class of the exception went into the pool, since the call succeeded
    unfold addHandler at h
    obtain ⟨i, d, hintern, -⟩ := run_bind_eq_ok.mp h
    obtain ⟨pool, hpool, -⟩ := run_intern_eq_ok hintern
    show ((Interning.classRef name).run.run a.pool).1.isOk = true
    rw [hpool]
    rfl

/-- A call that succeeds and fits is one of these. -/
theorem Call.callStep {c : Call} (ha : a.Counted) (hpool : a.pool.WellFormed)
    (hl : ∀ l ∈ c.labels, l.index < a.labels.size)
    (hfits : c.Fits a) (hq : b.pool ≤ q) (h : c.run.run.run a = (.ok ⟨⟩, b)) :
    CallStep q a c b := by
  obtain ⟨hfits, hmeant⟩ := hfits
  cases c with
  | allocateLocal t =>
    obtain ⟨hsize, rfl⟩ := allocateLocal_eq_ok h
    exact .allocates hsize
  | truncateLocals length =>
    cases h
    exact .truncates
  | newLabel =>
    cases h
    exact .makes
  -- a label resumes from its own frame, marks the current one, or is passed by where no control
  -- comes
  | place l =>
    obtain ⟨hunplaced, ⟨f, hf, rfl⟩ | ⟨n, hnone, hlive, rfl⟩ | ⟨hnone, hdead, rfl⟩⟩ :=
      run_place_cases h
    · exact .resumes hunplaced hf
    · exact .marks hunplaced hnone hlive
    · exact .passesBy hunplaced hnone hdead
  | aconstNull => exact .crosses (crosses_pushing (.refl ha) ⟨rfl, rfl, rfl⟩ rfl h)
  | iconst value => exact .crosses (crosses_iconst ha h)
  | lconst value => exact .crosses (crosses_lconst ha h)
  | ldcString text => exact .crosses (crosses_ldc (r := .string text) rfl ha h)
  | ldcClass name => exact .crosses (crosses_ldc (r := .classRef name) rfl ha h)
  | load slot t => exact .crosses (crosses_load ha hmeant h)
  | store slot t =>
    obtain ⟨d, hd, rfl⟩ := store_eq_ok ha h
    exact .stores ⟨hd, rfl, rfl, hfits, by rw [Operation.slots?, ValueKind.width_ofType]; rfl⟩
  | getField owner name t => exact .crosses (crosses_getField ha hpool hq hfits hmeant h)
  | getStatic owner name t => exact .crosses (crosses_getStatic ha hpool hq hmeant h)
  | invoke kind owner name type onInterface =>
    exact .crosses (crosses_invoke ha hpool hq hfits hmeant h)
  | newObject name => exact .crosses (crosses_newObject ha h)
  | checkcast name =>
    exact .crosses
      (crosses_classed (f := .checkcast) ha hfits rfl (fun _ => ⟨⟨rfl, rfl, rfl⟩, rfl⟩) h)
  | instanceOf name =>
    exact .crosses
      (crosses_classed (f := .instanceof) ha hfits rfl (fun _ => ⟨⟨rfl, rfl, rfl⟩, rfl⟩) h)
  | dup => exact .crosses (crosses_dup ha h)
  | popValue => exact .crosses (crosses_popValue ha h)
  | swap => exact .crosses (crosses_swap ha h)
  | lcmp => exact .crosses (crosses_joining ha ⟨rfl, rfl, rfl⟩ hfits rfl h)
  | add t => exact .crosses (crosses_add ha hfits h)
  | widen source target =>
    obtain rfl | hcrosses := widen_cases ha hfits h
    · exact .idle
    · exact .crosses hcrosses
  | branch opcode l => exact callStep_branch ha (hl l (by simp [Call.labels])) hfits h
  | goto l => exact callStep_goto ha (hl l (by simp [Call.labels])) h
  | returnValue t =>
    obtain ⟨d, hd, rfl⟩ := returnValue_eq_ok ha h
    exact .returns hd hfits
  | addHandler start stop handler catchType =>
    have hedge := edge_addHandler h
    obtain ⟨pool, i, n, name, -, rfl⟩ := run_addHandler_eq_ok (hl handler (by simp [Call.labels])) h
    exact .guards hedge

end Assembly

end MethodGraft.Code
