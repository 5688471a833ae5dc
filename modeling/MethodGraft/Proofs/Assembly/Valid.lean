import Mathlib.Algebra.GroupWithZero.Nat
import MethodGraft.Proofs.Assembly.Order

/-!
# Proofs.Assembly.Valid — what holds of every body in the making

Nothing here is about the source of the code.  It follows from the steps alone: every instruction
has a constant that it accepts and a label that will have a frame, every frame is small enough to be
written, and where control does not go on, no label with a frame has been placed.
-/

namespace MethodGraft.Code

open ClassFile Typed

/-! ## 1. Sizes -/

theorem Operation.size_pos (op : Operation) : 0 < op.size := by
  have hlocal (opcode : UInt8) (slot : UInt16) : 0 < (localBytes opcode slot).length := by
    unfold localBytes
    split <;> simp
  cases op with
  | load | store => exact hlocal _ _
  | invoke kind => cases kind <;> simp [size, encode]
  | _ => simp [size, encode]

theorem length_takeKinds {taken stack rest : List ValueKind}
    (h : takeKinds taken stack = some rest) : rest.length ≤ stack.length := by
  rw [takeKinds_eq_some_iff.mp h, List.length_append]
  omega

/-- An instruction leaves at most one entry more than it finds. -/
theorem Operation.length_effect {p : ConstantPool} {op : Operation} {taken left : List ValueKind}
    (h : op.effect p taken = some left) : left.length ≤ taken.length + 1 := by
  have hpush (k : ValueKind) (kinds : List ValueKind)
      (h : (takeKinds kinds taken).map (k :: ·) = some left) : left.length ≤ taken.length + 1 := by
    obtain ⟨rest, hrest, rfl⟩ := Option.map_eq_some_iff.mp h
    exact Nat.succ_le_succ (length_takeKinds hrest)
  cases op with
  | aconstNull | lconst0 | lconst1 | bipush | sipush | load | goto =>
    cases h
    simp
  | iconst v =>
    rw [effect] at h
    split at h <;> cases h
    simp
  | ldc | ldcW | ldc2W | getStatic | new =>
    obtain ⟨_, -, rfl⟩ := Option.map_eq_some_iff.mp h
    simp
  | store k | ret k | branch test => exact Nat.le_succ_of_le (length_takeKinds h)
  | getField i | checkcast i | instanceof i =>
    obtain ⟨_, -, h⟩ := Option.bind_eq_some_iff.mp h
    exact hpush _ _ h
  -- a call may take nothing and leave one value
  | invoke kind i =>
    obtain ⟨c, -, -, h⟩ := effect_invoke_eq_some_iff.mp h
    obtain ⟨rest, hrest, rfl⟩ := Option.map_eq_some_iff.mp h
    have hle := length_takeKinds hrest
    have hret : (c.type.ret.map ValueKind.ofType).toList.length ≤ 1 := by cases c.type.ret <;> simp
    rw [List.length_append]
    omega
  | dup | pop | pop2 =>
    cases taken with
    | nil => cases h
    | cons k rest =>
      simp only [effect] at h
      split at h <;> cases h
      simp only [List.length_cons]
      omega
  | swap =>
    rcases taken with _ | ⟨k, _ | ⟨k', rest⟩⟩
    · cases h
    · cases h
    · simp only [effect] at h
      split at h <;> cases h
      simp
  | iadd | ladd | lcmp | convert => exact hpush _ _ h

theorem length_kindsOf (types : List VerificationType) : (kindsOf types).length = types.length :=
  List.length_map _

theorem toList_take {α : Type} (xs : Array α) (n : Nat) :
    (xs.take n).toList = xs.toList.take n := by
  simp only [Array.take_eq_extract, Array.toList_extract, List.extract_eq_take_drop, List.drop_zero,
    Nat.sub_zero]

theorem kindsOf_take (types : Array VerificationType) (n : Nat) :
    kindsOf (types.take n).toList <+: kindsOf types.toList := by
  rw [toList_take]
  exact (List.take_prefix n _).map _

theorem Operation.Carries.length_le {op : Operation} {pool : ConstantPool}
    {before after : List VerificationType}
    (h : op.Carries pool before after) : after.length ≤ before.length + op.size := by
  obtain ⟨taken, left, hbefore, hafter, heffect⟩ := h
  have hgrows := Operation.length_effect heffect
  have hpos := op.size_pos
  have hb := congrArg List.length hbefore
  have ha := congrArg List.length hafter
  rw [length_kindsOf, List.length_map] at hb ha
  omega

/-! ## 2. Labels -/

/-- What holds of a label while the code is `offset` bytes long and uses so many local slots. -/
structure LabelState.Sound (offset slots : Nat) (s : LabelState) : Prop where
  position_le : ∀ p, s.position = some p → p ≤ offset
  framed : s.targeted = true → s.frame.isSome
  aimed : s.position = none → s.frame.isSome → s.targeted = true
  length : ∀ f, s.frame = some f → f.locals.size = s.localsLength
  small : ∀ f, s.frame = some f → f.locals.size ≤ slots ∧ f.stack.length ≤ offset

namespace LabelState.Sound

variable {offset offset' slots slots' : Nat} {s : LabelState}

theorem fresh (n : Nat) : Sound offset slots { localsLength := n } where
  position_le _ h := by cases h
  framed h := by cases h
  aimed _ h := by cases h
  length _ h := by cases h
  small _ h := by cases h

theorem mono (h : s.Sound offset slots) (hle : offset ≤ offset') (hslots : slots ≤ slots') :
    s.Sound offset' slots' where
  position_le p hp := Nat.le_trans (h.position_le p hp) hle
  framed := h.framed
  aimed := h.aimed
  length := h.length
  small f hf := ⟨Nat.le_trans (h.small f hf).1 hslots, Nat.le_trans (h.small f hf).2 hle⟩

theorem target (h : s.Sound offset slots) {f : Frame} (hlength : f.locals.size = s.localsLength)
    (hsmall : f.locals.size ≤ slots ∧ f.stack.length ≤ offset) :
    (s.target f).Sound offset slots := by
  refine ⟨h.position_le, fun _ => rfl, fun _ _ => rfl, fun g hg => ?_, fun g hg => ?_⟩
  · rcases LabelState.frame_target hg with hs | ⟨-, rfl⟩
    · exact h.length g hs
    · exact hlength
  · rcases LabelState.frame_target hg with hs | ⟨-, rfl⟩
    · exact h.small g hs
    · exact hsmall

theorem settle {f : Option Frame} (htargeted : s.targeted = true → f.isSome)
    (hlength : ∀ g, f = some g → g.locals.size = s.localsLength)
    (hsmall : ∀ g, f = some g → g.locals.size ≤ slots ∧ g.stack.length ≤ offset) :
    (s.settle offset f).Sound offset slots where
  position_le p hp := by
    cases hp
    exact Nat.le_refl _
  framed := htargeted
  aimed hp := by cases hp
  length := hlength
  small := hsmall

end LabelState.Sound

/-! ## 3. Bodies -/

namespace Assembler

/-- The operation finds a constant of the right kind, and its label, if it has one, has a frame. -/
structure Accepts (a : Assembler) (op : Operation) : Prop where
  effect : ∃ taken left, op.effect a.pool taken = some left
  target : ∀ l, op.target? = some l → l.index < a.labels.size ∧ (a.labelState l).targeted = true

theorem Accepts.inRange {a : Assembler} {op : Operation} (h : a.Accepts op) : op.InRange := by
  obtain ⟨taken, left, heffect⟩ := h.effect
  exact Operation.inRange_of_effect heffect

/-- What holds of a handler. -/
structure Covers (a : Assembler) (h : HandlerRange) : Prop where
  start : ∃ p, (a.labelState h.start).position = some p ∧
    ∀ q, (a.labelState h.stop).position = some q → p < q
  made : h.stop.index < a.labels.size ∧ h.handler.index < a.labels.size
  targeted : (a.labelState h.handler).targeted = true
  catchType : ∃ name, a.pool.class? h.catchType = some name

structure Valid (a : Assembler) : Prop where
  pool : a.pool.WellFormed
  offset : a.offset = (a.operations.toList.map Operation.size).sum
  operations : ∀ op ∈ a.operations.toList, a.Accepts op
  labels : ∀ l, (a.labelState l).Sound a.offset a.maxLocals.toNat
  handlers : ∀ h ∈ a.handlers.toList, a.Covers h
  /-- Where control does not go on, no label with a frame has been placed. -/
  dead : a.reachable = false → 0 < a.offset ∧
    ∀ l, (a.labelState l).position = some a.offset → (a.labelState l).frame = none
  locals_le : a.locals.size ≤ a.maxLocals.toNat
  stack_le : a.stack.length ≤ a.offset
  slots : a.stackSlots = stackWidth a.stack

variable {a b : Assembler} {op : Operation}

theorem Accepts.mono (h : a.Accepts op) (hab : a.Extends b) : b.Accepts op where
  effect := by
    obtain ⟨taken, left, he⟩ := h.effect
    exact ⟨taken, left, Operation.effect_mono hab.pool he⟩
  target l hl :=
    ⟨Nat.lt_of_lt_of_le (h.target l hl).1 hab.labels, hab.targeted l (h.target l hl).2⟩

/-- A step adds one operation at the end, or none. -/
theorem Step.adds (h : Step a b) :
    (∃ op, a.reachable = true ∧ b.operations = a.operations.push op ∧
      b.offset = a.offset + op.size ∧ b.Accepts op) ∨
    (b.operations = a.operations ∧ b.offset = a.offset) := by
  cases h with
  | @pass _ op h =>
    obtain ⟨taken, left, -, -, heffect⟩ := h.carries
    refine .inl ⟨op, h.reachable, h.operations, h.offset, ⟨taken, left, heffect⟩, ?_⟩
    intro l hl
    rw [h.straight] at hl
    cases hl
  | @jump op l stack onward reachable op_eq carries awaits =>
    obtain ⟨taken, left, -, -, heffect⟩ := carries
    refine .inl ⟨op, reachable, rfl, rfl, ⟨taken, left, heffect⟩, ?_⟩
    intro l' hl'
    have hl : l' = l := by
      rcases op_eq with ⟨rfl, -⟩ | ⟨⟨test, rfl⟩, -⟩ <;> cases hl' <;> rfl
    rw [hl, labelState_jumped awaits.made, if_pos rfl]
    exact ⟨by simpa [jumped] using awaits.made, rfl⟩
  | @ret k reachable effect =>
    obtain ⟨taken, left, -, heffect⟩ := effect
    refine .inl ⟨.ret k, reachable, rfl, rfl, ⟨taken, left, heffect⟩, ?_⟩
    intro l hl
    cases hl
  | newLabel | place | passBy | guard | truncate => exact .inr ⟨rfl, rfl⟩

/-! ## 4. Every step keeps it -/

theorem Extends.accepts (hab : a.Extends b) {ops : List Operation} (h : ∀ op ∈ ops, a.Accepts op) :
    ∀ op ∈ ops, b.Accepts op := fun op hop => (h op hop).mono hab

theorem Valid.step_operations (ha : a.Valid) (h : Step a b) :
    b.offset = (b.operations.toList.map Operation.size).sum ∧
      ∀ op ∈ b.operations.toList, b.Accepts op := by
  have hext := h.extends
  rcases h.adds with ⟨op, -, hops, hoffset, haccepts⟩ | ⟨hops, hoffset⟩
  · rw [hops, Array.toList_push, hoffset]
    constructor
    · rw [List.map_append, List.sum_append, ← ha.offset]
      simp
    · intro op' hop'
      rcases List.mem_append.mp hop' with hold | hnew
      · exact (ha.operations op' hold).mono hext
      · rwa [List.mem_singleton.mp hnew]
  · rw [hops, hoffset]
    exact ⟨ha.offset, hext.accepts ha.operations⟩

/-- One label has changed, and is still as it should be. -/
theorem sound_of_modify {l : Label} {f : LabelState → LabelState} {offset slots : Nat}
    (ha : ∀ l, (a.labelState l).Sound a.offset a.maxLocals.toNat)
    (hb : b.labels = a.labels.modify l.index f) (hl : l.index < a.labels.size)
    (hle : a.offset ≤ offset) (hslots : a.maxLocals.toNat ≤ slots)
    (hf : (f (a.labelState l)).Sound offset slots) (l' : Label) :
    (b.labelState l').Sound offset slots := by
  rw [labelState_modify hb hl]
  split
  next => exact hf
  next => exact (ha l').mono hle hslots

theorem sound_of_labels {offset slots : Nat}
    (ha : ∀ l, (a.labelState l).Sound a.offset a.maxLocals.toNat) (hb : b.labels = a.labels)
    (hle : a.offset ≤ offset) (hslots : a.maxLocals.toNat ≤ slots) (l : Label) :
    (b.labelState l).Sound offset slots := by
  rw [labelState, hb]
  exact (ha l).mono hle hslots

theorem Valid.step_labels (ha : a.Valid) (h : Step a b) (l' : Label) :
    (b.labelState l').Sound b.offset b.maxLocals.toNat := by
  have hle := h.extends.offset
  have hslots : a.maxLocals.toNat ≤ b.maxLocals.toNat :=
    UInt16.le_iff_toNat_le.mp h.extends.maxLocals
  cases h with
  | pass h => exact sound_of_labels ha.labels h.labels hle hslots l'
  | @jump op l stack onward _ _ carries awaits =>
    refine sound_of_modify (f := fun s => s.target ⟨a.locals, stack⟩) ha.labels rfl awaits.made hle
      hslots (((ha.labels l).mono hle hslots).target awaits.length.symm ⟨ha.locals_le, ?_⟩) l'
    have hlen := carries.length_le
    -- an operation is a byte at least, which pays for the one entry it may add
    have hdepth := ha.stack_le
    show stack.length ≤ a.offset + op.size
    omega
  | ret => exact sound_of_labels ha.labels rfl hle hslots l'
  | newLabel =>
    rw [labelState_labelled]
    split
    next => exact .fresh _
    next => exact ha.labels l'
  | @place l f made _ length known _ live =>
    -- the frame is the one that is known for the label, or the current one
    have hsmall : f.locals.size ≤ a.maxLocals.toNat ∧ f.stack.length ≤ a.offset := by
      -- after a label the locals are those of its frame, if it had one before
      cases hframe : (a.labelState l).frame with
      | none =>
        rw [(live hframe).2]
        exact ⟨ha.locals_le, ha.stack_le⟩
      | some g =>
        rw [← known g hframe]
        exact (ha.labels l).small g hframe
    refine sound_of_modify (f := fun s => s.settle a.offset (some f)) ha.labels rfl made hle hslots
      (LabelState.Sound.settle (fun _ => rfl) (fun g hg => ?_) (fun g hg => ?_)) l'
    · cases hg
      exact length
    · cases hg
      exact hsmall
  | @passBy l _ made _ unknown =>
    refine sound_of_modify (f := fun s => s.settle a.offset none) ha.labels rfl made hle hslots
      (LabelState.Sound.settle (fun ht => ?_) (fun g hg => by cases hg) fun g hg => by cases hg) l'
    -- a targeted label has a frame, and this one has none
    have hframe := (ha.labels l).framed ht
    rw [unknown] at hframe
    exact hframe
  | @guard h name pool _ _ _ awaits _ _ _ _ _ _ room =>
    exact sound_of_modify (f := fun s => s.target ⟨a.locals, [.object name]⟩) ha.labels rfl
      awaits.made hle hslots
      ((ha.labels h.handler).target awaits.length.symm ⟨ha.locals_le, room.2⟩) l'
  | truncate => exact sound_of_labels ha.labels rfl hle hslots l'

theorem Covers.mono {h : HandlerRange} (hc : a.Covers h) (hab : a.Extends b)
    (hend : ∀ p q, (a.labelState h.start).position = some p →
      (a.labelState h.stop).position = none → (b.labelState h.stop).position = some q → p < q) :
    b.Covers h where
  start := by
    obtain ⟨p, hp, hlt⟩ := hc.start
    refine ⟨p, by rw [hab.placed _ p hp, hp], fun q hq => ?_⟩
    cases hstop : (a.labelState h.stop).position with
    | none => exact hend p q hp hstop hq
    | some q' =>
      rw [hab.placed _ q' hstop, hstop] at hq
      cases hq
      exact hlt _ hstop
  made := ⟨Nat.lt_of_lt_of_le hc.made.1 hab.labels, Nat.lt_of_lt_of_le hc.made.2 hab.labels⟩
  targeted := hab.targeted _ hc.targeted
  catchType := by
    obtain ⟨name, hname⟩ := hc.catchType
    exact ⟨name, ConstantPool.class?_mono hab.pool hname⟩

theorem Valid.step_covers (h : Step a b) {r : HandlerRange} (hr : r ∈ a.handlers.toList)
    (hc : a.Covers r) : b.Covers r := by
  refine hc.mono h.extends fun p q hp hnone hq => ?_
  cases h.label r.stop with
  | kept state =>
    rw [state, hnone] at hq
    cases hq
  | made unmade => exact absurd hc.made.1 (Nat.not_lt_of_le unmade)
  | aimed unplaced state =>
    rw [state, LabelState.target, hnone] at hq
    cases hq
  | placed state arrives =>
    rw [state] at hq
    cases hq
    exact arrives.nonempty r hr rfl p hp
  | passed _ _ closed =>
    have hsome := closed r hr
    rw [hnone] at hsome
    cases hsome

theorem Valid.step_handlers (ha : a.Valid) (h : Step a b) :
    ∀ r ∈ b.handlers.toList, b.Covers r := by
  have hkeep (hsame : b.handlers = a.handlers) : ∀ r ∈ b.handlers.toList, b.Covers r := by
    intro r hr
    rw [hsame] at hr
    exact Valid.step_covers h hr (ha.handlers r hr)
  have hstep := h
  cases h with
  | pass h => exact hkeep h.handlers
  | jump | ret | newLabel | place | passBy | truncate => exact hkeep rfl
  | @guard g name pool reachable start stop awaits _ other _ _ catchType =>
    intro r hr
    have hr' : r ∈ a.handlers.toList ∨ r = g := by simpa [guarding] using hr
    rcases hr' with hold | rfl
    · exact Valid.step_covers hstep hold (ha.handlers r hold)
    · have hmade : r.handler.index < (a.guarding r name pool).labels.size := by
        simpa [guarding] using awaits.made
      refine ⟨⟨a.offset, ?_, fun q hq => ?_⟩, ⟨by simpa [guarding] using stop.1, hmade⟩, ?_,
        name, catchType⟩
      · rw [hstep.extends.placed _ _ start, start]
      · rw [labelState_guarding awaits.made, if_neg other.symm, stop.2] at hq
        cases hq
      · rw [labelState_guarding awaits.made, if_pos rfl]
        rfl

theorem Valid.step_dead (ha : a.Valid) (h : Step a b) (hb : b.reachable = false) :
    0 < b.offset ∧ ∀ l, (b.labelState l).position = some b.offset →
    (b.labelState l).frame = none := by
  -- no label can be placed yet where new code ends
  have hgrown (op : Operation) (hoffset : b.offset = a.offset + op.size)
      (hposition : ∀ l, (b.labelState l).position = (a.labelState l).position) : 0 < b.offset ∧
        ∀ l, (b.labelState l).position = some b.offset → (b.labelState l).frame = none := by
    have hpos := op.size_pos
    refine ⟨by omega, fun l hl => ?_⟩
    rw [hposition] at hl
    have := (ha.labels l).position_le _ hl
    omega
  cases h with
  | pass h =>
    rw [h.onward] at hb
    cases hb
  | @jump op l stack onward _ _ _ awaits =>
    refine hgrown op rfl fun l' => ?_
    rw [labelState_jumped awaits.made]
    split
    next h => rw [h]; rfl
    next => rfl
  | @ret k => exact hgrown (.ret k) rfl fun _ => rfl
  | newLabel =>
    refine ⟨(ha.dead hb).1, fun l hl => ?_⟩
    rw [labelState_labelled] at hl ⊢
    split
    next => rfl
    next hne =>
      rw [if_neg hne] at hl
      exact (ha.dead hb).2 l hl
  | place => cases hb
  | @passBy l _ made _ unknown =>
    refine ⟨(ha.dead hb).1, fun l' hl => ?_⟩
    rw [labelState_passedBy made] at hl ⊢
    split
    next => rfl
    next hne =>
      rw [if_neg hne] at hl
      exact (ha.dead hb).2 l' hl
  | guard reachable =>
    have hb' : a.reachable = false := hb
    rw [reachable] at hb'
    cases hb'
  | truncate => exact ha.dead hb

/-- What holds of a body holds of it after every step. -/
theorem Valid.step (ha : a.Valid) (h : Step a b) : b.Valid where
  pool := by
    cases h with
    | pass h => exact h.pool_wf
    | guard _ _ _ _ _ _ _ pool_wf => exact pool_wf
    | jump | ret | newLabel | place | passBy | truncate => exact ha.pool
  offset := (ha.step_operations h).1
  operations := (ha.step_operations h).2
  labels := ha.step_labels h
  handlers := ha.step_handlers h
  dead := ha.step_dead h
  locals_le := by
    cases h with
    | pass h => exact h.locals_le.2
    | @place l f made unplaced length known here live =>
      show f.locals.size ≤ a.maxLocals.toNat
      cases hframe : (a.labelState l).frame with
      | none =>
        rw [(live hframe).2]
        exact ha.locals_le
      | some g =>
        rw [← known g hframe]
        exact ((ha.labels l).small g hframe).1
    | @truncate length =>
      show (a.locals.take length).size ≤ a.maxLocals.toNat
      have := ha.locals_le
      rw [Array.take_eq_extract, Array.size_extract]
      omega
    | jump | ret | newLabel | passBy | guard => exact ha.locals_le
  stack_le := by
    cases h with
    | @pass _ op h =>
      have := h.carries.length_le
      have := ha.stack_le
      rw [h.offset]
      omega
    | @jump op l stack onward _ _ carries =>
      have := carries.length_le
      have := ha.stack_le
      show stack.length ≤ a.offset + op.size
      omega
    | ret => exact Nat.zero_le _
    | @place l f made unplaced length known here live =>
      show f.stack.length ≤ a.offset
      cases hframe : (a.labelState l).frame with
      | none =>
        rw [(live hframe).2]
        exact ha.stack_le
      | some g =>
        rw [← known g hframe]
        exact ((ha.labels l).small g hframe).2
    | newLabel | passBy | guard | truncate => exact ha.stack_le
  slots := by
    cases h with
    | pass h => exact h.stackSlots
    | jump | ret | place => rfl
    | newLabel | passBy | guard | truncate => exact ha.slots

theorem Valid.builds (ha : a.Valid) (h : Builds a b) : b.Valid := by
  induction h with
  | refl => exact ha
  | tail _ hstep ih => exact ih.step hstep

end Assembler

end MethodGraft.Code
