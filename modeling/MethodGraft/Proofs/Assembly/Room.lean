import MethodGraft.Proofs.Assembly.Depths

/-!
# Proofs.Assembly.Room — room for the stack and the locals

The limits of a body grow with what is pushed, stored and reserved.  A frame that is taken up again
passes no counter, but it was within the limits when it was recorded.  Only the exception that a
handler starts with is never counted, so that one slot may be missing there.
-/

namespace MethodGraft.Code

open ClassFile Assembly Verify

namespace Assembler

variable {q : ConstantPool} {a b d : Assembler} {trace trace' : List Spot}

/-! ## 1. Locals -/

section

variable {locals more : Array VerificationType} {t : VerificationType} {m n : Nat}

theorem roomy_iff : Roomy locals n ↔ ∀ i t, locals[i]? = some t → i + t.slots ≤ n := by
  simp [Roomy, Array.getElem?_map]

theorem Roomy.mono (h : Roomy locals m) (hmn : m ≤ n) : Roomy locals n :=
  fun i w hw => Nat.le_trans (h i w hw) hmn

/-- Only the widths matter. -/
theorem Roomy.congr (h : Roomy locals n)
    (hmore : more.map VerificationType.slots = locals.map VerificationType.slots) :
    Roomy more n := by
  unfold Roomy
  rwa [hmore]

theorem Roomy.size_le (h : Roomy locals n) : locals.size ≤ n := by
  rcases Nat.eq_zero_or_pos locals.size with hzero | hpos
  · exact hzero ▸ Nat.zero_le n
  · have hlast :=
      roomy_iff.mp h (locals.size - 1) locals[locals.size - 1] (Array.getElem?_eq_getElem _)
    have hslots := locals[locals.size - 1].slots_pos
    omega

theorem Roomy.take (h : Roomy locals n) (length : Nat) : Roomy (locals.take length) n := by
  rw [roomy_iff] at h ⊢
  intro i t ht
  rw [Array.take_eq_extract, Array.getElem?_extract, Nat.zero_add] at ht
  exact h i t (Option.ite_none_right_eq_some.mp ht).2

theorem Roomy.append (h : Roomy locals m) (hmore : Roomy more n) :
    Roomy (locals ++ more) (max m (locals.size + n)) := by
  rw [roomy_iff] at h hmore ⊢
  intro i t ht
  rw [Array.getElem?_append] at ht
  split at ht
  next => exact Nat.le_trans (h i t ht) (Nat.le_max_left _ _)
  next hi =>
    have hle := hmore _ t ht
    omega

theorem roomy_tops (n : Nat) : Roomy (Array.replicate n .top) n := by
  rw [roomy_iff]
  intro i t ht
  rw [Array.getElem?_replicate] at ht
  obtain ⟨hi, ht⟩ := Option.ite_none_right_eq_some.mp ht
  cases ht
  exact hi

theorem Roomy.set (h : Roomy locals n) {i : Nat} (hi : i + t.slots ≤ n) :
    Roomy (locals.setIfInBounds i t) n := by
  rw [roomy_iff] at h ⊢
  intro j t' ht
  rw [Array.getElem?_setIfInBounds] at ht
  split at ht
  next hsame =>
    cases (Option.ite_none_right_eq_some.mp ht).2
    exact hsame ▸ hi
  next => exact h j t' ht

theorem size_localsAfterStore (locals : Array VerificationType) (slot : Nat) (type : FieldType) :
    (localsAfterStore locals slot type).size = max locals.size (slot + type.slots) := by
  have hsize : locals.size + (slot + type.slots - locals.size) =
    max locals.size (slot + type.slots) := by omega
  unfold localsAfterStore
  dsimp only
  split <;> simp only [Array.size_setIfInBounds, Array.size_append, Array.size_replicate, hsize]

theorem Roomy.afterStore {slot : Nat} {type : FieldType} (h : Roomy locals n)
    (hslot : slot + type.slots ≤ n) : Roomy (localsAfterStore locals slot type) n := by
  have hsize := h.size_le
  have hfilled := (h.append (roomy_tops (slot + type.slots - locals.size))).mono (n := n) (by omega)
  have hstored :=
    hfilled.set (t := .ofType type) ((VerificationType.slots_ofType type).symm ▸ hslot)
  unfold localsAfterStore
  dsimp only
  split
  next hwide =>
    -- the second slot of a wide value
    refine hstored.set ?_
    show slot + 1 + 1 ≤ n
    omega
  next => exact hstored

theorem length_localSlots (types : List FieldType) :
    (VerificationType.localSlots types).length = (types.map FieldType.slots).sum := by
  induction types with
  | nil => rfl
  | cons type types ih =>
    rw [List.map_cons, List.sum_cons, ← ih, VerificationType.localSlots, List.flatMap_cons,
      List.length_append]
    cases type <;> rfl

theorem roomy_single (t : VerificationType) : Roomy #[t] t.slots := by
  rw [roomy_iff]
  intro i t' ht
  cases i with
  | zero =>
    cases ht
    exact Nat.le_of_eq (Nat.zero_add _)
  | succ i => cases ht

/-- Each parameter has as many local slots as it takes. -/
theorem roomy_localSlots (types : List FieldType) :
    Roomy (VerificationType.localSlots types).toArray (types.map FieldType.slots).sum := by
  induction types with
  | nil => simp [Roomy, VerificationType.localSlots]
  | cons type types ih =>
    have hfirst : Roomy #[.ofType type] type.slots :=
      VerificationType.slots_ofType type ▸ roomy_single _
    rw [List.map_cons, List.sum_cons, VerificationType.localSlots, List.flatMap_cons,
      ← List.append_toArray]
    split
    next hwide =>
      have hslots : type.slots = 2 := by
        rw [← VerificationType.slots_ofType, VerificationType.slots, if_pos hwide]
      have hboth : Roomy #[.ofType type, .top] 2 :=
        (hfirst.append (roomy_tops 1)).mono (by simp [hslots])
      exact (hboth.append ih).mono (by simp [hslots])
    next hnarrow =>
      have hslots : type.slots = 1 := by
        rw [← VerificationType.slots_ofType, VerificationType.slots, if_neg hnarrow]
      exact (hfirst.append ih).mono (by simp [hslots])

theorem size_start (pool : ConstantPool) (receiver : Option String) (params : List FieldType) :
    (start pool receiver params).locals.size = receiver.toList.length +
    (params.map FieldType.slots).sum := by
  simp [start, length_localSlots]

theorem roomy_start (pool : ConstantPool) (receiver : Option String) (params : List FieldType) :
    Roomy (start pool receiver params).locals (start pool receiver params).locals.size := by
  have hparams := roomy_localSlots params
  rw [size_start]
  cases receiver with
  | none => exact hparams.mono (Nat.le_add_left _ _)
  | some owner =>
    have hboth := (roomy_single (.object owner)).append hparams
    rw [List.append_toArray] at hboth
    refine hboth.mono ?_
    simp [VerificationType.slots, VerificationType.isWide]

end

/-! ## 2. Limits -/

/-- The slots that the operand stack has been counted with; an exception that a handler starts with
takes one. -/
def room (a : Assembler) : Nat := max a.maxStack.toNat (if a.handlers.isEmpty then 0 else 1)

def localRoom (a : Assembler) : Nat := a.maxLocals.toNat

structure Holds (a : Assembler) (f : Frame) : Prop where
  stack : depthOf f.stack ≤ a.room
  locals : Roomy f.locals a.localRoom

/-- What is followed, what is known of the labels and what the operations use is within the
limits. -/
structure Ample (a : Assembler) (trace : List Spot) : Prop where
  here : a.Holds a.frame
  frames : ∀ l f, (a.labelState l).frame = some f → a.Holds f
  spots : ∀ s ∈ trace, s.depth ≤ a.room
  touches : ∀ op ∈ a.operations.toList, op.touches ≤ a.localRoom

structure Raises (a b : Assembler) : Prop where
  room : a.room ≤ b.room
  localRoom : a.localRoom ≤ b.localRoom

theorem Raises.ofSame (hstack : b.maxStack = a.maxStack) (hlocals : b.maxLocals = a.maxLocals)
    (hhandlers : b.handlers = a.handlers) : a.Raises b :=
  ⟨Nat.le_of_eq (by rw [Assembler.room, Assembler.room, hstack, hhandlers]),
    Nat.le_of_eq (congrArg UInt16.toNat hlocals.symm)⟩

theorem Raises.refl (a : Assembler) : a.Raises a := .ofSame rfl rfl rfl

theorem Raises.trans (h : a.Raises b) (h' : b.Raises d) : a.Raises d :=
  ⟨Nat.le_trans h.room h'.room, Nat.le_trans h.localRoom h'.localRoom⟩

theorem Holds.mono {f : Frame} (h : a.Holds f) (hb : a.Raises b) : b.Holds f :=
  ⟨Nat.le_trans h.stack hb.room, h.locals.mono hb.localRoom⟩

theorem Holds.frameUpTo (h : a.Holds a.frame) (n : Nat) : a.Holds (a.frameUpTo n) :=
  ⟨h.stack, h.locals.take n⟩

theorem Ample.extend (ha : a.Ample trace) (hb : a.Raises b) (hhere : b.Holds b.frame)
    (hframes : ∀ l f, (b.labelState l).frame = some f → (a.labelState l).frame = some f ∨ b.Holds f)
    (htouches : ∀ op ∈ b.operations.toList, op ∈ a.operations.toList ∨ op.touches ≤ b.localRoom)
    (hadding : a.Adding trace trace') : b.Ample trace' where
  here := hhere
  frames l f hf := by
    rcases hframes l f hf with hold | hnew
    · exact (ha.frames l f hold).mono hb
    · exact hnew
  spots s hs := by
    rcases hadding s hs with hold | ⟨-, hnew⟩
    · exact Nat.le_trans (ha.spots s hold) hb.room
    · exact hnew ▸ Nat.le_trans ha.here.stack hb.room
  touches op hop := by
    rcases htouches op hop with hold | hnew
    · exact Nat.le_trans (ha.touches op hold) hb.localRoom
    · exact hnew

/-! ## 3. Calls -/

/-- The counter is right as long as the depth can be counted. -/
theorem Counted.toNat_stackSlots (h : a.Counted) (hsize : depthOf a.stack ≤ 65535) :
    a.stackSlots.toNat = depthOf a.stack := by
  rw [h, UInt16.toNat_ofNat_of_lt' (Nat.lt_succ_of_le hsize)]

theorem Draws.raises {ops : List Operation} {n : Nat} {pushed : List Nat}
    (h : a.Draws b ops n pushed) : a.Raises b := by
  have hmax := UInt16.le_iff_toNat_le.mp h.maxStack.1
  refine ⟨?_, Nat.le_of_eq (congrArg UInt16.toNat h.maxLocals.symm)⟩
  unfold room
  rw [h.handlers]
  omega

theorem Draws.holds {ops : List Operation} {n : Nat} {pushed : List Nat}
    (h : a.Draws b ops n pushed) (ha : a.Holds a.frame) (hsize : depthOf b.stack ≤ 65535) :
    b.Holds b.frame := by
  refine ⟨?_, (ha.mono h.raises).locals.congr h.locals⟩
  rcases h.maxStack.2 with rfl | hcounted
  · -- values were only taken
    have hstack : widthsOf b.stack = (widthsOf a.stack).drop n := h.stack
    have hle : depthOf b.stack ≤ depthOf a.stack := by
      have hsum := congrArg List.sum (List.take_append_drop n (widthsOf a.stack))
      rw [List.sum_append, ← hstack] at hsum
      exact Nat.le.intro ((Nat.add_comm _ _).trans hsum)
    exact Nat.le_trans hle (ha.mono h.raises).stack
  · -- the count after the last push has been compared with the highest one
    rw [UInt16.le_iff_toNat_le, h.counted.toNat_stackSlots hsize] at hcounted
    exact Nat.le_trans hcounted (Nat.le_max_left _ _)

/-- A label has the frame that it had, or the one that has been brought. -/
theorem frame_of_modify {l : Label} {s : LabelState → LabelState} {f : Frame}
    (hs : ∀ t g, (s t).frame = some g → t.frame = some g ∨ g = f)
    (hb : b.labels = a.labels.modify l.index s)
    (hl : l.index < a.labels.size) (l' : Label) (g : Frame)
    (hg : (b.labelState l').frame = some g) : (a.labelState l').frame = some g ∨ g = f := by
  rw [labelState_modify hb hl] at hg
  split at hg
  next hsame =>
    subst hsame
    exact hs _ g hg
  next => exact .inl hg

theorem Ample.emit {op : Operation} (ha : a.Ample trace) (hb : a.Raises b) (hhere : b.Holds b.frame)
    (hframes : ∀ l f, (b.labelState l).frame = some f → (a.labelState l).frame = some f ∨ b.Holds f)
    (hoperations : b.operations.toList = a.operations.toList ++ [op])
    (hop : op.touches ≤ b.localRoom) (hadding : a.Adding trace trace') : b.Ample trace' := by
  refine ha.extend hb hhere hframes (fun op' hop' => ?_) hadding
  rw [hoperations] at hop'
  refine (List.mem_append.mp hop').imp_right fun hnew => ?_
  rwa [List.mem_singleton.mp hnew]

theorem le_max_ofNat (m : UInt16) {n : Nat} (hn : n ≤ 65535) :
    n ≤ (max m (UInt16.ofNat n)).toNat := by
  have hle := UInt16.le_iff_toNat_le.mp (new_le_max m (UInt16.ofNat n))
  rwa [UInt16.toNat_ofNat_of_lt' (Nat.lt_succ_of_le hn)] at hle

theorem Ample.stores {slot : UInt16} {t : FieldType} {taken : List Nat} (ha : a.Ample trace)
    (hdraws : a.Draws d [.store (.ofType t) slot] taken.length []) (hsize : depthOf d.stack ≤ 65535)
    (hslot : slot.toNat + t.slots ≤ 65535) (hadding : a.Adding trace trace') :
    (d.storing slot t).Ample trace' ∧ a.Raises (d.storing slot t) := by
  have hhere := hdraws.holds ha.here hsize
  have hraises : d.Raises (d.storing slot t) :=
    ⟨Nat.le_refl _, UInt16.le_iff_toNat_le.mp (old_le_max _ _)⟩
  have hfits : slot.toNat + t.slots ≤ (d.storing slot t).localRoom := by
    have hold : d.locals.size ≤ 65535 :=
      Nat.le_trans hhere.locals.size_le (Nat.le_of_lt_succ (UInt16.toNat_lt _))
    have hsize := size_localsAfterStore d.locals slot.toNat t
    have hlocals :=
      le_max_ofNat d.maxLocals (n := (localsAfterStore d.locals slot.toNat t).size) (by omega)
    exact Nat.le_trans (by omega) hlocals
  refine ⟨ha.emit (hdraws.raises.trans hraises)
    ⟨hhere.stack, (hhere.locals.mono hraises.localRoom).afterStore hfits⟩
    (fun l f hf => .inl (hdraws.labelState l ▸ hf)) hdraws.operations ?_ hadding,
    hdraws.raises.trans hraises⟩
  rwa [Operation.touches, ValueKind.width_ofType]

theorem Ample.allocates {t : FieldType} (ha : a.Ample trace)
    (hsize : (a.allocated t).locals.size ≤ 65535)
    (hadding : a.Adding trace trace') : (a.allocated t).Ample trace' ∧
    a.Raises (a.allocated t) := by
  have hraises : a.Raises (a.allocated t) :=
    ⟨Nat.le_refl _, UInt16.le_iff_toNat_le.mp (old_le_max _ _)⟩
  have hlocals : (a.allocated t).locals.size ≤ (a.allocated t).localRoom :=
    le_max_ofNat a.maxLocals hsize
  have hlength : (a.allocated t).locals.size = a.locals.size + t.slots := by simp [allocated]
  have hroomy : Roomy (a.allocated t).locals (a.allocated t).localRoom :=
    (ha.here.locals.append (roomy_tops t.slots)).mono
      (Nat.max_le.mpr ⟨hraises.localRoom, hlength ▸ hlocals⟩)
  exact ⟨ha.extend hraises ⟨ha.here.stack, hroomy⟩ (fun _ _ => .inl) (fun _ => .inl) hadding,
    hraises⟩

theorem Ample.label (ha : a.Ample trace) (hadding : a.Adding trace trace') :
    a.labelled.Ample trace' ∧ a.Raises a.labelled := by
  have hraises : a.Raises a.labelled := .ofSame rfl rfl rfl
  refine ⟨ha.extend hraises (ha.here.mono hraises) (fun l f hf => .inl ?_) (fun _ => .inl) hadding,
    hraises⟩
  rw [labelState_labelled] at hf
  split at hf
  next => cases hf
  next => exact hf

theorem Ample.jump {op : Operation} {l : Label} {taken : List Nat} {n : Nat} {onward : Bool}
    (ha : a.Ample trace) (hl : l.index < a.labels.size) (h : a.Jumping q d op l taken)
    (hsize : depthOf d.stack ≤ 65535) (hadding : a.Adding trace trace') :
    Ample { d.withJump op l (d.frameUpTo n) with reachable := onward } trace' ∧
      a.Raises { d.withJump op l (d.frameUpTo n) with reachable := onward } := by
  let b : Assembler := { d.withJump op l (d.frameUpTo n) with reachable := onward }
  have hraises : a.Raises b := ⟨h.draws.raises.room, h.draws.raises.localRoom⟩
  have hhere := h.draws.holds ha.here hsize
  have hbrought := hhere.frameUpTo n
  have hlabels : b.labels = a.labels.modify l.index fun s => s.target (d.frameUpTo n) := by
    rw [← h.draws.labels]
    rfl
  have hoperations : b.operations.toList = a.operations.toList ++ [op] := by
    show (d.operations.push op).toList = _
    rw [Array.toList_push, h.draws.operations, List.append_nil]
  refine ⟨ha.emit (b := b) hraises ⟨hhere.stack, hhere.locals⟩ (fun l' f hf => ?_) hoperations ?_
    hadding, hraises⟩
  · rcases frame_of_modify (fun s g hg => (LabelState.frame_target hg).imp_right And.right) hlabels
      hl l' f hf with
      hold | rfl
    · exact .inl hold
    · exact .inr ⟨hbrought.stack, hbrought.locals⟩
  · rw [h.localFree]
    exact Nat.zero_le _

theorem Ample.settle {l : Label} {f : Frame} (ha : a.Ample trace) (hl : l.index < a.labels.size)
    (hlabels : b.labels = a.labels.modify l.index fun s => s.settle a.offset (some f))
    (hsame : b.operations = a.operations ∧ b.maxStack = a.maxStack ∧ b.maxLocals = a.maxLocals ∧
      b.handlers = a.handlers) (hframe : b.frame = f) (hf : a.Holds f)
      (hadding : a.Adding trace trace') :
    b.Ample trace' ∧ a.Raises b := by
  obtain ⟨hoperations, hstack, hlocals, hhandlers⟩ := hsame
  have hraises : a.Raises b := .ofSame hstack hlocals hhandlers
  refine ⟨ha.extend hraises (hframe ▸ hf.mono hraises) (fun l' g hg => ?_)
    (fun _ h => .inl (hoperations ▸ h)) hadding, hraises⟩
  refine (frame_of_modify (f := f) (fun s g hg => ?_) hlabels hl l' g hg).imp_right fun hnew => ?_
  · cases hg
    exact .inr rfl
  · exact hnew ▸ hf.mono hraises

theorem Ample.guard {h : HandlerRange} {pool : ConstantPool} {n : Nat} {name : String}
    (ha : a.Ample trace) (hl : h.handler.index < a.labels.size) (hadding : a.Adding trace trace') :
    ({ a with pool }.withHandler h ⟨a.locals.take n, [.object name]⟩).Ample trace' ∧
      a.Raises ({ a with pool }.withHandler h ⟨a.locals.take n, [.object name]⟩) := by
  let b : Assembler := { a with pool }.withHandler h ⟨a.locals.take n, [.object name]⟩
  have hroom : b.room = max a.maxStack.toNat 1 := by
    show max a.maxStack.toNat (if (a.handlers.push h).isEmpty then 0 else 1) = _
    simp
  have hraises : a.Raises b := by
    refine ⟨?_, Nat.le_refl _⟩
    rw [hroom, room]
    split <;> omega
  refine ⟨ha.extend hraises (ha.here.mono hraises) (fun l f hf => ?_) (fun _ => .inl) hadding,
    hraises⟩
  rcases frame_of_modify (a := a) (b := b)
    (fun s g hg => (LabelState.frame_target hg).imp_right And.right) rfl hl l f hf with hold | rfl
  · exact .inl hold
  · exact .inr ⟨hroom ▸ Nat.le_max_right _ _, ((ha.here.mono hraises).locals.take n)⟩

theorem Ample.step {c : Call} (ha : a.Ample trace) (hl : ∀ l ∈ c.labels, l.index < a.labels.size)
    (hsize : depthOf b.stack ≤ 65535)
    (hcount : ∀ slot t, c = .store slot t → slot.toNat + t.slots ≤ 65535)
    (h : CallStep q a c b) (hadding : a.Adding trace trace') : b.Ample trace' ∧ a.Raises b := by
  cases h with
  | idle => exact ⟨ha.extend (.refl a) ha.here (fun _ _ => .inl) (fun _ => .inl) hadding, .refl a⟩
  | crosses h =>
    obtain ⟨op, taken, pushed, hpassage, htouches⟩ := h
    have hdraws := hpassage.draws
    refine ⟨ha.emit hdraws.raises (hdraws.holds ha.here hsize)
      (fun l f hf => .inl (hdraws.labelState l ▸ hf)) hdraws.operations ?_ hadding, hdraws.raises⟩
    exact Nat.le_trans (htouches _ ha.here.locals) hdraws.raises.localRoom
  | stores hpassage => exact ha.stores hpassage.draws hsize (hcount _ _ rfl) hadding
  | allocates hlocals => exact ha.allocates hlocals hadding
  -- dropped locals keep their room
  | @truncates length =>
    have hraises : a.Raises (a.truncated length) := .ofSame rfl rfl rfl
    exact ⟨ha.extend hraises ⟨ha.here.stack, ha.here.locals.take length⟩ (fun _ _ => .inl)
      (fun _ => .inl) hadding, hraises⟩
  | @returns t d hdraws =>
    have hraises : a.Raises d.left := ⟨hdraws.raises.room, hdraws.raises.localRoom⟩
    have hlocals := (ha.here.mono hraises).locals.congr hdraws.locals
    exact ⟨ha.emit hraises ⟨Nat.zero_le _, hlocals⟩ (fun l f hf => .inl (hdraws.labelState l ▸ hf))
      hdraws.operations (Nat.zero_le _) hadding, hraises⟩
  | makes => exact ha.label hadding
  | jumps hjumped hedge =>
    exact ha.jump (hl _ (Call.mem_labels_of_edge hedge)) hjumped hsize hadding
  | @resumes l f _ hknown =>
    exact ha.settle (hl l List.mem_cons_self) rfl ⟨rfl, rfl, rfl, rfl⟩ rfl (ha.frames l f hknown)
      hadding
  | @marks l n =>
    exact ha.settle (hl l List.mem_cons_self) rfl ⟨rfl, rfl, rfl, rfl⟩ rfl (ha.here.frameUpTo n)
      hadding
  -- no frame is known, and none is needed
  | @passesBy l =>
    have hraises : a.Raises (a.passedBy l) := .ofSame rfl rfl rfl
    refine ⟨ha.extend hraises (ha.here.mono hraises) (fun l' f hf => .inl ?_) (fun _ => .inl)
      hadding, hraises⟩
    rw [labelState_passedBy (hl l List.mem_cons_self)] at hf
    split at hf
    next => cases hf
    next => exact hf
  | @guards start stop handler =>
    exact ha.guard (h := ⟨start, stop, handler, _⟩) (hl handler (by simp [Call.labels])) hadding

end Assembler

/-! ## 4. Runs -/

namespace Assembly

open Assembler

/-- The depth that the call leaves can be counted in sixteen bits, and so can the slots that it
stores to. -/
def Call.Countable (a : Assembler) (c : Call) : Prop :=
  depthOf (c.run.run.run a).2.stack ≤ 65535 ∧
    match c with
    | .store slot t => slot.toNat + t.slots ≤ 65535
    | _ => True

instance (a : Assembler) : (c : Call) → Decidable (c.Countable a)
  | .store .. => inferInstanceAs (Decidable (_ ∧ _ ≤ _))
  | .allocateLocal _ | .truncateLocals _ | .newLabel | .place _ | .aconstNull | .iconst _ | .lconst
      _ | .ldcString _
  | .ldcClass _ | .load .. | .getField .. | .getStatic .. | .invoke .. | .newObject _ | .checkcast _
      | .instanceOf _
  | .dup | .popValue | .swap | .lcmp | .add _ | .widen .. | .branch .. | .goto _ | .returnValue _
    | .addHandler .. =>
    inferInstanceAs (Decidable (_ ∧ True))

variable {q : ConstantPool} {a b : Assembler} {trace : List Spot}

theorem ample_start (pool : ConstantPool) {receiver : Option String} {params : List FieldType}
    (hparams : receiver.toList.length + (params.map FieldType.slots).sum ≤ 65535) :
    (start pool receiver params).Ample [] ∧
      (start pool receiver params).localRoom = receiver.toList.length +
        (params.map FieldType.slots).sum := by
  have hroom : (start pool receiver params).localRoom = receiver.toList.length +
      (params.map FieldType.slots).sum := by
    show (UInt16.ofNat (start pool receiver params).locals.size).toNat = _
    rw [size_start, UInt16.toNat_ofNat_of_lt' (Nat.lt_succ_of_le hparams)]
  have hlocals := roomy_start pool receiver params
  rw [size_start, ← hroom] at hlocals
  exact ⟨⟨⟨Nat.zero_le _, hlocals⟩, nofun, nofun, nofun⟩, hroom⟩

/-- The counters of the slots are right. -/
def Exact (a : Assembler) : Prop :=
  a.stackSlots.toNat = depthOf a.stack ∧ a.locals.size ≤ a.maxLocals.toNat

theorem exact_of_ample (ha : a.Ample trace) (hcounted : a.Counted) : Exact a := by
  have hroom : a.room ≤ 65535 := by
    have hmax := a.maxStack.toNat_lt
    unfold room
    split <;> omega
  exact ⟨hcounted.toNat_stackSlots (Nat.le_trans ha.here.stack hroom), ha.here.locals.size_le⟩

/-- All through a run whose slots can be counted what is followed is within the limits. -/
theorem ample_runAll {calls : List Call} (ha : Tracked q a trace) (hample : a.Ample trace)
    (hl : Named a.labels.size calls)
    (hcalls : Throughout (fun a c => Sound a c ∧ c.Countable a) a calls)
    (h : (runAll calls).run.run a = (.ok ⟨⟩, b)) (hq : b.pool ≤ q) :
    (∃ trace', Tracked q b trace' ∧ b.Ample trace' ∧ a.Raises b) ∧
    Throughout (fun a _ => Exact a) a calls := by
  have hnamed : Named a.labels.size (calls ++ []) := by rwa [List.append_nil]
  have hall : Throughout (fun a c => Sound a c ∧ c.Countable a) a (calls ++ []) := by
    rwa [List.append_nil]
  have hrun :=
    runAll_preserves (P := fun b => ∃ trace', Tracked q b trace' ∧ b.Ample trace' ∧ a.Raises b)
    (H := fun a c => Sound a c ∧ c.Countable a) ?_ ⟨trace, ha, hample, .refl a⟩ hnamed hall h hq
  · exact ⟨hrun.1, hrun.2.1.imp fun b _ ⟨_, hb, hample, _⟩ => exact_of_ample hample hb.counted⟩
  · rintro b c d ⟨trace, hb, hample, hraises⟩ ⟨⟨hfits, hagrees⟩, hcount⟩ hl hrun hq
    obtain ⟨⟨trace', hd, hadding⟩, hsize⟩ := hb.step hfits hagrees hl hrun hq
    have hstep := c.callStep hb.counted hb.pool hl hfits hq hrun
    have hdepth := hcount.1
    rw [hrun] at hdepth
    obtain ⟨hample', hraises'⟩ :=
      hample.step hl hdepth (by rintro slot t rfl; exact hcount.2) hstep hadding
    exact ⟨⟨trace', hd, hample', hraises.trans hraises'⟩, hsize⟩

end Assembly

end MethodGraft.Code
