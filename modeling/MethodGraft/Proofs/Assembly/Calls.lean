import MethodGraft.Proofs.Assembly.Control
import MethodGraft.Proofs.Assembly.Requests
import MethodGraft.Proofs.Machine.Decode

/-!
# Proofs.Assembly.Calls — what holds of a body after any calls

Code generation makes its calls in an order of its own.  What is shown here needs none: calls may
come in any order, as long as each succeeds and names labels that were made before.  Then operations
stand one after the other, labels stand where an operation begins or the code ends, and a label is
wanted if and only if a jump or a handler leads to it.
-/

namespace MethodGraft.Code

open ClassFile Assembly

def Full (stack : List VerificationType) : Prop := ∀ t ∈ stack, t ≠ .top

theorem full_cons {t : VerificationType} {stack : List VerificationType} :
    Full (t :: stack) ↔ t ≠ .top ∧ Full stack := List.forall_mem_cons

namespace Assembler

variable {α β : Type} {a b c : Assembler} {l : Label} {op : Operation} {f : Frame}

/-! ## 1. Steps that lead straight on -/

structure Continues (a b : Assembler) : Prop where
  operations : ∃ ops, b.operations.toList = a.operations.toList ++ ops ∧
    b.offset = a.offset + (ops.map Operation.size).sum ∧ ∀ op ∈ ops, op.InRange ∧ op.target? = none
  labels : b.labels = a.labels
  handlers : b.handlers = a.handlers
  stack : Full b.stack

theorem Continues.refl (h : Full a.stack) : a.Continues a :=
  ⟨⟨[], (List.append_nil _).symm, rfl, by simp⟩, rfl, rfl, h⟩

theorem Continues.trans (hab : a.Continues b) (hbc : b.Continues c) : a.Continues c := by
  obtain ⟨ops, hops, hoffset, hall⟩ := hab.operations
  obtain ⟨ops', hops', hoffset', hall'⟩ := hbc.operations
  refine ⟨⟨ops ++ ops', ?_, ?_, ?_⟩, hbc.labels.trans hab.labels, hbc.handlers.trans hab.handlers,
    hbc.stack⟩
  · rw [hops', hops, List.append_assoc]
  · rw [hoffset', hoffset, List.map_append, List.sum_append, Nat.add_assoc]
  · exact List.forall_mem_append.mpr ⟨hall, hall'⟩

/-- Where no operation is added. -/
theorem Continues.ofSame (hoperations : b.operations = a.operations) (hoffset : b.offset = a.offset)
    (hlabels : b.labels = a.labels) (hhandlers : b.handlers = a.handlers) (hstack : Full b.stack) :
    a.Continues b :=
  ⟨⟨[], by rw [hoperations, List.append_nil], hoffset, by simp⟩, hlabels, hhandlers, hstack⟩

/-- A step that adds operations which lead straight on; its result has the property `Q`. -/
def Adds (x : Assembly α) (Q : α → Prop) : Prop :=
  ∀ (a : Assembler) r b, Full a.stack → x.run.run a = (.ok r, b) → a.Continues b ∧ Q r

namespace Adds

variable {x : Assembly α} {P Q : α → Prop}

theorem ofPure {r : α} (h : Q r) : Adds (pure r) Q := by
  intro a r' b ha hrun
  cases hrun
  exact ⟨.refl ha, h⟩

theorem ofThrow {e : Error} : Adds (throw e : Assembly α) Q := by
  intro a r b _ hrun
  cases hrun

theorem ofGet : Adds (get : Assembly Assembler) fun _ => True := by
  intro a r b ha hrun
  cases hrun
  exact ⟨.refl ha, trivial⟩

theorem ofModify {g : Assembler → Assembler}
    (h : ∀ a : Assembler, Full a.stack → a.Continues (g a)) :
    Adds (modify g : Assembly PUnit) fun _ => True := by
  intro a r b ha hrun
  cases hrun
  exact ⟨h a ha, trivial⟩

theorem bind {g : α → Assembly β} {R : β → Prop} (hx : Adds x P) (hg : ∀ r, P r → Adds (g r) R) :
    Adds (x >>= g) R := by
  intro a r b ha hrun
  obtain ⟨r', t, hxrun, hgrun⟩ := run_bind_eq_ok.mp hrun
  obtain ⟨hstraight, hr'⟩ := hx a r' t ha hxrun
  obtain ⟨hstraight', hr⟩ := hg r' hr' t r b hstraight.stack hgrun
  exact ⟨hstraight.trans hstraight', hr⟩

/-- What the first step gives does not matter. -/
theorem andThen {g : α → Assembly β} {R : β → Prop} (hx : Adds x P) (hg : ∀ r, Adds (g r) R) :
    Adds (x >>= g) R :=
  hx.bind fun r _ => hg r

/-- A fault that is reported if `p` holds. -/
theorem refusing {p : Prop} [Decidable p] {e : Error} {g : β → Assembly α} (hx : Adds x Q) :
    Adds (if p then throw e >>= g else x) Q := by
  intro a r b ha hrun
  exact hx a r b ha (run_refusing_eq_ok hrun).2

theorem ofIf {p : Prop} [Decidable p] {y : Assembly α} (hx : Adds x Q) (hy : Adds y Q) :
    Adds (if p then x else y) Q := by
  split
  · exact hx
  · exact hy

end Adds

/-- An operation is added where control is, and nothing else happens. -/
theorem run_emit_eq_ok (h : (emit op).run.run a = (.ok ⟨⟩, b)) : a.reachable = true ∧
    b = { a with operations := a.operations.push op, offset := a.offset + op.size } := by
  by_cases hreach : a.reachable = true
  · rw [run_emit hreach] at h
    cases h
    exact ⟨hreach, rfl⟩
  · unfold emit at h
    rw [run_get_bind, if_pos (by simpa using hreach)] at h
    cases h

theorem adds_emit (hrange : op.InRange) (htarget : op.target? = none) :
    Adds (emit op) fun _ => True := by
  intro a r b ha hrun
  obtain ⟨-, rfl⟩ := run_emit_eq_ok hrun
  refine ⟨⟨⟨[op], ?_, ?_, ?_⟩, rfl, rfl, ha⟩, trivial⟩
  · exact Array.toList_push
  · show a.offset + op.size = a.offset + (op.size + 0)
    rw [Nat.add_zero]
  · simpa using ⟨hrange, htarget⟩

theorem adds_push {t : VerificationType} (ht : t ≠ .top) : Adds (push t) fun _ => True :=
  .ofModify fun _ ha => .ofSame rfl rfl rfl rfl (full_cons.mpr ⟨ht, ha⟩)

theorem adds_pop : Adds pop fun t => t ≠ .top := by
  intro a t b ha hrun
  unfold pop at hrun
  rw [run_get_bind] at hrun
  split at hrun
  next t' rest hstack =>
    rw [hstack] at ha
    cases hrun
    exact ⟨.ofSame rfl rfl rfl rfl (full_cons.mp ha).2, (full_cons.mp ha).1⟩
  next => cases hrun

theorem adds_popMany (n : Nat) : Adds (popMany n) fun _ => True := by
  induction n with
  | zero => exact .ofPure trivial
  | succ n ih => exact adds_pop.andThen fun _ => ih

theorem run_intern_eq_ok {x : Interning α} {r : α} (h : (intern x).run.run a = (.ok r, b)) :
    ∃ pool, x.run.run a.pool = (.ok r, pool) ∧ b = { a with pool } := by
  have hintern :
    (intern x).run.run a = ((x.run.run a.pool).1, { a with pool := (x.run.run a.pool).2 }) := rfl
  obtain ⟨hresult, rfl⟩ := Prod.mk.inj (hintern.symm.trans h)
  exact ⟨_, Prod.ext hresult rfl, rfl⟩

theorem pool_le_of_requests {x : Assembly α} (hx : Requests x) {r : α}
    (h : x.run.run a = (.ok r, b)) : a.pool ≤ b.pool := by
  have hle := hx.le a
  rwa [h] at hle

theorem adds_intern (x : Interning α) : Adds (intern x) fun _ => True := by
  intro a r b ha hrun
  obtain ⟨pool, -, rfl⟩ := run_intern_eq_ok hrun
  exact ⟨.ofSame rfl rfl rfl rfl ha, trivial⟩

/-! ## 2. Calls that lead straight on -/

theorem ofType_ne_top (t : FieldType) : VerificationType.ofType t ≠ .top := by
  cases t <;> nofun

theorem adds_allocateLocal (t : FieldType) : Adds (allocateLocal t) fun _ => True := by
  unfold allocateLocal
  refine .andThen .ofGet fun a =>
    .andThen (.ofModify fun _ ha => .ofSame rfl rfl rfl rfl ha) fun _ => ?_
  refine .andThen .ofGet fun b => .refusing ?_
  exact .andThen (.ofModify fun _ ha => .ofSame rfl rfl rfl rfl ha) fun _ => .ofPure trivial

theorem adds_truncateLocals (length : Nat) : Adds (truncateLocals length) fun _ => True :=
  .ofModify fun _ ha => .ofSame rfl rfl rfl rfl ha

/-- An instruction that pushes a value. -/
theorem adds_pushing {t : VerificationType} (hrange : op.InRange) (htarget : op.target? = none)
    (ht : t ≠ .top) : Adds (do emit op; push t) fun _ => True :=
  (adds_emit hrange htarget).andThen fun _ => adds_push ht

/-- An instruction that takes a value and pushes another. -/
theorem adds_replacing {t : VerificationType} (hrange : op.InRange) (htarget : op.target? = none)
    (ht : t ≠ .top) : Adds (do emit op; let _ ← pop; push t) fun _ => True :=
  (adds_emit hrange htarget).andThen fun _ => adds_pop.andThen fun _ => adds_push ht

/-- An instruction that takes two values and pushes another. -/
theorem adds_joining {t : VerificationType} (hrange : op.InRange) (htarget : op.target? = none)
    (ht : t ≠ .top) : Adds (do emit op; popMany 2; push t) fun _ => True :=
  (adds_emit hrange htarget).andThen fun _ => (adds_popMany 2).andThen fun _ => adds_push ht

theorem adds_loadConstant (index : UInt16) : Adds (loadConstant index) fun _ => True := by
  unfold loadConstant
  split
  · exact adds_emit (by nofun) rfl
  · exact adds_emit (by nofun) rfl

theorem adds_iconst (value : Int32) : Adds (iconst value) fun _ => True := by
  unfold iconst
  dsimp only
  split
  next h => exact adds_pushing (by rintro v ⟨⟩; exact toInt8_inRange h) rfl nofun
  next =>
    refine .ofIf (adds_pushing (by nofun) rfl nofun) (.ofIf (adds_pushing (by nofun) rfl nofun) ?_)
    exact (adds_intern _).andThen fun _ => (adds_loadConstant _).andThen fun _ => adds_push nofun

theorem adds_lconst (value : Int64) : Adds (lconst value) fun _ => True := by
  unfold lconst
  dsimp only
  refine .ofIf (adds_pushing (by nofun) rfl nofun) (.ofIf (adds_pushing (by nofun) rfl nofun) ?_)
  exact (adds_intern _).andThen fun _ => adds_pushing (by nofun) rfl nofun

theorem adds_load (slot : UInt16) (t : FieldType) : Adds (load slot t) fun _ => True := by
  refine (adds_emit (by nofun) rfl).andThen fun _ => .andThen .ofGet fun a => ?_
  split
  next => exact .ofThrow
  next => exact .ofThrow
  next hne _ => exact adds_push hne

theorem adds_store (slot : UInt16) (t : FieldType) : Adds (store slot t) fun _ => True :=
  (adds_emit (by nofun) rfl).andThen fun _ =>
    adds_pop.andThen fun _ => .ofModify fun _ ha => .ofSame rfl rfl rfl rfl ha

theorem adds_markInitialized (receiver : VerificationType) (owner : String) :
    Adds (markInitialized receiver owner) fun _ => True := by
  refine .ofModify fun a ha => .ofSame rfl rfl rfl rfl fun t ht => ?_
  obtain ⟨t', ht', rfl⟩ := List.mem_map.mp ht
  -- an initialized object takes the place of every copy; the other entries stay
  split
  · nofun
  · exact ha t' ht'

theorem adds_invoke (kind : InvokeKind) (owner name : String) (type : MethodDescriptor)
    (onInterface : Bool) : Adds (invoke kind owner name type onInterface) fun _ => True := by
  unfold invoke
  refine (adds_intern _).andThen fun index =>
    .refusing ((adds_emit (by nofun) rfl).andThen fun _ => ?_)
  refine (adds_popMany _).andThen fun _ => .ofIf (adds_pop.andThen fun receiver => ?_) ?_
  · refine .ofIf ((adds_markInitialized receiver owner).andThen fun _ => ?_) ?_
    all_goals
      split
      · exact adds_push (ofType_ne_top _)
      · exact .ofPure trivial
  · split
    · exact adds_push (ofType_ne_top _)
    · exact .ofPure trivial

theorem adds_newObject (name : String) : Adds (newObject name) fun _ => True :=
  (adds_intern _).andThen fun _ => .andThen .ofGet fun _ => adds_pushing (by nofun) rfl nofun

theorem adds_dup : Adds dup fun _ => True :=
  (adds_emit (by nofun) rfl).andThen fun _ => adds_pop.bind fun _ ht =>
    .refusing ((adds_push ht).andThen fun _ => adds_push ht)

theorem adds_popValue : Adds popValue fun _ => True := by
  refine .andThen .ofGet fun a => ?_
  split
  · exact .andThen .ofGet fun _ => .ofThrow
  next t _ _ =>
    have hemit : Adds (emit (if t.isWide then .pop2 else .pop)) fun _ => True := by
      split <;> exact adds_emit (by nofun) rfl
    exact hemit.andThen fun _ => adds_pop.andThen fun _ => .ofPure trivial

theorem adds_swap : Adds swap fun _ => True :=
  (adds_emit (by nofun) rfl).andThen fun _ => adds_pop.bind fun _ ht => adds_pop.bind fun _ hu =>
    .refusing ((adds_push ht).andThen fun _ => adds_push hu)

theorem adds_add (t : FieldType) : Adds (add t) fun _ => True := by
  unfold add
  split
  · exact adds_joining (by nofun) rfl nofun
  · exact adds_joining (by nofun) rfl nofun
  · exact .ofThrow

theorem adds_widen (source target : FieldType) : Adds (widen source target) fun _ => True := by
  unfold widen
  refine .ofIf (.ofPure trivial) ?_
  split
  · exact adds_replacing (by nofun) rfl (ofType_ne_top _)
  · exact .ofThrow

theorem adds_returnValue (t : Option FieldType) : Adds (returnValue t) fun _ => True := by
  have hend :
      Adds
      (modify fun a => { a with reachable := false, stack := [], stackSlots := 0 } : Assembly PUnit)
      fun _ => True := .ofModify fun a _ => .ofSame rfl rfl rfl rfl nofun
  unfold returnValue
  exact (adds_emit (by nofun) rfl).andThen fun _ => .ofIf (adds_pop.andThen fun _ => hend) hend

/-! ## 3. Bodies -/

def LeadsTo (a : Assembler) (l : Label) : Prop :=
  (∃ op ∈ a.operations.toList, op.target? = some l) ∨ ∃ h ∈ a.handlers.toList, h.handler = l

def Boundary (a : Assembler) (p : Nat) : Prop :=
  ∃ before after, a.operations.toList = before ++ after ∧ p = (before.map Operation.size).sum

/-- What holds of a body after any calls. -/
structure Consistent (a : Assembler) : Prop where
  offset : a.offset = (a.operations.toList.map Operation.size).sum
  inRange : ∀ op ∈ a.operations.toList, op.InRange
  stack : Full a.stack
  placed : ∀ l p, (a.labelState l).position = some p → a.Boundary p
  frames : ∀ l f, (a.labelState l).frame = some f → Full f.stack
  framed : ∀ l, (a.labelState l).targeted = true → (a.labelState l).frame.isSome
  targeted : ∀ l, (a.labelState l).targeted = true ↔ a.LeadsTo l

inductive LabelChange (a b : Assembler) (l : Label) : Prop
  | kept (leads : b.LeadsTo l ↔ a.LeadsTo l) (state : b.labelState l = a.labelState l)
  | made {n : Nat} (unaimed : ¬b.LeadsTo l) (state : b.labelState l = { localsLength := n })
  | aimed {f : Frame} (leads : b.LeadsTo l) (full : Full f.stack)
      (state : b.labelState l = (a.labelState l).target f)
  | settled {f : Option Frame} (leads : b.LeadsTo l ↔ a.LeadsTo l)
      (full : ∀ g, f = some g → Full g.stack) (known : (a.labelState l).targeted = true → f.isSome)
      (state : b.labelState l = (a.labelState l).settle a.offset f)

structure Advances (a b : Assembler) : Prop where
  operations : ∃ ops, b.operations.toList = a.operations.toList ++ ops ∧
    b.offset = a.offset + (ops.map Operation.size).sum ∧ ∀ op ∈ ops, op.InRange
  stack : Full b.stack
  label : ∀ l, LabelChange a b l

theorem leadsTo_append (ops : List Operation) (hs : List HandlerRange)
    (hoperations : b.operations.toList = a.operations.toList ++ ops)
    (hhandlers : b.handlers.toList = a.handlers.toList ++ hs) (l : Label) :
    b.LeadsTo l ↔ a.LeadsTo l ∨ (∃ op ∈ ops, op.target? = some l) ∨ ∃ h ∈ hs, h.handler = l := by
  simp only [LeadsTo, hoperations, hhandlers, List.mem_append, or_and_right, exists_or]
  exact or_or_or_comm

theorem leadsTo_congr (hoperations : b.operations = a.operations)
    (hhandlers : b.handlers = a.handlers) (l : Label) : b.LeadsTo l ↔ a.LeadsTo l := by
  unfold LeadsTo
  rw [hoperations, hhandlers]

theorem Boundary.mono {p : Nat} (h : a.Boundary p) {ops : List Operation}
    (hoperations : b.operations.toList = a.operations.toList ++ ops) : b.Boundary p := by
  obtain ⟨before, after, hsplit, hp⟩ := h
  exact ⟨before, after ++ ops, by rw [hoperations, hsplit, List.append_assoc], hp⟩

/-- A body before any call. -/
theorem consistent_start (pool : ConstantPool) (receiver : Option String)
    (params : List FieldType) : (start pool receiver params).Consistent where
  offset := rfl
  inRange _ h := by cases h
  stack := nofun
  placed _ _ h := by cases h
  frames _ _ h := by cases h
  framed _ h := by cases h
  targeted _ := ⟨nofun, by rintro (⟨_, h, -⟩ | ⟨_, h, -⟩) <;> cases h⟩

/-- A call leaves a body consistent. -/
theorem Consistent.advances (ha : a.Consistent) (h : a.Advances b) : b.Consistent := by
  obtain ⟨ops, hoperations, hoffset, hrange⟩ := h.operations
  refine ⟨?_, ?_, h.stack, fun l p hp => ?_, fun l f hf => ?_, fun l ht => ?_, fun l => ?_⟩
  -- operations are only added, and the rest is about one label: what a call did to it decides
  · rw [hoffset, hoperations, ha.offset, List.map_append, List.sum_append]
  · rw [hoperations]
    exact List.forall_mem_append.mpr ⟨ha.inRange, hrange⟩
  · cases h.label l with
    | kept _ state => exact (ha.placed l p (by rwa [state] at hp)).mono hoperations
    | made _ state =>
      rw [state] at hp
      cases hp
    | aimed _ _ state => exact (ha.placed l p (by rwa [state] at hp)).mono hoperations
    -- a label is placed where the code ended before the call: all of it stands before the label
    | settled _ _ _ state =>
      rw [state] at hp
      exact ⟨a.operations.toList, ops, hoperations, (Option.some.inj hp).symm.trans ha.offset⟩
  · cases h.label l with
    | kept _ state => exact ha.frames l f (by rwa [state] at hf)
    | made _ state =>
      rw [state] at hf
      cases hf
    | aimed _ full state =>
      rw [state] at hf
      -- the first jump to a label gives it its frame; a later one leaves that frame as it is
      rcases LabelState.frame_target hf with hold | ⟨-, rfl⟩
      · exact ha.frames l f hold
      · exact full
    | settled _ full _ state =>
      rw [state] at hf
      exact full f hf
  · cases h.label l with
    | kept _ state =>
      rw [state] at ht ⊢
      exact ha.framed l ht
    | made _ state =>
      rw [state] at ht
      cases ht
    | aimed _ _ state =>
      rw [state]
      rfl
    | settled _ _ known state =>
      rw [state] at ht ⊢
      exact known ht
  · cases h.label l with
    | kept leads state => rw [state, leads, ha.targeted]
    | made unaimed state =>
      rw [state]
      exact ⟨nofun, fun hleads => absurd hleads unaimed⟩
    | aimed leads _ state =>
      rw [state]
      exact ⟨fun _ => leads, fun _ => rfl⟩
    | settled leads _ _ state =>
      rw [state, leads]
      exact ha.targeted l

/-! ## 4. Calls -/

theorem Continues.advances (h : a.Continues b) : a.Advances b := by
  obtain ⟨ops, hoperations, hoffset, hall⟩ := h.operations
  refine ⟨⟨ops, hoperations, hoffset, fun op hop => (hall op hop).1⟩, h.stack, fun l => .kept ?_ ?_⟩
  · rw [leadsTo_append ops [] hoperations (by rw [h.handlers, List.append_nil])]
    -- what leads straight on names no label, so nothing leads anywhere new
    have hnone : ¬∃ op ∈ ops, op.target? = some l := by
      rintro ⟨op, hop, htarget⟩
      rw [(hall op hop).2] at htarget
      cases htarget
    simp [hnone]
  · rw [labelState, h.labels]
    rfl

theorem advances_labelled (ha : a.Consistent) : a.Advances a.labelled := by
  refine ⟨⟨[], (List.append_nil _).symm, rfl, by simp⟩, ha.stack, fun l => ?_⟩
  have hleads : a.labelled.LeadsTo l ↔ a.LeadsTo l := leadsTo_congr rfl rfl l
  by_cases hl : l.index = a.labels.size
  -- a label not made yet is not targeted, so by consistency nothing leads to it
  · refine .made (fun h => ?_) ((labelState_labelled l).trans (if_pos hl))
    have htargeted := (ha.targeted l).mpr (hleads.mp h)
    rw [labelState_unmade (Nat.le_of_eq hl.symm)] at htargeted
    cases htargeted
  · exact .kept hleads ((labelState_labelled l).trans (if_neg hl))

def withJump (a : Assembler) (op : Operation) (l : Label) (f : Frame) : Assembler :=
  { a with
    operations := a.operations.push op
    offset := a.offset + op.size
    labels := a.labels.modify l.index fun s => s.target f }

def withHandler (a : Assembler) (h : HandlerRange) (f : Frame) : Assembler :=
  { a with
    labels := a.labels.modify h.handler.index fun s => s.target f
    handlers := a.handlers.push h }

def frameUpTo (a : Assembler) (n : Nat) : Frame := ⟨a.locals.take n, a.stack⟩

theorem run_frameFor_eq_ok (h : (frameFor l).run.run a = (.ok f, b)) :
    b = a ∧ f = a.frameUpTo (a.labelState l).localsLength := by
  cases h
  exact ⟨rfl, rfl⟩

theorem run_jump_eq_ok (hl : l.index < a.labels.size) (h : (jump op l).run.run a = (.ok ⟨⟩, b)) :
    a.reachable = true ∧ b = a.withJump op l (a.frameUpTo (a.labelState l).localsLength) := by
  unfold jump at h
  obtain ⟨_, t, hemit, h⟩ := run_bind_eq_ok.mp h
  obtain ⟨hreach, rfl⟩ := run_emit_eq_ok hemit
  obtain ⟨f, t, hframe, h⟩ := run_bind_eq_ok.mp h
  obtain ⟨rfl, rfl⟩ := run_frameFor_eq_ok hframe
  exact ⟨hreach, run_recordFrame_eq_ok (a := { a with
    operations := a.operations.push op, offset := a.offset + op.size }) hl h⟩

/-- What is added leads to one label, which gets the frame. -/
theorem labelChange_target (hl : l.index < a.labels.size) (hf : Full f.stack)
    (hlabels : b.labels = a.labels.modify l.index fun s => s.target f)
    (hleads : ∀ l', b.LeadsTo l' ↔ a.LeadsTo l' ∨ l = l') (l' : Label) : LabelChange a b l' := by
  have hstate := labelState_modify (b := b) (f := fun s => s.target f) hlabels hl l'
  by_cases hsame : l' = l
  · subst hsame
    exact .aimed ((hleads l').mpr (.inr rfl)) hf (hstate.trans (if_pos rfl))
  · refine .kept ?_ (hstate.trans (if_neg hsame))
    rw [hleads, or_iff_left (Ne.symm hsame)]

theorem advances_withJump (ha : Full a.stack) (hl : l.index < a.labels.size)
    (hop : op.target? = some l) (hrange : op.InRange) (hf : Full f.stack) :
    a.Advances (a.withJump op l f) := by
  refine ⟨⟨[op], Array.toList_push, ?_, by simpa using hrange⟩, ha,
    labelChange_target hl hf rfl fun l' => ?_⟩
  · rw [List.map_singleton, List.sum_singleton]
    rfl
  · rw [leadsTo_append (a := a) (b := a.withJump op l f) [op] [] Array.toList_push
      (List.append_nil _).symm]
    simp [hop]

theorem advances_withHandler {h : HandlerRange} (ha : Full a.stack)
    (hl : h.handler.index < a.labels.size)
    (hf : Full f.stack) : a.Advances (a.withHandler h f) := by
  refine ⟨⟨[], (List.append_nil _).symm, rfl, by simp⟩, ha,
    labelChange_target hl hf rfl fun l' => ?_⟩
  rw [leadsTo_append (a := a) (b := a.withHandler h f) [] [h] (List.append_nil _).symm
    Array.toList_push]
  simp

/-- Where a label is placed, control goes on with the frame that is known, or where it comes from
before, or not. -/
theorem run_place_cases (h : (place l).run.run a = (.ok ⟨⟩, b)) : (a.labelState l).position = none ∧
    ((∃ g, (a.labelState l).frame = some g ∧ b = a.placed l g) ∨
      (∃ n, (a.labelState l).frame = none ∧ a.reachable = true ∧ b = { a with
        labels := a.labels.modify l.index fun s => s.settle a.offset (some (a.frameUpTo n))
        locals := a.locals.take n }) ∨
      ((a.labelState l).frame = none ∧ a.reachable = false ∧ b = a.passedBy l)) := by
  have hunplaced : (a.labelState l).position = none := by
    unfold place at h
    rw [run_get_bind] at h
    simpa using (run_refusing_eq_ok h).1
  refine ⟨hunplaced, ?_⟩
  rw [run_place hunplaced] at h
  cases hg : (a.labelState l).frame with
  | some g =>
    rw [hg] at h
    dsimp only at h
    split at h
    next => cases h
    next =>
      cases h
      exact .inl ⟨g, rfl, rfl⟩
  | none =>
    rw [hg] at h
    dsimp only at h
    by_cases hreach : a.reachable = true
    · rw [if_pos hreach] at h
      cases h
      exact .inr (.inl ⟨_, rfl, hreach, rfl⟩)
    · rw [if_neg hreach] at h
      cases h
      exact .inr (.inr ⟨rfl, by simpa using hreach, rfl⟩)

/-- The label gets the frame that control goes on with, if it does. -/
theorem run_place_eq_ok (ha : a.Consistent)
    (h : (place l).run.run a = (.ok ⟨⟩, b)) : ∃ f : Option Frame,
      b.labels = (a.labels.modify l.index fun s => s.settle a.offset f) ∧
      (b.operations = a.operations ∧ b.offset = a.offset ∧ b.handlers = a.handlers) ∧ Full b.stack ∧
      (∀ g, f = some g → Full g.stack) ∧ ((a.labelState l).targeted = true → f.isSome) := by
  obtain ⟨-, ⟨g, hg, rfl⟩ | ⟨n, -, -, rfl⟩ | ⟨hnone, -, rfl⟩⟩ := run_place_cases h
  · have hfull : Full g.stack := ha.frames l g hg
    exact ⟨some g, rfl, ⟨rfl, rfl, rfl⟩, hfull, by rintro _ ⟨⟩; exact hfull, fun _ => rfl⟩
  · exact ⟨some (a.frameUpTo n), rfl, ⟨rfl, rfl, rfl⟩, ha.stack, by rintro _ ⟨⟩; exact ha.stack,
      fun _ => rfl⟩
  -- control does not come here and nothing is known: then no jump can have come either, for it
  -- would have left its frame
  · refine ⟨none, rfl, ⟨rfl, rfl, rfl⟩, ha.stack, nofun, fun ht => ?_⟩
    have hframed := ha.framed l ht
    rwa [hnone] at hframed

theorem advances_place (ha : a.Consistent) (hl : l.index < a.labels.size)
    (h : (place l).run.run a = (.ok ⟨⟩, b)) : a.Advances b ∧ b.labels.size = a.labels.size := by
  obtain ⟨f, hlabels, ⟨hoperations, hoffset, hhandlers⟩, hstack, hfull, hknown⟩ :=
    run_place_eq_ok ha h
  refine ⟨⟨⟨[], by rw [hoperations, List.append_nil], hoffset, by simp⟩, hstack, fun l' => ?_⟩, ?_⟩
  · have hleads := leadsTo_congr hoperations hhandlers l'
    have hstate := labelState_modify (f := fun s => s.settle a.offset f) hlabels hl l'
    by_cases hsame : l' = l
    · subst hsame
      exact .settled hleads hfull hknown (hstate.trans (if_pos rfl))
    · exact .kept hleads (hstate.trans (if_neg hsame))
  · rw [hlabels, Array.size_modify]

theorem consistent_jump (ha : a.Consistent) (hl : l.index < a.labels.size)
    (hop : op.target? = some l) (hrange : op.InRange) (h : (jump op l).run.run a = (.ok ⟨⟩, b)) :
    b.Consistent ∧ b.labels.size = a.labels.size := by
  obtain ⟨-, rfl⟩ := run_jump_eq_ok hl h
  exact ⟨ha.advances (advances_withJump ha.stack hl hop hrange ha.stack), Array.size_modify⟩

theorem consistent_branch {test : Test} (ha : a.Consistent) (hl : l.index < a.labels.size)
    (h : (branch test l).run.run a = (.ok ⟨⟩, b)) :
    b.Consistent ∧ b.labels.size = a.labels.size := by
  unfold branch at h
  rw [run_get_bind] at h
  dsimp only at h
  split at h
  next => cases h
  next =>
    obtain ⟨_, t, hpops, h⟩ := run_bind_eq_ok.mp h
    obtain ⟨hstraight, -⟩ := adds_popMany _ a _ t ha.stack hpops
    have hjump :=
      consistent_jump (ha.advances hstraight.advances) (by rwa [hstraight.labels]) rfl (by nofun) h
    rwa [hstraight.labels] at hjump

theorem consistent_goto (ha : a.Consistent) (hl : l.index < a.labels.size)
    (h : (goto l).run.run a = (.ok ⟨⟩, b)) : b.Consistent ∧ b.labels.size = a.labels.size := by
  unfold goto at h
  obtain ⟨_, t, hjump, h⟩ := run_bind_eq_ok.mp h
  obtain ⟨ht, hsize⟩ := consistent_jump ha hl rfl (by nofun) hjump
  cases h
  have hstraight : t.Continues { t with reachable := false } := .ofSame rfl rfl rfl rfl ht.stack
  exact ⟨ht.advances hstraight.advances, hsize⟩

/-- The handler gets a frame with the exception alone on its stack. -/
theorem run_addHandler_eq_ok {start stop handler : Label} {catchType : Option String}
    (hl : handler.index < a.labels.size)
    (h : (addHandler start stop handler catchType).run.run a = (.ok ⟨⟩, b)) :
    ∃ pool i n name, a.pool ≤ pool ∧
      b = { a with pool }.withHandler ⟨start, stop, handler, i⟩
        ⟨a.locals.take n, [.object name]⟩ := by
  -- with or without a caught class the steps that follow are the same; only the pool may differ
  have hrest {pool : ConstantPool} {i : UInt16} {name : String} (hle : a.pool ≤ pool) (h : (do
      let frame ← frameFor handler
      recordFrame handler { frame with stack := [.object name] }
      modify fun a => { a with handlers := a.handlers.push ⟨start, stop, handler, i⟩ } :
        Assembly Unit).run.run { a with pool } = (.ok ⟨⟩, b)) : ∃ pool i n name, a.pool ≤ pool ∧
      b = { a with pool }.withHandler ⟨start, stop, handler, i⟩
        ⟨a.locals.take n, [.object name]⟩ := by
    obtain ⟨f, t, hframe, h⟩ := run_bind_eq_ok.mp h
    obtain ⟨rfl, hupTo⟩ := run_frameFor_eq_ok hframe
    obtain ⟨n, rfl⟩ : ∃ n, f = a.frameUpTo n := ⟨_, hupTo⟩
    obtain ⟨_, u, hrecord, hadd⟩ := run_bind_eq_ok.mp h
    obtain rfl := run_recordFrame_eq_ok (a := { a with pool }) hl hrecord
    cases hadd
    exact ⟨pool, i, n, name, hle, rfl⟩
  unfold addHandler at h
  cases catchType with
  | none =>
    obtain ⟨_, t, hpure, h⟩ := run_bind_eq_ok.mp h
    cases hpure
    exact hrest le_rfl h
  | some name =>
    obtain ⟨i, t, hintern, h⟩ := run_bind_eq_ok.mp h
    have hle := pool_le_of_requests (requests_class name) hintern
    obtain ⟨pool, -, rfl⟩ := run_intern_eq_ok hintern
    exact hrest hle h

theorem consistent_addHandler {start stop handler : Label} {catchType : Option String}
    (ha : a.Consistent) (hl : handler.index < a.labels.size)
    (h : (addHandler start stop handler catchType).run.run a = (.ok ⟨⟩, b)) :
    b.Consistent ∧ b.labels.size = a.labels.size := by
  obtain ⟨pool, i, n, name, -, rfl⟩ := run_addHandler_eq_ok hl h
  have hstraight : a.Continues { a with pool } := .ofSame rfl rfl rfl rfl ha.stack
  have hfull : Full [VerificationType.object name] := full_cons.mpr ⟨nofun, nofun⟩
  exact ⟨(ha.advances hstraight.advances).advances (advances_withHandler (a := { a with pool })
    (f := ⟨a.locals.take n, [.object name]⟩) ha.stack hl hfull), Array.size_modify⟩

end Assembler

/-! ## 5. Sequences of calls -/

namespace Assembly

open Assembler

variable {a b : Assembler}

def Call.labels : Call → List Label
  | .place l | .branch _ l | .goto l => [l]
  | .addHandler start stop handler _ => [start, stop, handler]
  | _ => []

def Call.made : Call → Nat
  | .newLabel => 1
  | _ => 0

/-- Where `n` labels have been made, each of the calls names only such as are made by then. -/
def Named : (n : Nat) → List Call → Prop
  | _, [] => True
  | n, c :: calls => (∀ l ∈ c.labels, l.index < n) ∧ Named (n + c.made) calls

instance decidableNamed : (n : Nat) → (calls : List Call) → Decidable (Named n calls)
  | _, [] => .isTrue trivial
  | n, c :: calls =>
    have := decidableNamed (n + c.made) calls
    inferInstanceAs (Decidable (_ ∧ _))

def runAll (calls : List Call) : Assembly Unit := calls.forM Call.run

theorem requests_runAll (calls : List Call) : Requests (runAll calls) := by
  induction calls with
  | nil => exact .ofPure _
  | cons c calls ih => exact c.requests.bind fun _ => ih

/-- A call that succeeds leaves a body consistent. -/
theorem Call.consistent {c : Call} (ha : a.Consistent)
    (hl : ∀ l ∈ c.labels, l.index < a.labels.size)
    (h : c.run.run.run a = (.ok ⟨⟩, b)) :
    b.Consistent ∧ b.labels.size = a.labels.size + c.made := by
  -- most calls lead straight on and make no label
  have hstraight (hadds : Adds c.run fun _ => True) :
      b.Consistent ∧ b.labels.size = a.labels.size := by
    obtain ⟨hcontinues, -⟩ := hadds a ⟨⟩ b ha.stack h
    exact ⟨ha.advances hcontinues.advances, by rw [hcontinues.labels]⟩
  cases c with
  | newLabel =>
    cases h
    exact ⟨ha.advances (advances_labelled ha), Array.size_push _⟩
  | place l =>
    obtain ⟨hadvances, hsize⟩ := advances_place ha (hl l (by simp [Call.labels])) h
    exact ⟨ha.advances hadvances, hsize⟩
  | branch opcode l =>
    have hl := hl l (by simp [Call.labels])
    unfold Call.run branchBy at h
    dsimp only at h
    split at h
    next => exact consistent_branch ha hl h
    next => cases h
  | goto l => exact consistent_goto ha (hl l (by simp [Call.labels])) h
  | addHandler start stop handler catchType =>
    exact consistent_addHandler ha (hl handler (by simp [Call.labels])) h
  | allocateLocal t => exact hstraight ((adds_allocateLocal t).andThen fun _ => .ofPure trivial)
  | truncateLocals length => exact hstraight (adds_truncateLocals length)
  | aconstNull => exact hstraight (adds_pushing (by nofun) rfl nofun)
  | iconst value => exact hstraight (adds_iconst value)
  | lconst value => exact hstraight (adds_lconst value)
  | ldcString text | ldcClass name =>
    exact hstraight
      ((adds_intern _).andThen fun _ => (adds_loadConstant _).andThen fun _ => adds_push nofun)
  | load slot t => exact hstraight (adds_load slot t)
  | store slot t => exact hstraight (adds_store slot t)
  | getField owner name t =>
    exact hstraight
      ((adds_intern _).andThen fun _ => adds_replacing (by nofun) rfl (ofType_ne_top t))
  | getStatic owner name t =>
    exact hstraight ((adds_intern _).andThen fun _ => adds_pushing (by nofun) rfl (ofType_ne_top t))
  | invoke kind owner name type onInterface =>
    exact hstraight (adds_invoke kind owner name type onInterface)
  | newObject name => exact hstraight (adds_newObject name)
  | checkcast name | instanceOf name =>
    exact hstraight ((adds_intern _).andThen fun _ => adds_replacing (by nofun) rfl nofun)
  | dup => exact hstraight adds_dup
  | popValue => exact hstraight adds_popValue
  | swap => exact hstraight adds_swap
  | lcmp => exact hstraight (adds_joining (by nofun) rfl nofun)
  | add t => exact hstraight (adds_add t)
  | widen source target => exact hstraight (adds_widen source target)
  | returnValue t => exact hstraight (adds_returnValue t)

/-- Calls that succeed leave a body consistent. -/
theorem consistent_runAll {calls : List Call} (ha : a.Consistent) (hl : Named a.labels.size calls)
    (h : (runAll calls).run.run a = (.ok ⟨⟩, b)) : b.Consistent := by
  induction calls generalizing a with
  | nil =>
    cases h
    exact ha
  | cons c calls ih =>
    obtain ⟨hc, hcalls⟩ := hl
    obtain ⟨_, t, hrun, h⟩ := run_bind_eq_ok.mp h
    obtain ⟨ht, hsize⟩ := c.consistent ha hc hrun
    exact ih ht (hsize ▸ hcalls) h

end Assembly

end MethodGraft.Code
