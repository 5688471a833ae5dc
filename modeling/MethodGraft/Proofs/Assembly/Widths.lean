import MethodGraft.Proofs.Assembly.Calls
import MethodGraft.Proofs.Machine.Slots
import MethodGraft.Proofs.Verify.Body

/-!
# Proofs.Assembly.Widths — what calls do to the depth of the stack

A call that adds an instruction takes a number of values off the stack that is followed, and puts
others there.  It does not look at how wide the values are that it takes.  `Call.Fits` says that
they are as wide as those that its instruction takes; then the depth of the stack that is followed
changes as the instruction changes it.
-/

namespace MethodGraft.Code

open ClassFile Assembly Interning Verify

structure Operation.Plain (op : Operation) : Prop where
  straight : op.target? = none
  onward : Body.goesOn op = true
  localFree : op.touches = 0

namespace Assembler

variable {α : Type} {a b c : Assembler} {n m : Nat} {pushed : List Nat} {ops : List Operation}
    {op : Operation}
  {t : VerificationType}

/-! ## 1. Pieces of calls -/

def Counted (a : Assembler) : Prop := a.stackSlots = UInt16.ofNat (depthOf a.stack)

/-- From `a` to `b` operations are added, `n` values are taken off the stack and then values of
these widths are put there. -/
structure Draws (a b : Assembler) (ops : List Operation) (n : Nat) (pushed : List Nat) : Prop where
  operations : b.operations.toList = a.operations.toList ++ ops
  offset : b.offset = a.offset + (ops.map Operation.size).sum
  live : ops ≠ [] → a.reachable = true
  reachable : b.reachable = a.reachable
  labels : b.labels = a.labels
  handlers : b.handlers = a.handlers
  length : n ≤ a.stack.length
  stack : widthsOf b.stack = pushed ++ (widthsOf a.stack).drop n
  counted : b.Counted
  /-- What was put on the stack has been counted. -/
  maxStack : a.maxStack ≤ b.maxStack ∧ (pushed = [] ∨ b.stackSlots ≤ b.maxStack)
  locals : b.locals.map VerificationType.slots = a.locals.map VerificationType.slots
  maxLocals : b.maxLocals = a.maxLocals
  pool : a.pool ≤ b.pool

namespace Draws

theorem labelState (h : a.Draws b ops n pushed) (l : Label) : b.labelState l = a.labelState l := by
  rw [Assembler.labelState, h.labels]
  rfl

theorem refl (ha : a.Counted) : a.Draws a [] 0 [] where
  operations := (List.append_nil _).symm
  offset := rfl
  live h := absurd rfl h
  reachable := rfl
  labels := rfl
  handlers := rfl
  length := Nat.zero_le _
  stack := rfl
  counted := ha
  maxStack := ⟨UInt16.le_refl _, .inl rfl⟩
  locals := rfl
  maxLocals := rfl
  pool := le_rfl

theorem emit (h : a.Draws b ops n pushed) (hrun : (Assembly.emit op).run.run b = (.ok ⟨⟩, c)) :
    a.Draws c (ops ++ [op]) n pushed := by
  obtain ⟨hreach, rfl⟩ := run_emit_eq_ok hrun
  exact { h with
    operations := by rw [Array.toList_push, h.operations, List.append_assoc]
    offset := by
      rw [List.map_append, List.sum_append, ← Nat.add_assoc, ← h.offset]
      rfl
    live := fun _ => h.reachable ▸ hreach }

theorem push (h : a.Draws b ops n pushed) (hrun : (Assembly.push t).run.run b = (.ok ⟨⟩, c)) :
    a.Draws c ops n (t.slots :: pushed) := by
  cases hrun
  exact { h with
    stack := congrArg (t.slots :: ·) h.stack
    counted := by
      show b.stackSlots + t.width = UInt16.ofNat (t.slots + depthOf b.stack)
      rw [UInt16.ofNat_add, t.ofNat_slots, UInt16.add_comm, h.counted]
    maxStack := ⟨UInt16.le_trans h.maxStack.1 (old_le_max _ _), .inr (new_le_max _ _)⟩ }

theorem pop (h : a.Draws b ops n []) (hrun : Assembly.pop.run.run b = (.ok t, c)) :
    a.Draws c ops (n + 1) [] ∧ (widthsOf a.stack)[n]? = some t.slots := by
  unfold Assembly.pop at hrun
  rw [run_get_bind] at hrun
  split at hrun
  next t' rest hstack =>
    cases hrun
    -- what is taken off is the next value of the stack that the drawing started from
    have hdrop : (widthsOf a.stack).drop n = t.slots :: widthsOf rest := by
      have hb := h.stack
      rw [hstack] at hb
      exact hb.symm
    refine ⟨{ h with
      length := ?_
      stack := ?_
      counted := ?_
      maxStack := ⟨h.maxStack.1, .inl rfl⟩ }, ?_⟩
    · have hlength := congrArg List.length hdrop
      rw [List.length_drop, widthsOf, List.length_map, List.length_cons] at hlength
      omega
    · rw [← List.drop_drop, hdrop]
      rfl
    · show b.stackSlots - t.width = UInt16.ofNat (depthOf rest)
      -- the counter runs modulo its size, and so does the depth it stands for
      have hb : b.stackSlots = UInt16.ofNat (t.slots + depthOf rest) := by
        rw [h.counted, hstack]
        rfl
      rw [hb, UInt16.ofNat_add, t.ofNat_slots, UInt16.add_comm, UInt16.add_sub_cancel]
    · rw [← List.head?_drop, hdrop]
      rfl
  next => cases hrun

theorem popMany (h : a.Draws b ops n []) (hrun : (Assembly.popMany m).run.run b = (.ok ⟨⟩, c)) :
    a.Draws c ops (n + m) [] := by
  induction m generalizing b n with
  | zero =>
    cases hrun
    exact h
  | succ m ih =>
    obtain ⟨t, d, hpop, hrest⟩ := run_bind_eq_ok.mp hrun
    have hd := ih (h.pop hpop).1 hrest
    rwa [Nat.add_assoc, Nat.add_comm 1 m] at hd

theorem intern {x : Interning α} {r : α} (h : a.Draws b ops n pushed) (hx : Asks id x)
    (hrun : (Assembly.intern x).run.run b = (.ok r, c)) : a.Draws c ops n pushed := by
  obtain ⟨pool, hpool, rfl⟩ := run_intern_eq_ok hrun
  have hle := hx.le b.pool
  rw [hpool] at hle
  exact { h with pool := h.pool.trans hle }

/-- Nothing but the pool has changed before. -/
theorem followed (h : a.Draws b [] 0 []) (h' : b.Draws c ops n pushed) :
    a.Draws c ops n pushed where
  operations := by rw [h'.operations, h.operations, List.append_nil]
  offset := by
    rw [h'.offset, h.offset]
    rfl
  live hne := h.reachable ▸ h'.live hne
  reachable := h'.reachable.trans h.reachable
  labels := h'.labels.trans h.labels
  handlers := h'.handlers.trans h.handlers
  length := by
    have hlength := congrArg List.length h.stack
    simp only [widthsOf, List.length_map, List.drop_zero, List.nil_append] at hlength
    exact hlength ▸ h'.length
  stack := h'.stack.trans (by rw [h.stack]; rfl)
  counted := h'.counted
  maxStack := ⟨UInt16.le_trans h.maxStack.1 h'.maxStack.1, h'.maxStack.2⟩
  locals := h'.locals.trans h.locals
  maxLocals := h'.maxLocals.trans h.maxLocals
  pool := h.pool.trans h'.pool

/-- The object that is marked takes one slot, before and after. -/
theorem mark {receiver : VerificationType} {owner : String} (h : a.Draws b ops n pushed)
    (hreceiver : receiver.isUninitialized = true)
    (hrun : (markInitialized receiver owner).run.run b = (.ok ⟨⟩, c)) : a.Draws c ops n pushed := by
  have hslots (t : VerificationType) :
      (if t = receiver then .object owner else t).slots = t.slots := by
    split
    next hsame =>
      subst hsame
      cases t with
      | uninitializedThis | uninitialized => rfl
      | _ => cases hreceiver
    next => rfl
  have hwidths : widthsOf (b.stack.map fun t => if t = receiver then .object owner else t) =
      widthsOf b.stack := by
    rw [widthsOf, List.map_map]
    exact List.map_congr_left fun t _ => hslots t
  cases hrun
  exact { h with
    stack := hwidths.trans h.stack
    counted := h.counted.trans (congrArg (fun ws : List Nat => UInt16.ofNat ws.sum) hwidths.symm)
    locals := by
      rw [← h.locals, Array.map_map]
      exact Array.map_congr_left fun t _ => hslots t }

end Draws

/-! ## 2. Instructions that control passes through -/

def Roomy (locals : Array VerificationType) (n : Nat) : Prop :=
  ∀ i w, (locals.map VerificationType.slots)[i]? = some w → i + w ≤ n

/-- An instruction has been added that control passes through.  It takes values of the widths
`taken`, which are there, and the stack that is followed changes as the instruction changes the
stack. -/
structure Passage (q : ConstantPool) (a b : Assembler) (op : Operation) (taken pushed : List Nat) :
    Prop where
  draws : a.Draws b [op] taken.length pushed
  straight : op.target? = none
  onward : Body.goesOn op = true
  fits : taken <+: widthsOf a.stack
  slots : op.slots? q = some (taken.sum, pushed.sum)

/-- An instruction has been added that control passes through and that finds what it uses of the
locals. -/
def Crosses (q : ConstantPool) (a b : Assembler) : Prop :=
  ∃ op taken pushed, a.Passage q b op taken pushed ∧ ∀ n, Roomy a.locals n → op.touches ≤ n

variable {q : ConstantPool} {w : Nat}

theorem crosses_of_plain (taken : List Nat) (hop : op.Plain)
    (hdraws : a.Draws b [op] taken.length pushed)
    (hfits : taken <+: widthsOf a.stack) (hslots : op.slots? q = some (taken.sum, pushed.sum)) :
    a.Crosses q b :=
  ⟨op, taken, pushed, ⟨hdraws, hop.straight, hop.onward, hfits, hslots⟩,
    fun _ _ => hop.localFree ▸ Nat.zero_le _⟩

/-- An instruction that pushes a value. -/
theorem crosses_pushing (ha : a.Draws b [] 0 []) (hop : op.Plain)
    (hslots : op.slots? q = some (0, t.slots))
    (h : (do Assembly.emit op; Assembly.push t : Assembly Unit).run.run b = (.ok ⟨⟩, c)) :
    a.Crosses q c := by
  obtain ⟨_, d, hemit, hpush⟩ := run_bind_eq_ok.mp h
  exact crosses_of_plain [] hop ((ha.emit hemit).push hpush) List.nil_prefix hslots

/-- An instruction that takes a value and pushes another. -/
theorem crosses_replacing (ha : a.Draws b [] 0 []) (hop : op.Plain)
    (hfits : [w] <+: widthsOf a.stack) (hslots : op.slots? q = some (w, t.slots))
    (h : (do Assembly.emit op; let _ ← Assembly.pop; Assembly.push t : Assembly Unit).run.run b =
      (.ok ⟨⟩, c)) :
    a.Crosses q c := by
  obtain ⟨_, d, hemit, h⟩ := run_bind_eq_ok.mp h
  obtain ⟨_, e, hpop, hpush⟩ := run_bind_eq_ok.mp h
  exact crosses_of_plain [w] hop (((ha.emit hemit).pop hpop).1.push hpush) hfits hslots

/-- An instruction that takes two values of one width and pushes another. -/
theorem crosses_joining (ha : a.Counted) (hop : op.Plain) (hfits : [w, w] <+: widthsOf a.stack)
    (hslots : op.slots? q = some (w + w, t.slots))
    (h : (do Assembly.emit op; Assembly.popMany 2; Assembly.push t : Assembly Unit).run.run a =
      (.ok ⟨⟩, c)) :
    a.Crosses q c := by
  obtain ⟨_, d, hemit, h⟩ := run_bind_eq_ok.mp h
  obtain ⟨_, e, hpops, hpush⟩ := run_bind_eq_ok.mp h
  exact crosses_of_plain [w, w] hop ((((Draws.refl ha).emit hemit).popMany hpops).push hpush) hfits
    hslots

end Assembler

/-! ## 3. Calls that fit -/

namespace Assembly

open Assembler

/-- The widths of the values that the instruction of the call takes, the top of the stack first.
Calls that look at what they take ask for nothing. -/
def Call.operands : Call → List Nat
  | .store _ t => [t.slots]
  | .getField .. | .checkcast _ | .instanceOf _ => [1]
  | .invoke kind _ _ type _ => operandSlots kind type
  | .lcmp => [2, 2]
  | .add t => [t.slots, t.slots]
  | .widen source target =>
    if source = target ∨ (source.isIntLike ∧ target.isIntLike) then [] else [source.slots]
  | .branch opcode _ => (Test.ofOpcode? opcode).elim [] fun test => List.replicate test.operands 1
  | .returnValue t => t.toList.map FieldType.slots
  | _ => []

/-- The local slot that is loaded holds a value of the width that is asked for, and the types that
are named have descriptors. -/
def Call.Meant (a : Assembler) : Call → Prop
  | .load slot t => ∀ held ∈ a.locals[slot.toNat]?, held.slots = t.slots
  | .getField _ _ t | .getStatic _ _ t => t.Readable
  | .invoke _ _ _ type _ => type.Readable
  | _ => True

def Call.Fits (a : Assembler) (c : Call) : Prop := c.operands <+: widthsOf a.stack ∧ c.Meant a

instance (a : Assembler) : (c : Call) → Decidable (c.Meant a)
  | .load slot t =>
    inferInstanceAs (Decidable (∀ held ∈ a.locals[slot.toNat]?, held.slots = t.slots))
  | .getField _ _ t | .getStatic _ _ t => inferInstanceAs (Decidable (_ = some t))
  | .invoke _ _ _ type _ => inferInstanceAs (Decidable (_ = some type))
  | .allocateLocal _ | .truncateLocals _ | .newLabel | .place _ | .aconstNull | .iconst _ | .lconst
      _ | .ldcString _
  | .ldcClass _ | .store .. | .newObject _ | .checkcast _ | .instanceOf _ | .dup | .popValue | .swap
      | .lcmp | .add _
  | .widen .. | .branch .. | .goto _ | .returnValue _ | .addHandler .. => .isTrue trivial

instance (a : Assembler) (c : Call) : Decidable (c.Fits a) :=
  inferInstanceAs (Decidable (_ ∧ _))

/-! ## 4. Calls that agree -/

/-- The label that the call records a stack for, with the stack, where the call gets as far as
that. -/
def Call.edge? (a : Assembler) : Call → Option (Label × List VerificationType)
  | .place l => if a.reachable ∧ (a.labelState l).position = none then some (l, a.stack) else none
  | .branch opcode l => (Test.ofOpcode? opcode).bind fun test =>
    if a.reachable ∧ test.operands ≤ a.stack.length then some (l, a.stack.drop test.operands)
      else none
  | .goto l => if a.reachable then some (l, a.stack) else none
  | .addHandler _ _ handler catchType =>
    if catchType.all fun name => ((Interning.classRef name).run.run a.pool).1.isOk then
      some (handler, [.object (catchType.getD "java/lang/Throwable")])
    else none
  | _ => none

theorem Call.mem_labels_of_edge {a : Assembler} {c : Call} {l : Label}
    {stack : List VerificationType} (h : c.edge? a = some (l, stack)) : l ∈ c.labels := by
  cases c with
  | place l' =>
    cases (Option.ite_none_right_eq_some.mp h).2
    exact List.mem_cons_self
  | branch opcode l' =>
    obtain ⟨test, -, h⟩ := Option.bind_eq_some_iff.mp h
    cases (Option.ite_none_right_eq_some.mp h).2
    exact List.mem_cons_self
  | goto l' =>
    cases (Option.ite_none_right_eq_some.mp h).2
    exact List.mem_cons_self
  | addHandler start stop handler catchType =>
    cases (Option.ite_none_right_eq_some.mp h).2
    simp [Call.labels]
  | _ => cases h

end Assembly

/-- If the stack has as many values as the one that is known for the label, it has as many slots.  A
label that has no frame has still to be placed. -/
def LabelState.Takes (s : LabelState) (stack : List VerificationType) : Prop :=
  match s.frame with
  | some f => f.stack.length = stack.length → depthOf f.stack = depthOf stack
  | none => s.position = none

instance (s : LabelState) (stack : List VerificationType) : Decidable (s.Takes stack) :=
  match h : s.frame with
  | some f => decidable_of_iff (f.stack.length = stack.length → depthOf f.stack = depthOf stack)
      (by simp [LabelState.Takes, h])
  | none => decidable_of_iff (s.position = none) (by simp [LabelState.Takes, h])

theorem LabelState.Takes.length_ne {s : LabelState} {stack : List VerificationType} {f : Frame}
    (h : s.Takes stack) (hf : s.frame = some f) (hne : depthOf f.stack ≠ depthOf stack) :
    f.stack.length ≠ stack.length := by
  unfold Takes at h
  rw [hf] at h
  exact fun hlength => hne (h hlength)

structure LabelState.Accepts (s : LabelState) (depth : Nat) : Prop where
  known : ∀ f, s.frame = some f → depthOf f.stack = depth
  unplaced : s.frame = none → s.position = none

theorem LabelState.Takes.accepts {s : LabelState} {stack : List VerificationType}
    (h : s.Takes stack) (hlength : ∀ f, s.frame = some f → f.stack.length = stack.length) :
    s.Accepts (depthOf stack) := by
  unfold Takes at h
  refine ⟨fun f hf => ?_, fun hnone => ?_⟩
  · rw [hf] at h
    exact h (hlength f hf)
  · rwa [hnone] at h

namespace Assembly

open Assembler

/-- Where the call brings as many values to a label as are known there, it brings as many slots. -/
def Call.Agrees (a : Assembler) (c : Call) : Prop := ∀ e ∈ c.edge? a, (a.labelState e.1).Takes e.2

instance (a : Assembler) (c : Call) : Decidable (c.Agrees a) :=
  inferInstanceAs (Decidable (∀ e ∈ c.edge? a, (a.labelState e.1).Takes e.2))

/-- Each of the calls, up to the first that fails, has the property in the state in which it is
made. -/
def Throughout (P : Assembler → Call → Prop) : Assembler → List Call → Prop
  | _, [] => True
  | a, c :: calls =>
    P a c ∧ ((c.run.run.run a).1.isOk = true → Throughout P (c.run.run.run a).2 calls)

instance decidableThroughout (P : Assembler → Call → Prop) [∀ a c, Decidable (P a c)] :
    (a : Assembler) → (calls : List Call) → Decidable (Throughout P a calls)
  | _, [] => .isTrue trivial
  | a, c :: calls =>
    have := decidableThroughout P (c.run.run.run a).2 calls
    inferInstanceAs (Decidable (_ ∧ (_ → _)))

end Assembly

end MethodGraft.Code
