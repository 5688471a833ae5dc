import MethodGraft.Proofs.Assembly.Valid
import MethodGraft.Proofs.Capacity

/-!
# Proofs.Assembly.Primitives — what the assembler's operations do

Each operation, run where control is and where it finds what it takes on the stack, makes one step,
unless a capacity of the class format is exceeded.
-/

namespace MethodGraft.Code

open ClassFile Typed Assembly Machine

/-! ## 1. Kinds -/

theorem VerificationType.kind?_ofType (t : FieldType) :
    (VerificationType.ofType t).kind? = some (.ofType t) := by
  cases t <;> rfl

theorem VerificationType.isWide_of_kind? {t : VerificationType} {k : ValueKind}
    (h : t.kind? = some k) : t.isWide = k.isWide := by
  cases t <;> cases h <;> rfl

theorem kindsOf_eq_cons {types : List VerificationType} {k : ValueKind} {ks : List ValueKind}
    (h : kindsOf types = (k :: ks).map some) :
    ∃ t rest, types = t :: rest ∧ t.kind? = some k ∧ kindsOf rest = ks.map some := by
  cases types with
  | nil => cases h
  | cons t rest =>
    obtain ⟨ht, hrest⟩ := List.cons_eq_cons.mp h
    exact ⟨t, rest, rfl, ht, hrest⟩

theorem kindsOf_eq_append {types : List VerificationType} (ks : List ValueKind)
    {ks' : List ValueKind} (h : kindsOf types = (ks ++ ks').map some) :
    ∃ taken rest, types = taken ++ rest ∧ taken.length = ks.length ∧
      kindsOf rest = ks'.map some := by
  induction ks generalizing types with
  | nil => exact ⟨[], types, rfl, rfl, h⟩
  | cons k ks ih =>
    obtain ⟨t, rest, rfl, -, hrest⟩ := kindsOf_eq_cons h
    obtain ⟨taken, rest', rfl, hlen, hrest'⟩ := ih hrest
    exact ⟨t :: taken, rest', rfl, congrArg Nat.succ hlen, hrest'⟩

/-! ## 2. Single instructions -/

structure Operation.Straight (op : Operation) : Prop where
  target : op.target? = none
  noReturn : ∀ k, op ≠ .ret k

namespace Assembler

/-- Control is here, with values of these kinds in the local slots and on the stack. -/
structure Ready (a : Assembler) (layout : Layout) (stack : List ValueKind) : Prop where
  valid : a.Valid
  reachable : a.reachable = true
  locals : kindsOf a.locals.toList = layout
  stack : kindsOf a.stack = stack.map some

theorem Ready.size_locals {a : Assembler} {layout : Layout} {stack : List ValueKind}
    (ha : a.Ready layout stack) : a.locals.size = layout.length := by
  rw [← ha.locals, length_kindsOf, Array.length_toList]

structure Emits (a b : Assembler) (op : Operation) (layout : Layout) (stack : List ValueKind) :
    Prop where
  passes : Passes op a b
  ready : b.Ready layout stack

/-- The operation is added.  What else `c` may have otherwise than `a` is the pool, the kinds and
the limits. -/
def adding (a : Assembler) (op : Operation) (c : Assembler) : Assembler :=
  { c with
    operations := a.operations.push op
    offset := a.offset + op.size
    stackSlots := stackWidth c.stack
    reachable := a.reachable
    labels := a.labels
    handlers := a.handlers }

variable {a b c : Assembler} {layout layout' : Layout} {before after : List ValueKind}
  {op : Operation}

theorem Ready.adding (ha : a.Ready layout before) (hop : op.Straight)
    (heffect : op.effect c.pool before = some after) (hlocals : op.LocalsFit layout layout')
    (hkinds : kindsOf c.locals.toList = layout') (hstack : kindsOf c.stack = after.map some)
    (hguard : a.Closed ∨ layout' = layout)
    (hslots : a.maxLocals ≤ c.maxLocals ∧ c.locals.size ≤ c.maxLocals.toNat)
    (hmax : a.maxStack ≤ c.maxStack ∧
      (stackWidth c.stack ≤ c.maxStack ∨ kindsOf c.stack <:+ kindsOf a.stack))
    (hpool : a.pool ≤ c.pool ∧ c.pool.WellFormed) :
    Emits a (a.adding op c) op layout' after := by
  have hpass : Passes op a (a.adding op c) :=
    { reachable := ha.reachable
      straight := hop.target
      noReturn := hop.noReturn
      carries := ⟨before, after, ha.stack, hstack, heffect⟩
      locals := by
        show op.LocalsFit (kindsOf a.locals.toList) (kindsOf c.locals.toList)
        rw [ha.locals, hkinds]
        exact hlocals
      locals_le := hslots
      guarded := by
        show a.Closed ∨ kindsOf c.locals.toList = kindsOf a.locals.toList
        rw [ha.locals, hkinds]
        exact hguard
      pool := hpool.1
      pool_wf := hpool.2
      operations := rfl
      offset := rfl
      stackSlots := rfl
      maxStack := hmax
      onward := ha.reachable
      labels := rfl
      handlers := rfl }
  exact ⟨hpass, ha.valid.step (.pass hpass), ha.reachable, hkinds, hstack⟩

/-! ## 3. Runs of the pieces -/

def withStack (a : Assembler) (stack : List VerificationType) (maxStack : UInt16) : Assembler :=
  { a with stack, stackSlots := stackWidth stack, maxStack }

theorem run_emit (h : a.reachable = true) : (emit op).run.run a =
    (.ok (), { a with operations := a.operations.push op, offset := a.offset + op.size }) := by
  unfold emit
  rw [run_bind]
  show (if !a.reachable then _ else _ : Assembly Unit).run.run a = _
  rw [if_neg (by simp [h])]
  rfl

theorem run_push {t : VerificationType} (hslots : a.stackSlots = stackWidth a.stack) :
    (push t).run.run a =
      (.ok (), a.withStack (t :: a.stack) (max a.maxStack (stackWidth (t :: a.stack)))) := by
  have hwidth : a.stackSlots + t.width = stackWidth (t :: a.stack) := by
    rw [hslots, UInt16.add_comm]
    rfl
  show (Except.ok (), { a with
    stack := t :: a.stack, stackSlots := a.stackSlots + t.width,
    maxStack := max a.maxStack (a.stackSlots + t.width) }) = _
  rw [hwidth]
  rfl

theorem run_pop {t : VerificationType} {rest : List VerificationType} (hstack : a.stack = t :: rest)
    (hslots : a.stackSlots = stackWidth a.stack) :
    pop.run.run a = (.ok t, a.withStack rest a.maxStack) := by
  have hwidth : a.stackSlots - t.width = stackWidth rest := by
    rw [hslots, hstack]
    show t.width + stackWidth rest - t.width = _
    rw [UInt16.add_comm, UInt16.add_sub_cancel]
  unfold pop
  rw [run_get_bind, hstack]
  show (Except.ok t, { a with stack := rest, stackSlots := a.stackSlots - t.width }) = _
  rw [hwidth]
  rfl

theorem run_popMany {taken rest : List VerificationType} (hstack : a.stack = taken ++ rest)
    (hslots : a.stackSlots = stackWidth a.stack) :
    (popMany taken.length).run.run a = (.ok (), a.withStack rest a.maxStack) := by
  induction taken generalizing a with
  | nil =>
    have hsame : a.withStack rest a.maxStack = a := by
      have hrest : rest = a.stack := hstack.symm
      unfold withStack
      rw [hrest, ← hslots]
    rw [hsame]
    rfl
  | cons t taken ih =>
    show (pop >>= fun _ => popMany taken.length).run.run a = _
    rw [run_bind, run_pop hstack hslots]
    exact ih (a := a.withStack (taken ++ rest) a.maxStack) rfl rfl

theorem meets_intern {α : Type} {x : Interning α} {Q : α → ConstantPool → Prop}
    (h : Meets x a.pool Q) :
    Meets (intern x) a fun r b => Q r b.pool ∧ b = { a with pool := b.pool } := by
  refine .bind (.ofGet ?_)
  unfold Meets at h
  generalize x.run.run a.pool = out at h ⊢
  obtain ⟨r, q⟩ := out
  refine .bind (.ofModify ?_)
  cases r with
  | ok r => exact .ofPure ⟨h, rfl⟩
  | error e => exact .ofThrow h

/-! ## 4. Instructions on the stack -/

/-- The operation leaves the local slots as they are. -/
theorem Ready.onStack (ha : a.Ready layout before) (hop : op.Straight)
    (heffect : op.effect c.pool before = some after) (hlocals : op.LocalsFit layout layout)
    (hsame : c.locals = a.locals ∧ c.maxLocals = a.maxLocals)
    (hstack : kindsOf c.stack = after.map some)
    (hmax : a.maxStack ≤ c.maxStack ∧
      (stackWidth c.stack ≤ c.maxStack ∨ kindsOf c.stack <:+ kindsOf a.stack))
    (hpool : a.pool ≤ c.pool ∧ c.pool.WellFormed) :
    Emits a (a.adding op c) op layout after := by
  refine ha.adding hop heffect hlocals ?_ hstack (.inr rfl) ?_ hmax hpool
  · rw [hsame.1, ha.locals]
  · rw [hsame.1, hsame.2]
    exact ⟨UInt16.le_refl _, ha.valid.locals_le⟩

theorem old_le_max (m n : UInt16) : m ≤ max m n := by
  rw [UInt16.le_iff_toNat_le]
  show m.toNat ≤ (if m ≤ n then n else m).toNat
  split
  next h => exact UInt16.le_iff_toNat_le.mp h
  next => exact Nat.le_refl _

theorem new_le_max (m n : UInt16) : n ≤ max m n := by
  rw [UInt16.le_iff_toNat_le]
  show n.toNat ≤ (if m ≤ n then n else m).toNat
  split
  next => exact Nat.le_refl _
  next h =>
    rw [UInt16.le_iff_toNat_le] at h
    omega

variable {k k' : ValueKind} {t : VerificationType} {pool : ConstantPool}

/-- An instruction that pushes a value. -/
theorem Ready.meets_push (ha : a.Ready layout before) (hop : op.Straight)
    (hpool : a.pool ≤ pool ∧ pool.WellFormed) (ht : t.kind? = some k)
    (heffect : op.effect pool before = some (k :: before)) (hlocals : op.LocalsFit layout layout) :
    Meets (do emit op; push t) { a with pool } fun _ b =>
      Emits a b op layout (k :: before) ∧ b.pool = pool := by
  refine .bind (.ofRun (run_emit ha.reachable) (.ofRun (run_push ha.valid.slots) ?_))
  have hstack : kindsOf (t :: a.stack) = (k :: before).map some := by
    show t.kind? :: kindsOf a.stack = _
    rw [ht, ha.stack]
    rfl
  exact ⟨ha.onStack (c := { a.withStack (t :: a.stack)
    (max a.maxStack (stackWidth (t :: a.stack))) with pool }) hop heffect hlocals ⟨rfl, rfl⟩ hstack
    ⟨old_le_max _ _, .inl (new_le_max _ _)⟩ hpool, rfl⟩

/-- An instruction that takes a value and pushes another. -/
theorem Ready.meets_replace (ha : a.Ready layout (k' :: before)) (hop : op.Straight)
    (hpool : a.pool ≤ pool ∧ pool.WellFormed) (ht : t.kind? = some k)
    (heffect : op.effect pool (k' :: before) = some (k :: before))
    (hlocals : op.LocalsFit layout layout) :
    Meets (do emit op; let _ ← pop; push t) { a with pool } fun _ b =>
      Emits a b op layout (k :: before) ∧ b.pool = pool := by
  obtain ⟨t', rest, hrest, -, hkinds⟩ := kindsOf_eq_cons ha.stack
  refine .bind (.ofRun (run_emit ha.reachable) (.bind (.ofRun (run_pop hrest ha.valid.slots)
    (.ofRun (run_push rfl) ?_))))
  have hstack : kindsOf (t :: rest) = (k :: before).map some := by
    show t.kind? :: kindsOf rest = _
    rw [ht, hkinds]
    rfl
  exact ⟨ha.onStack (c := { a.withStack (t :: rest) (max a.maxStack (stackWidth (t :: rest))) with
    pool }) hop heffect hlocals ⟨rfl, rfl⟩ hstack ⟨old_le_max _ _, .inl (new_le_max _ _)⟩
    hpool, rfl⟩

end Assembler

end MethodGraft.Code
