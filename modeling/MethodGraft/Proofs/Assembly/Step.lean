import Mathlib.Logic.Relation
import MethodGraft.Code.Layout
import MethodGraft.Proofs.Typed.Layout

/-!
# Proofs.Assembly.Step — all that an assembler does

`Assembler.Step` lists the ways in which a method body grows, each with all that holds when code
generation goes that way.  What is true of every body that code generation makes is shown by
following these steps, and code generation is shown to take no others.
-/

namespace MethodGraft.Code

open ClassFile

/-! ## 1. Kinds of types -/

/-- How values of a verification type are held; `top` has none. -/
def VerificationType.kind? : VerificationType → Option ValueKind
  | .top => none
  | .integer => some .int
  | .float => some .float
  | .double => some .double
  | .long => some .long
  | .null | .uninitializedThis | .object _ | .uninitialized _ => some .reference

def kindsOf (types : List VerificationType) : Layout := types.map VerificationType.kind?

def stackWidth (stack : List VerificationType) : UInt16 :=
  stack.foldr (fun t n => t.width + n) 0

structure Frame.SameKinds (f g : Frame) : Prop where
  locals : kindsOf f.locals.toList = kindsOf g.locals.toList
  stack : kindsOf f.stack = kindsOf g.stack

def Operation.LocalsFit (op : Operation) (before after : Layout) : Prop :=
  match op with
  | .load k slot => before[slot.toNat]? = some (some k) ∧ slot.toNat + k.width ≤ before.length ∧
      after = before
  | .store k slot => slot.toNat + k.width ≤ after.length ∧
      after.slots = Slots.store ValueKind.isWide before.slots slot.toNat k
  | _ => after = before

def Operation.Carries (op : Operation) (pool : ConstantPool)
    (before after : List VerificationType) : Prop :=
  ∃ taken left, kindsOf before = taken.map some ∧ kindsOf after = left.map some ∧
    op.effect pool taken = some left

/-! ## 2. Labels -/

/-- The label once a jump brings the frame to it.  The first frame stays. -/
def LabelState.target (s : LabelState) (f : Frame) : LabelState :=
  { s with targeted := true, frame := some (s.frame.getD f) }

/-- The frame is the one that was known, or the one that is brought. -/
theorem LabelState.frame_target {s : LabelState} {f g : Frame} (h : (s.target f).frame = some g) :
    s.frame = some g ∨ s.frame = none ∧ g = f := by
  unfold target at h
  cases hs : s.frame with
  | none =>
    rw [hs] at h
    cases h
    exact .inr ⟨rfl, rfl⟩
  | some g' =>
    rw [hs] at h
    exact .inl h

/-- The label at its position, with the frame that control goes on with there, if it does. -/
def LabelState.settle (s : LabelState) (p : Nat) (f : Option Frame) : LabelState :=
  { s with position := some p, frame := f }

namespace Assembler

def frame (a : Assembler) : Frame := ⟨a.locals, a.stack⟩

/-- The label has been made but not placed, and its block has as many locals as there are now. -/
structure Awaits (a : Assembler) (l : Label) : Prop where
  made : l.index < a.labels.size
  unplaced : (a.labelState l).position = none
  length : (a.labelState l).localsLength = a.locals.size

/-- No handler's range is open. -/
def Closed (a : Assembler) : Prop :=
  ∀ h ∈ a.handlers.toList, (a.labelState h.stop).position.isSome

theorem labelState_modify {a b : Assembler} {l : Label} {f : LabelState → LabelState}
    (hb : b.labels = a.labels.modify l.index f) (hl : l.index < a.labels.size) (l' : Label) :
    b.labelState l' = if l' = l then f (a.labelState l) else a.labelState l' := by
  obtain ⟨i⟩ := l
  obtain ⟨j⟩ := l'
  unfold labelState
  rw [hb, Array.getElem?_modify]
  by_cases h : i = j
  · subst h
    rw [if_pos rfl, if_pos rfl, Array.getElem?_eq_getElem hl]
    rfl
  · rw [if_neg h, if_neg (by simpa using fun e => h e.symm)]

theorem labelState_push {a b : Assembler} {s : LabelState} (hb : b.labels = a.labels.push s)
    (l : Label) : b.labelState l = if l.index = a.labels.size then s else a.labelState l := by
  unfold labelState
  rw [hb, Array.getElem?_push]
  split <;> rfl

theorem labelState_unmade {a : Assembler} {l : Label} (h : a.labels.size ≤ l.index) :
    a.labelState l = {} := by
  unfold labelState
  rw [Array.getElem?_eq_none h]
  rfl

/-! ## 3. Steps -/

/-- `b` is `a` with one more instruction that control passes through. -/
structure Passes (op : Operation) (a b : Assembler) : Prop where
  reachable : a.reachable = true
  straight : op.target? = none
  noReturn : ∀ k, op ≠ .ret k
  carries : op.Carries b.pool a.stack b.stack
  locals : op.LocalsFit (kindsOf a.locals.toList) (kindsOf b.locals.toList)
  locals_le : a.maxLocals ≤ b.maxLocals ∧ b.locals.size ≤ b.maxLocals.toNat
  /-- Locals change only where no handler would see it. -/
  guarded : a.Closed ∨ kindsOf b.locals.toList = kindsOf a.locals.toList
  pool : a.pool ≤ b.pool
  pool_wf : b.pool.WellFormed
  operations : b.operations = a.operations.push op
  offset : b.offset = a.offset + op.size
  stackSlots : b.stackSlots = stackWidth b.stack
  /-- What was pushed last counts; nothing need be counted where values were only taken. -/
  maxStack : a.maxStack ≤ b.maxStack ∧
    (b.stackSlots ≤ b.maxStack ∨ kindsOf b.stack <:+ kindsOf a.stack)
  onward : b.reachable = true
  labels : b.labels = a.labels
  handlers : b.handlers = a.handlers

/-- A jump: the operands of its test are gone, and the label has a frame. -/
def jumped (a : Assembler) (op : Operation) (l : Label) (stack : List VerificationType)
    (onward : Bool) : Assembler :=
  { a with
    operations := a.operations.push op
    offset := a.offset + op.size
    stack
    stackSlots := stackWidth stack
    labels := a.labels.modify l.index fun s => s.target ⟨a.locals, stack⟩
    reachable := onward }

def returned (a : Assembler) (op : Operation) : Assembler :=
  { a with
    operations := a.operations.push op
    offset := a.offset + op.size
    stack := []
    stackSlots := 0
    reachable := false }

def labelled (a : Assembler) : Assembler :=
  { a with labels := a.labels.push { localsLength := a.locals.size } }

def placed (a : Assembler) (l : Label) (f : Frame) : Assembler :=
  { a with
    labels := a.labels.modify l.index fun s => s.settle a.offset (some f)
    locals := f.locals
    stack := f.stack
    stackSlots := stackWidth f.stack
    reachable := true }

def passedBy (a : Assembler) (l : Label) : Assembler :=
  { a with labels := a.labels.modify l.index fun s => s.settle a.offset none }

def guarding (a : Assembler) (h : HandlerRange) (name : String) (pool : ConstantPool) : Assembler :=
  { a with
    pool
    labels := a.labels.modify h.handler.index fun s => s.target ⟨a.locals, [.object name]⟩
    handlers := a.handlers.push h }

def truncated (a : Assembler) (length : Nat) : Assembler :=
  { a with locals := a.locals.take length }

section

variable {a : Assembler} {op : Operation} {l : Label} {stack : List VerificationType}
    {onward : Bool} {f : Frame}
  {h : HandlerRange} {name : String} {pool : ConstantPool}

theorem labelState_jumped (hl : l.index < a.labels.size) (l' : Label) :
    (a.jumped op l stack onward).labelState l' =
      if l' = l then (a.labelState l).target ⟨a.locals, stack⟩ else a.labelState l' :=
  labelState_modify (f := fun s => s.target ⟨a.locals, stack⟩) rfl hl l'

theorem labelState_placed (hl : l.index < a.labels.size) (l' : Label) :
    (a.placed l f).labelState l' =
      if l' = l then (a.labelState l).settle a.offset (some f) else a.labelState l' :=
  labelState_modify (f := fun s => s.settle a.offset (some f)) rfl hl l'

theorem labelState_passedBy (hl : l.index < a.labels.size) (l' : Label) :
    (a.passedBy l).labelState l' = if l' = l then (a.labelState l).settle a.offset none
    else a.labelState l' :=
  labelState_modify (f := fun s => s.settle a.offset none) rfl hl l'

theorem labelState_guarding (hl : h.handler.index < a.labels.size) (l' : Label) :
    (a.guarding h name pool).labelState l' =
      if l' = h.handler then (a.labelState h.handler).target ⟨a.locals, [.object name]⟩
        else a.labelState l' :=
  labelState_modify (f := fun s => s.target ⟨a.locals, [.object name]⟩) rfl hl l'

theorem labelState_labelled (l : Label) : a.labelled.labelState l =
    if l.index = a.labels.size then { localsLength := a.locals.size } else a.labelState l :=
  labelState_push rfl l

end

inductive Step : Assembler → Assembler → Prop
  | pass {a b : Assembler} {op : Operation} : Passes op a b → Step a b
  | jump {a : Assembler} {op : Operation} {l : Label} {stack : List VerificationType}
      {onward : Bool} (reachable : a.reachable = true)
      (op_eq : op = .goto l ∧ onward = false ∨ (∃ test, op = .branch test l) ∧ onward = true)
      (carries : op.Carries a.pool a.stack stack) (awaits : a.Awaits l)
      (known : ∀ f, (a.labelState l).frame = some f → f.SameKinds ⟨a.locals, stack⟩) :
      Step a (a.jumped op l stack onward)
  | ret {a : Assembler} {k : Option ValueKind} (reachable : a.reachable = true)
      (effect : ∃ taken left, kindsOf a.stack = taken.map some ∧
        (Operation.ret k).effect a.pool taken = some left) :
      Step a (a.returned (.ret k))
  | newLabel {a : Assembler} : Step a a.labelled
  | place {a : Assembler} {l : Label} {f : Frame} (made : l.index < a.labels.size)
      (unplaced : (a.labelState l).position = none)
      (length : f.locals.size = (a.labelState l).localsLength)
      (known : ∀ g, (a.labelState l).frame = some g → g = f)
      (here : a.reachable = true → f.SameKinds a.frame)
      (live : (a.labelState l).frame = none → a.reachable = true ∧ f = a.frame)
      /- Of two labels that are placed here, the one made first has fewer locals. -/
      (first : (a.labelState l).targeted = true → ∀ l', l'.index < l.index →
        (a.labelState l').position = some a.offset →
          (a.labelState l').localsLength ≤ (a.labelState l).localsLength)
      (closes : ∀ h ∈ a.handlers.toList, h.stop = l ∨ (a.labelState h.stop).position.isSome)
      (nonempty : ∀ h ∈ a.handlers.toList, h.stop = l → ∀ p,
        (a.labelState h.start).position = some p → p < a.offset) :
      Step a (a.placed l f)
  | passBy {a : Assembler} {l : Label} (unreachable : a.reachable = false)
      (made : l.index < a.labels.size) (unplaced : (a.labelState l).position = none)
      (unknown : (a.labelState l).frame = none) (closed : a.Closed) : Step a (a.passedBy l)
  | guard {a : Assembler} {h : HandlerRange} {name : String} {pool : ConstantPool}
      (reachable : a.reachable = true)
      (start : (a.labelState h.start).position = some a.offset)
      (stop : h.stop.index < a.labels.size ∧ (a.labelState h.stop).position = none)
      (awaits : a.Awaits h.handler) (unknown : (a.labelState h.handler).frame = none)
      (other : h.handler ≠ h.stop)
      (pool_le : a.pool ≤ pool) (pool_wf : pool.WellFormed)
      (catchType : pool.class? h.catchType = some name) (closed : a.Closed)
      (room : 1 ≤ a.maxStack ∧ 1 ≤ a.offset) :
      Step a (a.guarding h name pool)
  | truncate {a : Assembler} {length : Nat} (closed : a.Closed) : Step a (a.truncated length)

def Builds : Assembler → Assembler → Prop := Relation.ReflTransGen Step

/-! ## 4. What becomes of a label -/

/-- The label is placed between `a` and `b`, and control goes on with the frame. -/
structure Arrives (a b : Assembler) (l : Label) (f : Frame) : Prop where
  unplaced : (a.labelState l).position = none
  length : f.locals.size = (a.labelState l).localsLength
  known : ∀ g, (a.labelState l).frame = some g → g = f
  here : a.reachable = true → f.SameKinds a.frame
  first : (a.labelState l).targeted = true → ∀ l', l'.index < l.index →
    (a.labelState l').position = some a.offset →
      (a.labelState l').localsLength ≤ (a.labelState l).localsLength
  nonempty : ∀ h ∈ a.handlers.toList, h.stop = l →
    ∀ p, (a.labelState h.start).position = some p → p < a.offset
  frame : b.frame = f
  onward : b.reachable = true
  offset : b.offset = a.offset

inductive LabelStep (a b : Assembler) (l : Label) : Prop
  | kept (state : b.labelState l = a.labelState l)
  | made (unmade : a.labels.size ≤ l.index)
      (state : b.labelState l = { localsLength := a.locals.size })
  /-- A jump or a handler leads to the label. -/
  | aimed {f : Frame} (unplaced : (a.labelState l).position = none)
      (state : b.labelState l = (a.labelState l).target f)
      (frame : f = b.frame ∧ a.reachable = true ∨ 1 ≤ a.maxStack ∧
        ∃ name, f = ⟨a.locals, [.object name]⟩)
  | placed {f : Frame} (state : b.labelState l = (a.labelState l).settle a.offset (some f))
      (arrives : Arrives a b l f)
  /-- The label is placed where control does not get. -/
  | passed (unplaced : (a.labelState l).position = none) (unknown : (a.labelState l).frame = none)
      (closed : a.Closed) (offset : b.offset = a.offset)
      (state : b.labelState l = (a.labelState l).settle a.offset none)

theorem Step.label {a b : Assembler} (h : Step a b) (l : Label) : LabelStep a b l := by
  -- each step changes one label at most; all others are kept
  cases h with
  | pass h =>
    refine .kept ?_
    rw [labelState, h.labels]
    rfl
  | @jump _ l' _ _ reachable _ _ awaits =>
    by_cases hl : l = l'
    · subst hl
      exact .aimed awaits.unplaced ((labelState_jumped awaits.made l).trans (if_pos rfl))
        (.inl ⟨rfl, reachable⟩)
    · exact .kept ((labelState_jumped awaits.made l).trans (if_neg hl))
  | ret | truncate => exact .kept rfl
  | newLabel =>
    by_cases hl : l.index = a.labels.size
    · exact .made (Nat.le_of_eq hl.symm) ((labelState_labelled l).trans (if_pos hl))
    · exact .kept ((labelState_labelled l).trans (if_neg hl))
  | @place l' f made unplaced length known here _ first _ nonempty =>
    by_cases hl : l = l'
    · subst hl
      exact .placed ((labelState_placed made l).trans (if_pos rfl))
        ⟨unplaced, length, known, here, first, nonempty, rfl, rfl, rfl⟩
    · exact .kept ((labelState_placed made l).trans (if_neg hl))
  | @passBy l' _ made unplaced unknown closed =>
    by_cases hl : l = l'
    · subst hl
      exact .passed unplaced unknown closed rfl ((labelState_passedBy made l).trans (if_pos rfl))
    · exact .kept ((labelState_passedBy made l).trans (if_neg hl))
  | @guard g name _ _ _ _ awaits _ _ _ _ _ _ room =>
    by_cases hl : l = g.handler
    · subst hl
      exact .aimed awaits.unplaced ((labelState_guarding awaits.made g.handler).trans (if_pos rfl))
        (.inr ⟨room.1, name, rfl⟩)
    · exact .kept ((labelState_guarding awaits.made l).trans (if_neg hl))

end Assembler

end MethodGraft.Code
