import MethodGraft.Code.Operation

/-!
# Code.Assembler — writing a method body

An assembler follows the verification type of every local slot and of every operand stack entry
while operations are added.  A label remembers how many local slots were in use when it was made.
The frame recorded for it, when it is first jumped to, placed, or named as a handler, keeps only
those, so locals of a nested block do not reach the frame at the block's exit.
-/

namespace MethodGraft.Code

open ClassFile

/-! ## 1. State -/

structure Frame where
  locals : Array VerificationType
  stack : List VerificationType
  deriving DecidableEq, Repr, Inhabited

structure LabelState where
  position : Option Nat := none
  /-- The local slots in use where the label was made. -/
  localsLength : Nat := 0
  frame : Option Frame := none
  /-- True once a jump or a handler leads to the label. -/
  targeted : Bool := false
  deriving Repr, Inhabited

structure HandlerRange where
  start : Label
  stop : Label
  handler : Label
  catchType : UInt16
  deriving Repr

structure Assembler where
  pool : ConstantPool
  operations : Array Operation := #[]
  /-- The bytes of all operations so far. -/
  offset : Nat := 0
  locals : Array VerificationType
  stack : List VerificationType := []
  /-- The slots that the operand stack takes. -/
  stackSlots : UInt16 := 0
  maxStack : UInt16 := 0
  maxLocals : UInt16
  /-- False right after a jump or a return, until a label that is jumped to is placed. -/
  reachable : Bool := true
  labels : Array LabelState := #[]
  handlers : Array HandlerRange := #[]

abbrev Assembly := ExceptT Error (StateM Assembler)

/-- The start of a method body.  Static methods have no receiver. -/
def Assembler.start (pool : ConstantPool) (receiver : Option String) (params : List FieldType) :
    Assembler :=
  let receiverSlots := receiver.toList.map VerificationType.object
  let locals := (receiverSlots ++ VerificationType.localSlots params).toArray
  { pool, locals, maxLocals := UInt16.ofNat locals.size }

/-- What is known of a label; one that was never made has no position and no frame. -/
def Assembler.labelState (a : Assembler) (l : Label) : LabelState :=
  a.labels[l.index]?.getD {}

namespace Assembly

def refuse {α : Type} (cause : Cause) : Assembly α := throw ⟨cause, []⟩

def intern {α : Type} (x : Interning α) : Assembly α := do
  let (r, pool) := x.run.run (← get).pool
  modify fun a => { a with pool }
  ExceptT.mk (pure r)

/-! ## 2. Locals and labels -/

/-- Reserves the next local slots for a value of type `t` and returns the first one. -/
def allocateLocal (t : FieldType) : Assembly UInt16 := do
  let slot := (← get).locals.size
  modify fun a => { a with locals := a.locals ++ Array.replicate t.slots .top }
  let size := (← get).locals.size
  -- the slots have been added by now; a body that is refused is thrown away with them
  if size > 65535 then refuse .tooManyLocals
  modify fun a => { a with maxLocals := max a.maxLocals (UInt16.ofNat size) }
  return UInt16.ofNat slot

def truncateLocals (length : Nat) : Assembly Unit :=
  modify fun a => { a with locals := a.locals.take length }

def newLabel : Assembly Label := do
  let index := (← get).labels.size
  modify fun a => { a with labels := a.labels.push { localsLength := a.locals.size } }
  return ⟨index⟩

def modifyLabel (l : Label) (f : LabelState → LabelState) : Assembly Unit :=
  modify fun a => { a with labels := a.labels.modify l.index f }

def frameFor (l : Label) : Assembly Frame := do
  let a ← get
  return ⟨a.locals.take (a.labelState l).localsLength, a.stack⟩

/-- Records that control reaches the label with this frame.  The first frame stays; later ones have
a stack of the same depth. -/
def recordFrame (l : Label) (frame : Frame) : Assembly Unit := do
  modifyLabel l fun s => { s with targeted := true }
  -- only the depths are compared; that the kinds agree is up to what emits the jumps
  match ((← get).labelState l).frame with
  | some known =>
    if known.stack.length ≠ frame.stack.length then refuse (.stackMismatch l.index)
  | none => modifyLabel l fun s => { s with frame := some frame }

def restore (frame : Frame) : Assembly Unit :=
  modify fun a => { a with
    locals := frame.locals
    stack := frame.stack
    stackSlots := frame.stack.foldr (fun t n => t.width + n) 0 }

def place (l : Label) : Assembly Unit := do
  let state := (← get).labelState l
  if state.position.isSome then refuse (.placedTwice l.index)
  let offset := (← get).offset
  modifyLabel l fun s => { s with position := some offset }
  if (← get).reachable then
    let frame ← frameFor l
    -- the locals of a block that the label does not know end here
    modify fun a => { a with locals := frame.locals }
    match state.frame with
    | some known =>
      if known.stack.length ≠ frame.stack.length then refuse (.stackMismatch l.index)
      -- the frame that was recorded first stays, with the classes that it names
      restore known
    | none => modifyLabel l fun s => { s with frame := some frame }
  else
    match state.frame with
    | some known =>
      restore known
      modify fun a => { a with reachable := true }
    -- neither control nor a jump comes here, so what follows cannot run
    | none => return

/-! ## 3. The operand stack -/

/-- Adds an operation; none may follow a jump or a return without a label between. -/
def emit (op : Operation) : Assembly Unit := do
  if !(← get).reachable then refuse (.unreachable (← get).offset)
  modify fun a => { a with operations := a.operations.push op, offset := a.offset + op.size }

def push (t : VerificationType) : Assembly Unit :=
  modify fun a =>
    let slots := a.stackSlots + t.width
    { a with stack := t :: a.stack, stackSlots := slots, maxStack := max a.maxStack slots }

def pop : Assembly VerificationType := do
  match (← get).stack with
  | t :: stack =>
    modify fun a => { a with stack, stackSlots := a.stackSlots - t.width }
    return t
  | [] => refuse (.stackUnderflow (← get).offset)

def popMany : Nat → Assembly Unit
  | 0 => return
  | n + 1 => do
    let _ ← pop
    popMany n

/-! ## 4. Constants and locals -/

def aconstNull : Assembly Unit := do
  emit .aconstNull
  push .null

def loadConstant (index : UInt16) : Assembly Unit :=
  emit (if index ≤ 0xff then .ldc index.toUInt8 else .ldcW index)

def iconst (value : Int32) : Assembly Unit := do
  if -1 ≤ value ∧ value ≤ 5 then emit (.iconst value.toInt8)
  else if -128 ≤ value ∧ value ≤ 127 then emit (.bipush value.toInt8)
  else if -32768 ≤ value ∧ value ≤ 32767 then emit (.sipush value.toInt16)
  else loadConstant (← intern (Interning.integer value))
  push .integer

def lconst (value : Int64) : Assembly Unit := do
  if value = 0 then emit .lconst0
  else if value = 1 then emit .lconst1
  else emit (.ldc2W (← intern (Interning.long value)))
  push .long

def ldcString (text : String) : Assembly Unit := do
  loadConstant (← intern (Interning.string text))
  push (.object "java/lang/String")

def ldcClass (name : String) : Assembly Unit := do
  loadConstant (← intern (Interning.classRef name))
  push (.object "java/lang/Class")

def load (slot : UInt16) (t : FieldType) : Assembly Unit := do
  emit (.load (ValueKind.ofType t) slot)
  match (← get).locals[slot.toNat]? with
  | none | some .top => refuse (.unassignedLocal slot)
  | some held => push held

/-- The locals after a value of type `t` is stored in `slot`; slots are added as needed. -/
def localsAfterStore (locals : Array VerificationType) (slot : Nat) (t : FieldType) :
    Array VerificationType :=
  let missing := slot + t.slots - locals.size
  let stored :=
    (locals ++ Array.replicate missing VerificationType.top).setIfInBounds slot (.ofType t)
  if t.slots = 2 then stored.setIfInBounds (slot + 1) .top else stored

def store (slot : UInt16) (t : FieldType) : Assembly Unit := do
  emit (.store (ValueKind.ofType t) slot)
  let _ ← pop
  modify fun a =>
    let locals := localsAfterStore a.locals slot.toNat t
    { a with locals, maxLocals := max a.maxLocals (UInt16.ofNat locals.size) }

/-! ## 5. Members and objects -/

def getField (owner name : String) (t : FieldType) : Assembly Unit := do
  emit (.getField (← intern (Interning.fieldRef owner name t.descriptor)))
  let _ ← pop
  push (.ofType t)

def getStatic (owner name : String) (t : FieldType) : Assembly Unit := do
  emit (.getStatic (← intern (Interning.fieldRef owner name t.descriptor)))
  push (.ofType t)

def markInitialized (receiver : VerificationType) (owner : String) : Assembly Unit :=
  let become (t : VerificationType) := if t = receiver then .object owner else t
  modify fun a => { a with stack := a.stack.map become, locals := a.locals.map become }

def invoke (kind : InvokeKind) (owner name : String) (type : MethodDescriptor)
    (onInterface : Bool) : Assembly Unit := do
  -- the constant is interned before anything is refused, as for all instructions with one
  let index ← intern (Interning.methodRef owner name type.descriptor
    (onInterface || kind = .interface))
  let slots := type.paramSlots + 1
  if kind = .interface ∧ slots > 255 then refuse (.tooManyArguments name type)
  emit (.invoke kind index slots.toUInt8)
  popMany type.params.length
  if kind ≠ .static then
    let receiver ← pop
    if name = "<init>" ∧ receiver.isUninitialized then markInitialized receiver owner
  match type.ret with
  | some t => push (.ofType t)
  | none => return

def newObject (name : String) : Assembly Unit := do
  let index ← intern (Interning.classRef name)
  -- an object without a constructor call is known by the place of its instruction
  let offset := (← get).offset
  emit (.new index)
  push (.uninitialized (UInt16.ofNat offset))

def checkcast (name : String) : Assembly Unit := do
  emit (.checkcast (← intern (Interning.classRef name)))
  let _ ← pop
  push (.object name)

def instanceOf (name : String) : Assembly Unit := do
  emit (.instanceof (← intern (Interning.classRef name)))
  let _ ← pop
  push .integer

/-! ## 6. Stack and arithmetic -/

def dup : Assembly Unit := do
  emit .dup
  let t ← pop
  if t.isWide then refuse .wideDup
  push t
  push t

def popValue : Assembly Unit := do
  match (← get).stack with
  | [] => refuse (.stackUnderflow (← get).offset)
  | t :: _ =>
    -- the width decides on the instruction, so the value is looked at before it is taken
    emit (if t.isWide then .pop2 else .pop)
    let _ ← pop

def swap : Assembly Unit := do
  emit .swap
  let a ← pop
  let b ← pop
  if a.isWide || b.isWide then refuse .wideSwap
  push a
  push b

def lcmp : Assembly Unit := do
  emit .lcmp
  popMany 2
  push .integer

def add (t : FieldType) : Assembly Unit := do
  match ValueKind.ofType t with
  | .long =>
    emit .ladd
    popMany 2
    push .long
  | .int =>
    emit .iadd
    popMany 2
    push .integer
  | _ => refuse (.cannotAdd t)

/-- Converts the top of the stack to a wider type; types that are held alike need nothing. -/
def widen (source target : FieldType) : Assembly Unit := do
  if source = target ∨ (source.isIntLike ∧ target.isIntLike) then return
  match Conversion.ofKinds? (ValueKind.ofType source) (ValueKind.ofType target) with
  | some c =>
    emit (.convert c)
    let _ ← pop
    push (.ofType target)
  | none => refuse (.cannotWiden source target)

/-! ## 7. Control -/

def jump (op : Operation) (target : Label) : Assembly Unit := do
  emit op
  recordFrame target (← frameFor target)

/-- Jumps if the test holds.  Its operands are taken before the frame is recorded. -/
def branch (test : Test) (target : Label) : Assembly Unit := do
  -- without this the stack would be blamed for code that control does not get to
  if !(← get).reachable then refuse (.unreachable (← get).offset)
  popMany test.operands
  jump (.branch test target) target

def branchBy (opcode : UInt8) (target : Label) : Assembly Unit := do
  match Test.ofOpcode? opcode with
  | some test => branch test target
  | none => refuse (.notConditional opcode)

def goto (target : Label) : Assembly Unit := do
  jump (.goto target) target
  modify fun a => { a with reachable := false }

def returnValue (t : Option FieldType) : Assembly Unit := do
  emit (.ret (t.map ValueKind.ofType))
  if t.isSome then
    let _ ← pop
  modify fun a => { a with reachable := false, stack := [], stackSlots := 0 }

/-- Sends exceptions of a class (any at all, for `none`) that are raised between `start` and `stop`
to `handler`.  This follows the placing of `start`: the handler has the locals of that moment, and
the exception alone on its stack. -/
def addHandler (start stop handler : Label) (catchType : Option String) : Assembly Unit := do
  let index ← match catchType with
    | some name => intern (Interning.classRef name)
    | none => pure 0
  let frame ← frameFor handler
  recordFrame handler { frame with stack := [.object (catchType.getD "java/lang/Throwable")] }
  modify fun a => { a with handlers := a.handlers.push ⟨start, stop, handler, index⟩ }

end Assembly

end MethodGraft.Code
