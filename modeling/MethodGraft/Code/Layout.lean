import MethodGraft.ClassFile.Codec
import MethodGraft.Code.Assembler

/-!
# Code.Layout — from operations to a Code attribute

Once a body is complete, jumps get their distances, handlers their positions, and every label that a
jump or a handler leads to gets a full frame in the stack map.  Frames are in order of position, one
for each position; of several labels at one position the first one made gives the frame.
-/

namespace MethodGraft.Code

open ClassFile

def stackMapVersion : UInt16 := 50

namespace Assembler

def position (a : Assembler) (l : Label) : Except Error Nat :=
  match (a.labelState l).position with
  | some p => .ok p
  | none => fail (.neverPlaced l.index)

/-! ## 1. Code and handlers -/

def distance (origin target : Nat) : Except Error Int16 :=
  let d : Int := (target : Int) - origin
  if -32768 ≤ d ∧ d ≤ 32767 then .ok (Int16.ofInt d) else fail (.branchTooFar origin target)

def operationBytes (a : Assembler) (offset : Nat) (op : Operation) : Except Error (List UInt8) :=
  match op.target? with
  -- without a label the distance is not looked at
  | none => .ok (op.encode 0)
  | some l => do
    let target ← a.position l
    return op.encode (← distance offset target)

/-- The bytes of operations that start at `offset`; `written` holds the ones before them, the last
one first. -/
def codeFrom (a : Assembler) : (offset : Nat) → (written : List (List UInt8)) →
    List Operation → Except Error (List UInt8)
  | _, written, [] => .ok written.reverse.flatten
  | offset, written, op :: operations => do
    let bytes ← a.operationBytes offset op
    a.codeFrom (offset + op.size) (bytes :: written) operations

def handlerEntry (a : Assembler) (h : HandlerRange) : Except Error ExceptionHandler := do
  let startPc := UInt16.ofNat (← a.position h.start)
  let endPc := UInt16.ofNat (← a.position h.stop)
  if endPc ≤ startPc then fail .emptyRange
  let handlerPc := UInt16.ofNat (← a.position h.handler)
  return ⟨startPc, endPc, handlerPc, h.catchType⟩

/-! ## 2. Stack map frames -/

def labelFrame? (a : Assembler) (s : LabelState) : Except Error (Option (Nat × Frame)) :=
  match s.targeted, s.position, s.frame with
  | true, some position, some frame =>
    -- behind the last instruction there is nothing that a frame could belong to
    if position < a.offset then .ok (some (position, frame)) else fail (.targetPastEnd position)
  | _, _, _ => .ok none

def firstAtPosition : List (Nat × Frame) → List (Nat × Frame)
  | [] => []
  | f :: rest =>
    -- the frames are in order of position and, at one position, of their labels
    match firstAtPosition rest with
    | [] => [f]
    | g :: later => if f.1 = g.1 then f :: later else f :: g :: later

def frames (a : Assembler) : Except Error (List (Nat × Frame)) := do
  let found ← a.labels.toList.mapM a.labelFrame?
  return firstAtPosition ((found.filterMap id).mergeSort fun f g => f.1 ≤ g.1)

end Assembler

/-- The entries that stand for local slots: the second slot of a long or a double has none. -/
def localEntries : List VerificationType → List VerificationType
  | [] => []
  | [t] => [t]
  -- `u` is the second slot of `t`
  | t :: u :: rest => if t.isWide then t :: localEntries rest else t :: localEntries (u :: rest)

def encodeTypes (types : List VerificationType) : Interning (List UInt8) := do
  let count ← Interning.ofExcept (encodeCount .frameEntries types.length)
  let entries ← types.mapM VerificationType.encode
  return count ++ entries.flatten

/-- The bytes of a full frame.  Its position is given by the distance from the frame before it, less
one; the first frame has its position itself. -/
def encodeFrame (previous : Option Nat) (position : Nat) (frame : Frame) :
    Interning (List UInt8) := do
  let delta := match previous with
    | none => position
    -- positions grow strictly, so the distance is at least one
    | some p => position - p - 1
  let locals ← encodeTypes (localEntries frame.locals.toList)
  let stack ← encodeTypes frame.stack.reverse
  return 255 :: (be16 (UInt16.ofNat delta) ++ locals ++ stack)

def encodeFrames (previous : Option Nat) : List (Nat × Frame) → Interning (List UInt8)
  | [] => return []
  | (position, frame) :: rest => do
    let bytes ← encodeFrame previous position frame
    return bytes ++ (← encodeFrames (some position) rest)

/-- The stack map attribute with these frames; without frames there is none. -/
def stackMap (frames : List (Nat × Frame)) : Interning (List Attribute) := do
  if frames.isEmpty then return []
  let count ← Interning.ofExcept (encodeCount .stackMapFrames frames.length)
  let bytes ← encodeFrames none frames
  return [.raw (← Interning.utf8 "StackMapTable") (count ++ bytes)]

def Assembler.layout (a : Assembler) (majorVersion : UInt16) : Interning CodeAttribute := do
  -- control would run past the last instruction
  if a.reachable then Interning.refuse .endReached
  if a.offset = 0 ∨ a.offset > 65535 then Interning.refuse (.codeLength a.offset)
  let code ← Interning.ofExcept (a.codeFrom 0 [] a.operations.toList)
  let handlers ← Interning.ofExcept (a.handlers.toList.mapM a.handlerEntry)
  let frames ← Interning.ofExcept a.frames
  let attributes ← if majorVersion ≥ stackMapVersion then stackMap frames else pure []
  let nameIndex ← Interning.utf8 "Code"
  return ⟨nameIndex, a.maxStack, a.maxLocals, code, handlers, attributes⟩

def Assembly.finish (majorVersion : UInt16) : Assembly CodeAttribute := do
  let a ← get
  Assembly.intern (a.layout majorVersion)

end MethodGraft.Code
