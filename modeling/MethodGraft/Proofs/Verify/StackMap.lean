import MethodGraft.ClassFile.Basic
import MethodGraft.Proofs.Machine.Value
import MethodGraft.Proofs.Typed.Layout

/-!
# Proofs.Verify.StackMap — stack maps as they are read

A stack map says for some positions which kinds of values the local slots and the operand stack hold
there.  Only full frames are read; a stack map with others is none.
-/

namespace MethodGraft.Verify

open ClassFile Code

/-- What a stack map says of a position: the local slots, and the stack with its top first. -/
structure KindFrame where
  locals : Layout
  stack : List ValueKind
  deriving DecidableEq, Repr

abbrev Table := List (Nat × KindFrame)

def Table.at? (t : Table) (position : Nat) : Option KindFrame :=
  (t.find? fun entry => entry.1 = position).map Prod.snd

/-! ## 1. Types -/

/-- The kind of one type at the front of the bytes; `top` has none.  The class of an object must be
there. -/
def readKind (pool : ConstantPool) : List UInt8 → Option (Option ValueKind × List UInt8)
  | 0 :: rest => some (none, rest)
  | 1 :: rest => some (some .int, rest)
  | 2 :: rest => some (some .float, rest)
  | 3 :: rest => some (some .double, rest)
  | 4 :: rest => some (some .long, rest)
  | 5 :: rest | 6 :: rest => some (some .reference, rest)
  | 7 :: hi :: lo :: rest => (pool.class? (ofBe16 hi lo)).map fun _ => (some .reference, rest)
  | 8 :: _ :: _ :: rest => some (some .reference, rest)
  | _ => none

def readKinds (pool : ConstantPool) : Nat → List UInt8 → Option (Layout × List UInt8)
  | 0, bytes => some ([], bytes)
  | n + 1, bytes => do
    let (k, bytes) ← readKind pool bytes
    let (ks, bytes) ← readKinds pool n bytes
    some (k :: ks, bytes)

def readCounted (pool : ConstantPool) : List UInt8 → Option (Layout × List UInt8)
  | hi :: lo :: bytes => readKinds pool (ofBe16 hi lo).toNat bytes
  | _ => none

/-! ## 2. Frames -/

/-- The slots that the types of a frame stand for: a `long` or a `double` stands for two. -/
def slotsOf (types : Layout) : Layout :=
  types.flatMap fun
    | some k => k.layout
    | none => [none]

def readFrame (pool : ConstantPool) : List UInt8 → Option ((Nat × KindFrame) × List UInt8)
  | 255 :: hi :: lo :: bytes => do
    let (locals, bytes) ← readCounted pool bytes
    let (types, bytes) ← readCounted pool bytes
    let stack ← types.reverse.mapM id
    some (((ofBe16 hi lo).toNat, ⟨slotsOf locals, stack⟩), bytes)
  | _ => none

/-- The position that a distance leads to.  The first frame has its position itself. -/
def position (previous : Option Nat) (delta : Nat) : Nat :=
  match previous with
  | none => delta
  | some p => p + delta + 1

def readFrames (pool : ConstantPool) : (n : Nat) → (previous : Option Nat) → List UInt8 →
    Option Table
  | 0, _, [] => some []
  | 0, _, _ :: _ => none
  | n + 1, previous, bytes => do
    let ((delta, frame), bytes) ← readFrame pool bytes
    let rest ← readFrames pool n (some (position previous delta)) bytes
    some ((position previous delta, frame) :: rest)

def stackMaps (pool : ConstantPool) (attributes : List Attribute) : List (List UInt8) :=
  attributes.filterMap fun
    | .raw nameIndex info =>
      match pool.utf8 nameIndex with
      | .ok "StackMapTable" => some info
      | _ => none
    | .code _ => none

/-- The stack map among the attributes of a method body; without one there are no frames. -/
def stackMap? (pool : ConstantPool) (attributes : List Attribute) : Option Table :=
  match stackMaps pool attributes with
  | [] => some []
  | [hi :: lo :: bytes] => readFrames pool (ofBe16 hi lo).toNat none bytes
  | _ => none

end MethodGraft.Verify
