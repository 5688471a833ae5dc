import MethodGraft.ClassFile.Error

/-!
# ClassFile.Reader — big-endian input with a position

A reader consumes bytes from the front and knows how many it has consumed, which is what a message
about truncated input reports.  The writers `be16`, `be32` and `be64` give the bytes that the
readers `u16`, `u32` and `u64` consume.
-/

namespace MethodGraft.ClassFile

/-! ## 1. Bytes of numbers -/

def be16 (n : UInt16) : List UInt8 := [(n >>> 8).toUInt8, n.toUInt8]

def be32 (n : UInt32) : List UInt8 :=
  [(n >>> 24).toUInt8, (n >>> 16).toUInt8, (n >>> 8).toUInt8, n.toUInt8]

def be64 (n : UInt64) : List UInt8 := be32 (n >>> 32).toUInt32 ++ be32 n.toUInt32

def ofBe16 (hi lo : UInt8) : UInt16 := hi.toUInt16 <<< 8 ||| lo.toUInt16

def ofBe32 (a b c d : UInt8) : UInt32 :=
  a.toUInt32 <<< 24 ||| b.toUInt32 <<< 16 ||| c.toUInt32 <<< 8 ||| d.toUInt32

def ofBe64 (high low : UInt32) : UInt64 := high.toUInt64 <<< 32 ||| low.toUInt64

/-! ## 2. The input -/

structure Cursor where
  rest : List UInt8
  offset : Nat
  deriving DecidableEq, Repr

def Cursor.start (bytes : List UInt8) : Cursor := ⟨bytes, 0⟩

abbrev Reader := StateT Cursor (Except Error)

namespace Reader

/-- Fails at the current position: the input has ended too early. -/
def truncated {α : Type} (c : Cursor) : Except Error α := fail (.truncated c.offset)

def u8 : Reader UInt8 := fun c =>
  match c.rest with
  | a :: rest => .ok (a, ⟨rest, c.offset + 1⟩)
  | _ => truncated c

def u16 : Reader UInt16 := fun c =>
  match c.rest with
  | a :: b :: rest => .ok (ofBe16 a b, ⟨rest, c.offset + 2⟩)
  | _ => truncated c

def u32 : Reader UInt32 := fun c =>
  match c.rest with
  | a :: b :: d :: e :: rest => .ok (ofBe32 a b d e, ⟨rest, c.offset + 4⟩)
  | _ => truncated c

/-- Reads a number of eight bytes; each half is reported on its own if it is missing. -/
def u64 : Reader UInt64 := do
  let high ← u32
  let low ← u32
  return ofBe64 high low

/-- Splits `n` items off the front, if there are that many; `taken` holds those already split off,
the last one first. -/
def splitExactly {α : Type} : (n : Nat) → (taken items : List α) → Option (List α × List α)
  | 0, taken, items => some (taken.reverse, items)
  | _ + 1, _, [] => none
  | n + 1, taken, a :: items => splitExactly n (a :: taken) items

def bytes (n : Nat) : Reader (List UInt8) := fun c =>
  match splitExactly n [] c.rest with
  | some (taken, rest) => .ok (taken, ⟨rest, c.offset + n⟩)
  | none => truncated c

def check {α : Type} (x : Except Error α) : Reader α := fun c => x.map fun a => (a, c)

def within {α : Type} (p : Place) (r : Reader α) : Reader α := fun c =>
  ClassFile.within p (r c)

/-- Runs `item` for each index from `i` on, `n` times; `items` holds the results so far, the last
one first. -/
def timesFrom {α : Type} (item : Nat → Reader α) (i : Nat) : (n : Nat) → List α → Reader (List α)
  | 0, items, c => .ok (items.reverse, c)
  | n + 1, items, c =>
    match item i c with
    | .ok (a, c) => timesFrom item (i + 1) n (a :: items) c
    | .error e => .error e

/-- Reads `n` items; each reader is told the index of its item. -/
def times {α : Type} (n : Nat) (item : Nat → Reader α) : Reader (List α) := timesFrom item 0 n []

def counted {α : Type} (item : Nat → Reader α) : Reader (List α) := do
  let n ← u16
  times n.toNat item

/-- Runs a reader on a whole byte string and returns its result with the bytes left over. -/
def run {α : Type} (r : Reader α) (input : List UInt8) : Except Error (α × List UInt8) :=
  (r (.start input)).map fun (a, c) => (a, c.rest)

end Reader

end MethodGraft.ClassFile
