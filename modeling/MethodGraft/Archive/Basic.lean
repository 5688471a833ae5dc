import MethodGraft.Archive.Error

/-!
# Archive.Basic — zip archives and their entries

An archive is its bytes together with what its central directory says about them.
-/

namespace MethodGraft

namespace Archive

/-! ## 1. Numbers -/

def u16At (b : List UInt8) (i : Nat) : UInt16 :=
  match b.drop i with
  | low :: high :: _ => low.toUInt16 ||| high.toUInt16 <<< 8
  | _ => 0

def u32At (b : List UInt8) (i : Nat) : UInt32 :=
  (u16At b i).toUInt32 ||| (u16At b (i + 2)).toUInt32 <<< 16

def le16 (n : UInt16) : List UInt8 := [n.toUInt8, (n >>> 8).toUInt8]

def le32 (n : UInt32) : List UInt8 := le16 n.toUInt16 ++ le16 (n >>> 16).toUInt16

def hasBytes (n : Nat) (b : List UInt8) : Bool := n == 0 || !(b.drop (n - 1)).isEmpty

/-! ## 2. Entries -/

inductive Method where
  | stored
  | deflated
  | other (code : UInt16)
  deriving DecidableEq, Repr

def Method.ofCode (code : UInt16) : Method :=
  if code = 0 then .stored else if code = 8 then .deflated else .other code

def Method.code : Method → UInt16
  | .stored => 0
  | .deflated => 8
  | .other code => code

structure Entry where
  name : String
  /-- The version and the host system that the entry was made by. -/
  madeBy : UInt16
  encrypted : Bool
  method : Method
  time : UInt16
  date : UInt16
  crc : UInt32
  compressedSize : UInt32
  size : UInt32
  internalAttributes : UInt16
  externalAttributes : UInt32
  comment : List UInt8
  /-- Where the local header starts. -/
  headerStart : Nat
  /-- Where the record itself starts. -/
  centralStart : Nat
  deriving Repr

namespace Entry

def isDirectory (e : Entry) : Bool :=
  match e.name.toList.getLast? with
  | some c => c == '/' || c == '\\'
  | none => false

def unixMode? (e : Entry) : Option UInt32 :=
  let a := e.externalAttributes
  let system := e.madeBy >>> 8
  if a = 0 then none
  else if system = 3 then some (a >>> 16)
  else if system = 0 then
    let mode : UInt32 := if a &&& 0x10 ≠ 0 then 0o40775 else 0o100664
    some (if a &&& 1 ≠ 0 then mode &&& 0o555 else mode)
  else none

end Entry

/-! ## 3. Archives -/

end Archive

open Archive in
structure Archive where
  bytes : List UInt8
  entries : List Entry
  comment : List UInt8
  deriving Repr

namespace Archive

/-- The entry with this name; of several, the last one. -/
def find? (a : Archive) (name : String) : Option Entry :=
  a.entries.reverse.find? fun e => e.name == name

end Archive

end MethodGraft
