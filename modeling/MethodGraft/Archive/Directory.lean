import MethodGraft.Archive.Basic
import MethodGraft.Archive.Crc32
import MethodGraft.Archive.Deflate
import MethodGraft.Text.CodePage437
import MethodGraft.Text.Utf8

/-!
# Archive.Directory — reading zip archives

An archive is read from its end: the end record gives the place of the central directory, and each
record of that gives the place of an entry.  Bytes may stand before the first entry; all places are
then counted from where the archive really starts.  Numbers are little-endian.
-/

namespace MethodGraft.Archive

/-! ## 1. The end record -/

def endSignature : List UInt8 := [0x50, 0x4b, 0x05, 0x06]

def centralSignature : List UInt8 := [0x50, 0x4b, 0x01, 0x02]

def localSignature : List UInt8 := [0x50, 0x4b, 0x03, 0x04]

def endLength : Nat := 22

/-- Searches `b`, which starts at `position` and has `length` bytes, for the last end record that
is complete but for its comment.  Its comment would reach the end of the archive at the latest, so
records further than the longest comment from the end are none. -/
def lastEndRecord (found : Option (Nat × List UInt8)) (position length : Nat) :
    List UInt8 → Option (Nat × List UInt8)
  | [] => found
  | x :: rest =>
    -- bytes that look like a record inside of a comment are taken for one
    let here := endLength ≤ length && length ≤ endLength + 65535 &&
      endSignature.isPrefixOf (x :: rest)
    -- the last one counts, so the search goes on
    lastEndRecord (if here then some (position, x :: rest) else found) (position + 1) (length - 1)
      rest

/-! ## 2. The directory -/

def invalid {α : Type} : Except Error α := .error (.zip .invalidArchive)

def cutShort {α : Type} : Except Error α := .error (.zip .cutShort)

def centralLength : Nat := 46

/-- Reads the central record that stands at `start`, which is where `b` begins, and counts its
bytes.  Local headers start `shift` bytes later than they say. -/
def readEntry (shift start : Nat) (b : List UInt8) : Except Error (Entry × Nat) :=
  if !hasBytes 4 b then cutShort
  else if !centralSignature.isPrefixOf b then invalid
  else if !hasBytes centralLength b then cutShort
  else
    let nameLength := (u16At b 28).toNat
    let extraLength := (u16At b 30).toNat
    let commentLength := (u16At b 32).toNat
    let total := centralLength + nameLength + extraLength + commentLength
    if !hasBytes total b then cutShort
    else
      let flags := u16At b 8
      let name := (b.drop centralLength).take nameLength
      let comment := (b.drop (centralLength + nameLength + extraLength)).take commentLength
      .ok ({
        name := if flags &&& 0x800 ≠ 0 then Utf8.decodeLossy name else CodePage437.decode name
        madeBy := u16At b 4
        encrypted := flags &&& 1 ≠ 0
        method := .ofCode (u16At b 10)
        time := u16At b 12
        date := u16At b 14
        crc := u32At b 16
        compressedSize := u32At b 20
        size := u32At b 24
        internalAttributes := u16At b 36
        externalAttributes := u32At b 38
        comment
        headerStart := (u32At b 42).toNat + shift
        centralStart := start }, total)

/-- Reads `n` central records, the first of which stands at `start`; `entries` holds those already
read, the last one first. -/
def readEntries (shift : Nat) : (n start : Nat) → (entries : List Entry) → List UInt8 →
    Except Error (List Entry)
  | 0, _, entries, _ => .ok entries.reverse
  | n + 1, start, entries, b => do
    let (e, length) ← readEntry shift start b
    readEntries shift n (start + length) (e :: entries) (b.drop length)

def hasOverflow (record : List UInt8) : Bool :=
  [4, 6, 8, 10].any (fun i => u16At record i == 0xFFFF) ||
    [12, 16].any fun i => u32At record i == 0xFFFFFFFF

def readFrom (bytes : List UInt8) (position : Nat) (record : List UInt8) :
    Except Error Archive := do
  let commentLength := (u16At record 20).toNat
  if !hasBytes (endLength + commentLength) record then cutShort
  -- an archive that is split over several disks
  if u16At record 4 ≠ u16At record 6 ∧ !hasOverflow record then .error (.zip .unsupportedArchive)
  let size := (u32At record 12).toNat
  let offset := (u32At record 16).toNat
  if position < size + offset then invalid
  -- what stands before the archive moves every place by the same distance
  let shift := position - size - offset
  let start := offset + shift
  let entries ← readEntries shift (u16At record 8).toNat start [] (bytes.drop start)
  return ⟨bytes, entries, (record.drop endLength).take commentLength⟩

def ofBytes (bytes : List UInt8) : Except Error Archive :=
  match lastEndRecord none 0 bytes.length bytes with
  | some (position, record) => readFrom bytes position record
  | none => invalid

/-! ## 3. Contents -/

def localLength : Nat := 30

def rawContent (a : Archive) (e : Entry) : Except Error (List UInt8) :=
  let b := a.bytes.drop e.headerStart
  if !hasBytes 4 b then cutShort
  else if !localSignature.isPrefixOf b then invalid
  else if !hasBytes localLength b then cutShort
  else
    -- of the local header only the lengths of its own name and extra field matter
    let start := localLength + (u16At b 26).toNat + (u16At b 28).toNat
    .ok ((b.drop start).take e.compressedSize.toNat)

def expand (method : Method) (raw : List UInt8) : Except Error (List UInt8) :=
  match method with
  | .stored => .ok raw
  | .deflated =>
    match Deflate.inflate? raw with
    | some data => .ok data
    | none => .error (.io .other)
  | .other _ => .error (.zip .unsupportedArchive)

def content (a : Archive) (e : Entry) : Except Error (List UInt8) := do
  if e.encrypted then .error (.zip .unsupportedArchive)
  let raw ← a.rawContent e
  let data ← expand e.method raw
  -- the size that is noted is not compared
  if Crc32.ofBytes data = e.crc then return data else .error (.io .other)

/-- The entries in order.  Each must have its local header. -/
def list (a : Archive) : Except Error (List Entry) := do
  a.entries.forM fun e => (a.rawContent e).map fun _ => ()
  return a.entries

def contentOf? (a : Archive) (name : String) : Except Error (Option (List UInt8)) :=
  match a.find? name with
  | some e => (a.content e).map some
  | none => .ok none

end MethodGraft.Archive
