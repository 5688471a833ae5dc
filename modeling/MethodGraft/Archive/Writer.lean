import MethodGraft.Archive.Directory
import MethodGraft.Archive.Library

/-!
# Archive.Writer — writing zip archives

Local records with the contents come first, one after the other, then the central records in the
same order, and the end record.  Nothing is compressed: where the method asks for it, contents go
into stored blocks.  With the reader of `Archive.Directory` this makes `Library.standard`.
-/

namespace MethodGraft.Archive

/-! ## 1. Records -/

/-- An entry to be written: what its records say, and its compressed contents. -/
structure Part where
  entry : Entry
  raw : List UInt8

namespace Part

def flags (name : List UInt8) : UInt16 := if name.all (· < 0x80) then 0 else 0x800

def sharedFields (p : Part) (name : List UInt8) : List UInt8 :=
  let e := p.entry
  le16 20 ++ le16 (flags name) ++ le16 e.method.code ++ le16 e.time ++ le16 e.date ++ le32 e.crc ++
    le32 e.compressedSize ++ le32 e.size ++ le16 (UInt16.ofNat name.length) ++ le16 0

def localRecord (p : Part) : List UInt8 :=
  let name := Utf8.encode p.entry.name
  localSignature ++ p.sharedFields name ++ name ++ p.raw

def centralRecord (p : Part) (offset : Nat) : List UInt8 :=
  let e := p.entry
  let name := Utf8.encode e.name
  centralSignature ++ le16 e.madeBy ++ p.sharedFields name ++ le16 0 ++ le16 0 ++
    le16 e.internalAttributes ++ le32 e.externalAttributes ++ le32 (UInt32.ofNat offset) ++ name

end Part

def centralRecords (offset : Nat) : List Part → List UInt8
  | [] => []
  | p :: parts =>
    p.centralRecord offset ++ centralRecords (offset + p.localRecord.length) parts

def assemble (parts : List Part) (comment : List UInt8) : List UInt8 :=
  let records := parts.flatMap Part.localRecord
  let central := centralRecords 0 parts
  let count := UInt16.ofNat parts.length
  records ++ central ++ endSignature ++ le16 0 ++ le16 0 ++ le16 count ++ le16 count ++
    le32 (UInt32.ofNat central.length) ++ le32 (UInt32.ofNat records.length) ++
    le16 (UInt16.ofNat comment.length) ++ comment

/-! ## 2. Entries -/

def compress (method : Method) (data : List UInt8) : List UInt8 :=
  match method with
  | .deflated => Deflate.deflate data
  | _ => data

def unixMadeBy : UInt16 := 0x032e

/-- Of a mode only the permissions are kept, and not the kind of file. -/
def permissionsOr (default : UInt32) (mode? : Option UInt32) : UInt32 :=
  (mode?.map (· &&& 0o777)).getD default

/-- The part for an entry that is copied.  It counts as made on Unix, whatever it was made on
before. -/
def Part.ofCopy (e : Entry) (raw : List UInt8) : Part :=
  ⟨{ e with
      madeBy := unixMadeBy
      internalAttributes := 0
      externalAttributes := permissionsOr 0o100644 e.unixMode? <<< 16 }, raw⟩

def Part.ofFile (name : String) (options : Options) (data : List UInt8) : Part :=
  let raw := compress options.method data
  ⟨{  name
      madeBy := unixMadeBy
      encrypted := false
      method := options.method
      time := options.time
      date := options.date
      crc := Crc32.ofBytes data
      compressedSize := UInt32.ofNat raw.length
      size := UInt32.ofNat data.length
      internalAttributes := 0
      externalAttributes := (permissionsOr 0o644 options.mode? ||| 0o100000) <<< 16
      comment := []
      -- these are known once the archive is complete
      headerStart := 0
      centralStart := 0 }, raw⟩

/-- The library that reads as `Archive.Directory` does and writes as `assemble` does. -/
def Library.standard : Library where
  read := ofBytes
  raw := Archive.rawContent
  content := Archive.content
  Writer := Array Part
  start := #[]
  copy e raw parts := .ok (parts.push (.ofCopy e raw))
  add name options data parts := .ok (parts.push (.ofFile name options data))
  finish comment parts := .ok (assemble parts.toList comment)

end MethodGraft.Archive
