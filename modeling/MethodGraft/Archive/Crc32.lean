/-!
# Archive.Crc32 — the check value of entry contents

The cyclic redundancy check of archives: bits in reflected order, the polynomial `EDB88320`, all
bits inverted before and after.
-/

namespace MethodGraft.Archive.Crc32

def shift (c : UInt32) : UInt32 :=
  if c &&& 1 = 1 then (c >>> 1) ^^^ 0xEDB88320 else c >>> 1

def update (c : UInt32) (b : UInt8) : UInt32 :=
  shift (shift (shift (shift (shift (shift (shift (shift (c ^^^ b.toUInt32))))))))

def ofBytes (bytes : List UInt8) : UInt32 := bytes.foldl update 0xFFFFFFFF ^^^ 0xFFFFFFFF

end MethodGraft.Archive.Crc32
