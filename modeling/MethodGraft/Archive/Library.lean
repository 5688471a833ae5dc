import MethodGraft.Archive.Basic
import MethodGraft.Archive.Error

/-!
# Archive.Library — what reads and writes archives

Archives are amended by way of a library that reads them and writes new ones.  `Library` has the
calls that are made of it: the directory, the entries with their compressed or expanded contents,
and a writer that takes one entry after the other.
-/

namespace MethodGraft.Archive

structure Options where
  method : Method
  time : UInt16
  date : UInt16
  /-- The mode on a Unix system. -/
  mode? : Option UInt32
  /-- Sizes may take more than four bytes. -/
  large : Bool
  deriving DecidableEq, Repr

structure Library where
  /-- Reads the directory of an archive. -/
  read : List UInt8 → Except Error Archive
  /-- The compressed contents of an entry, which are behind its local header. -/
  raw : Archive → Entry → Except Error (List UInt8)
  /-- The contents of an entry. -/
  content : Archive → Entry → Except Error (List UInt8)
  /-- An archive in the making. -/
  Writer : Type
  start : Writer
  /-- Adds an entry with the compressed contents that it has elsewhere. -/
  copy : Entry → List UInt8 → Writer → Except Error Writer
  /-- Adds a file, and compresses what it holds. -/
  add : String → Options → List UInt8 → Writer → Except Error Writer
  /-- The bytes of the archive, which has the given comment. -/
  finish : List UInt8 → Writer → Except Error (List UInt8)

end MethodGraft.Archive
