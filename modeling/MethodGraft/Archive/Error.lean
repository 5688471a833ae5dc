import MethodGraft.Files.Error

/-!
# Archive.Error — why an archive is refused
-/

namespace MethodGraft.Archive

inductive ZipFault where
  /-- A record is not where it should be. -/
  | invalidArchive
  /-- The bytes end inside a record. -/
  | cutShort
  /-- An encrypted entry, an unknown compression method, or an archive in several parts. -/
  | unsupportedArchive
  deriving DecidableEq, Repr

inductive Error where
  /-- The file or the contents of an entry, which may be damaged, cannot be read. -/
  | io (fault : Files.Fault)
  | zip (fault : ZipFault)
  deriving DecidableEq, Repr

def Error.message : Error → String
  | .io _ => "I/O error"
  | .zip _ => "ZIP error"

inductive AmendError where
  | archive (error : Error)
  /-- The directory that was written has another number of entries than the old one. -/
  | entryCount (found expected : Nat)
  /-- The central record of an entry is not within the bytes. -/
  | recordCut (index : Nat)
  deriving DecidableEq, Repr

namespace AmendError

def message : AmendError → String
  | .archive e => e.message
  | .entryCount found expected =>
    "rewritten archive has " ++ toString found ++ " entries, expected " ++ toString expected
  | .recordCut index => "central header of entry " ++ toString index ++ " is truncated"

def toError : AmendError → Error
  | .archive e => e
  | .entryCount .. | .recordCut _ => .zip .invalidArchive

end AmendError

end MethodGraft.Archive
