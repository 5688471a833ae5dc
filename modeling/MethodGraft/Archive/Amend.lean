import MethodGraft.Archive.Writer

/-!
# Archive.Amend — archives with some entries changed

`Library.amend` passes the contents of chosen entries through a function.  Every other entry is
copied in its compressed form.  All entries keep their names, order, compression methods and times,
and the archive keeps its comment.  What writes the archive has its own idea of the host system and
of the attributes, so that the bytes of these are copied from the old directory to the new one
afterwards.
-/

namespace MethodGraft.Archive

/-! ## 1. Restoring attributes -/

def recordAt? (bytes : List UInt8) (start : Nat) : Option (List UInt8) :=
  let record := (bytes.drop start).take centralLength
  if record.length = centralLength then some record else none

def overwrite (bytes : List UInt8) (i : Nat) (new : List UInt8) : List UInt8 :=
  bytes.take i ++ new ++ bytes.drop (i + new.length)

/-- Copies "version made by" and the internal and external attributes of a central record onto the
one at `start`. -/
def restoreRecord (record : List UInt8) (start : Nat) (output : List UInt8) : List UInt8 :=
  let output := overwrite output (start + 4) ((record.drop 4).take 2)
  overwrite output (start + 36) ((record.drop 36).take 6)

namespace Library

variable (lib : Library)

/-- Restores the records at the given places, one for each entry of the archive `a` with the bytes
`input`.  The first entry has the number `index`. -/
def restoreRecords (input : List UInt8) (a : Archive) :
    (index : Nat) → (starts : List Nat) → List Entry →
    (output : List UInt8) → Except AmendError (List UInt8)
  | index, start :: starts, e :: entries, output => do
    -- the entry is looked for again, with its local header
    let _ ← (lib.raw a e).mapError .archive
    match recordAt? input e.centralStart, recordAt? output start with
    | some record, some _ =>
      restoreRecords input a (index + 1) starts entries (restoreRecord record start output)
    | _, _ => .error (.recordCut index)
  | _, _, _, output => .ok output

/-- The new archive `output` with the host systems and attributes that the entries of `a` have in
`input`. -/
def restoreAttributes (input : List UInt8) (a : Archive) (output : List UInt8) :
    Except AmendError (List UInt8) := do
  let written ← (lib.read output).mapError .archive
  written.entries.forM fun e => ((lib.raw written e).mapError .archive).map fun _ => ()
  if written.entries.length ≠ a.entries.length then
    .error (.entryCount written.entries.length a.entries.length)
  lib.restoreRecords input a 0 (written.entries.map Entry.centralStart) a.entries output

end Library

/-! ## 2. Changing -/

structure Amended where
  bytes : List UInt8
  changed : List String

/-- How new contents of an entry are written: as its old ones were.  Sizes get more room if they
need it. -/
def Entry.options (e : Entry) (data : List UInt8) : Options :=
  ⟨e.method, e.time, e.date, e.unixMode?, 0xffffffff ≤ data.length⟩

section

variable {m : Type → Type} [Monad m] {ε : Type}

def liftError (wrap : AmendError → ε) {α : Type} (r : Except AmendError α) : ExceptT ε m α :=
  ExceptT.mk (pure (r.mapError wrap))

def answer (wrap : AmendError → ε) {α : Type} (r : Except Error α) : ExceptT ε m α :=
  liftError wrap (r.mapError .archive)

namespace Library

variable (lib : Library)

/-- Writes one entry of an archive, and tells whether its contents were changed.  Directories are
never changed, and only `wanted` entries are taken apart. -/
def amendEntry (wrap : AmendError → ε) (wanted : String → m Bool)
    (change : String → List UInt8 → ExceptT ε m (List UInt8)) (a : Archive) (e : Entry)
    (writer : lib.Writer) : ExceptT ε m (lib.Writer × Bool) := do
  -- also where the contents are going to be replaced: an entry that cannot be found stops the
  -- amending
  let raw ← answer wrap (lib.raw a e)
  let chosen ← if e.isDirectory then pure false else ExceptT.lift (wanted e.name)
  if chosen then
    let data ← answer wrap (lib.content a e)
    let new ← change e.name data
    return (← answer wrap (lib.add e.name (e.options new) new writer), true)
  -- copied as they are, even if their method is unknown
  else return (← answer wrap (lib.copy e raw writer), false)

def amendEntries (wrap : AmendError → ε) (wanted : String → m Bool)
    (change : String → List UInt8 → ExceptT ε m (List UInt8)) (a : Archive) :
    List Entry → lib.Writer → ExceptT ε m (lib.Writer × List String)
  | [], writer => return (writer, [])
  | e :: entries, writer => do
    let (writer, isChanged) ← lib.amendEntry wrap wanted change a e writer
    let (writer, names) ← amendEntries wrap wanted change a entries writer
    return (writer, if isChanged then e.name :: names else names)

/-- Copies an archive and passes the contents of every wanted entry that is no directory through
`change`.  The first error stops it. -/
def amend (wrap : AmendError → ε) (wanted : String → m Bool)
    (change : String → List UInt8 → ExceptT ε m (List UInt8)) (input : List UInt8) :
    ExceptT ε m Amended := do
  let a ← answer wrap (lib.read input)
  let (writer, changed) ← lib.amendEntries wrap wanted change a a.entries lib.start
  let output ← answer wrap (lib.finish a.comment writer)
  return ⟨← liftError wrap (lib.restoreAttributes input a output), changed⟩

end Library

def amend (wrap : Error → ε) (wanted : String → m Bool)
    (change : String → List UInt8 → ExceptT ε m (List UInt8)) (input : List UInt8) :
    ExceptT ε m Amended :=
  Library.standard.amend (fun e => wrap e.toError) wanted change input

end

end MethodGraft.Archive
