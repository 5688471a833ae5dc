import MethodGraft.Archive.Amend
import Mathlib.Data.List.Forall2

/-!
# Proofs.Archive.Laws — what amending asks of the library

The library is only known by what it promises.  Its reader takes host systems and attributes from
their places in the central records, which do not overlap (`Library.Lawful`).  What it has written
it reads back, and this does not depend on the host systems and attributes that the records name
(`Library.ReadsBack`).
-/

namespace MethodGraft.Archive

/-! ## 1. Writing -/

inductive Item where
  | copied (entry : Entry) (raw : List UInt8)
  | added (name : String) (options : Options) (data : List UInt8)

/-- Contents are stored or deflated. -/
def Method.IsKnown (m : Method) : Prop := m = .stored ∨ m = .deflated

instance (m : Method) : Decidable m.IsKnown := inferInstanceAs (Decidable (_ ∨ _))

/-- The method is known, and an entry is copied with as many compressed bytes as its record
counts. -/
def Item.Proper : Item → Prop
  | .copied e raw => e.method.IsKnown ∧ raw.length = e.compressedSize.toNat
  | .added _ options _ => options.method.IsKnown

/-- The places of "version made by" and of the attributes in the central record at `start`. -/
def AttributeByte (start i : Nat) : Prop :=
  (start + 4 ≤ i ∧ i < start + 6) ∨ (start + 36 ≤ i ∧ i < start + 42)

theorem attributeByte_add {start j : Nat} : AttributeByte start (start + j) ↔
    AttributeByte 0 j := by
  unfold AttributeByte
  omega

def attributePlaces (starts : List Nat) (i : Nat) : Prop := ∃ s ∈ starts, AttributeByte s i

def SameOff (places : Nat → Prop) (bytes bytes' : List UInt8) : Prop :=
  bytes'.length = bytes.length ∧ ∀ i, ¬places i → bytes'[i]? = bytes[i]?

structure DescribedAt (bytes : List UInt8) (e : Entry) : Prop where
  within : e.centralStart + centralLength ≤ bytes.length
  madeBy : e.madeBy = u16At bytes (e.centralStart + 4)
  internalAttributes : e.internalAttributes = u16At bytes (e.centralStart + 36)
  externalAttributes : e.externalAttributes = u32At bytes (e.centralStart + 38)

namespace Library

variable (lib : Library)

def put (writer : lib.Writer) : Item → Except Error lib.Writer
  | .copied e raw => lib.copy e raw writer
  | .added name options data => lib.add name options data writer

def write (items : List Item) (comment : List UInt8) : Except Error (List UInt8) := do
  let writer ← items.foldlM lib.put lib.start
  lib.finish comment writer

/-! ## 2. Laws -/

inductive Holds (b : Archive) : Item → Entry → Prop where
  | copied {e e' : Entry} {raw : List UInt8} (name : e'.name = e.name)
      (method : e'.method = e.method) (time : e'.time = e.time) (date : e'.date = e.date)
      (crc : e'.crc = e.crc) (compressedSize : e'.compressedSize = e.compressedSize)
      (size : e'.size = e.size) (held : lib.raw b e' = .ok raw) : Holds b (.copied e raw) e'
  /-- Its contents come out as they went in: inflating inverts deflating. -/
  | added {options : Options} {data raw : List UInt8} {e' : Entry}
      (method : e'.method = options.method)
      (time : e'.time = options.time) (date : e'.date = options.date)
      (found : lib.raw b e' = .ok raw) (held : lib.content b e' = .ok data) :
      Holds b (.added e'.name options data) e'

structure SameBut (b b' : Archive) (e e' : Entry) : Prop where
  name : e'.name = e.name
  method : e'.method = e.method
  time : e'.time = e.time
  date : e'.date = e.date
  crc : e'.crc = e.crc
  compressedSize : e'.compressedSize = e.compressedSize
  size : e'.size = e.size
  centralStart : e'.centralStart = e.centralStart
  raw : lib.raw b' e' = lib.raw b e
  content : lib.content b' e' = lib.content b e

/-- The reader keeps to the format. -/
structure Lawful : Prop where
  described : ∀ {bytes a}, lib.read bytes = .ok a → ∀ e ∈ a.entries, DescribedAt bytes e
  /-- Central records stand one after the other. -/
  apart : ∀ {bytes a}, lib.read bytes = .ok a →
    a.entries.Pairwise fun e f => e.centralStart + centralLength ≤ f.centralStart
  /-- What can be expanded can be found. -/
  found : ∀ {a e data}, lib.content a e = .ok data → ∃ raw, lib.raw a e = .ok raw

/-- What is written is read back. -/
structure ReadsBack (items : List Item) (comment : List UInt8) : Prop where
  /-- The archive is written to memory, where nothing fails. -/
  writes : ∃ bytes, lib.write items comment = .ok bytes
  reads : ∀ {bytes}, lib.write items comment = .ok bytes →
    ∃ b, lib.read bytes = .ok b ∧ b.comment = comment ∧ List.Forall₂ (lib.Holds b) items b.entries
  /-- Nothing else depends on the bytes that tell of host systems and attributes. -/
  attributes : ∀ {bytes bytes' b}, lib.write items comment = .ok bytes → lib.read bytes = .ok b →
    SameOff (attributePlaces (b.entries.map Entry.centralStart)) bytes bytes' →
      ∃ b', lib.read bytes' = .ok b' ∧ b'.comment = b.comment ∧
        List.Forall₂ (lib.SameBut b b') b.entries b'.entries

variable {lib} {b b' : Archive} {item : Item} {e e' : Entry}

theorem Holds.found (h : lib.Holds b item e) : ∃ raw, lib.raw b e = .ok raw := by
  cases h with
  | copied _ _ _ _ _ _ _ held => exact ⟨_, held⟩
  | added _ _ _ found => exact ⟨_, found⟩

theorem Holds.sameBut (h : lib.Holds b item e) (hsame : lib.SameBut b b' e e') :
    lib.Holds b' item e' := by
  cases h with
  | copied name method time date crc compressedSize size held =>
    exact .copied (hsame.name.trans name) (hsame.method.trans method) (hsame.time.trans time)
      (hsame.date.trans date) (hsame.crc.trans crc) (hsame.compressedSize.trans compressedSize)
      (hsame.size.trans size) (hsame.raw.trans held)
  | added method time date found held =>
    rw [← hsame.name]
    exact .added (hsame.method.trans method) (hsame.time.trans time) (hsame.date.trans date)
      (hsame.raw.trans found) (hsame.content.trans held)

end Library

end MethodGraft.Archive
