import MethodGraft.Proofs.Archive.Deflate
import MethodGraft.Proofs.Archive.Laws
import MethodGraft.Proofs.Bytes
import MethodGraft.Proofs.Text.Utf8

/-!
# Proofs.Archive.Directory — assembled archives are read back

An assembled archive has its local records one after the other, the central records in the same
order, and the end record.  The reader finds the end record, and from it every part as it was given.
-/

namespace MethodGraft.Archive

/-! ## 1. Numbers -/

theorem hasBytes_iff {n : Nat} {b : List UInt8} : hasBytes n b = true ↔ n ≤ b.length := by
  unfold hasBytes
  rw [Bool.or_eq_true, beq_iff_eq, Bool.not_eq_true', List.isEmpty_eq_false_iff, ne_eq,
    List.drop_eq_nil_iff]
  omega

/-- The two bytes of a number give the number. -/
theorem u16_le16 (n : UInt16) : n.toUInt8.toUInt16 ||| (n >>> 8).toUInt8.toUInt16 <<< 8 = n :=
  (UInt16.or_comm _ _).trans (ClassFile.ofBe16_be16 n)

theorem u32_halves (n : UInt32) :
    n.toUInt16.toUInt32 ||| (n >>> 16).toUInt16.toUInt32 <<< 16 = n := by
  have hn := n.toNat_lt
  have h16 : (16 : UInt32).toNat % 32 = 16 := rfl
  apply UInt32.toNat_inj.mp
  rw [UInt32.or_comm, UInt32.toNat_or, UInt32.toNat_shiftLeft, UInt16.toNat_toUInt32,
    UInt16.toNat_toUInt32, UInt32.toNat_toUInt16, UInt32.toNat_toUInt16, UInt32.toNat_shiftRight,
    h16, Nat.shiftRight_eq_div_pow, Nat.mod_eq_of_lt (by rw [Nat.shiftLeft_eq]; omega),
    ← Nat.shiftLeft_add_eq_or_of_lt (by omega), Nat.shiftLeft_eq]
  omega

section

variable (n : UInt16) (x : UInt8) (b : List UInt8) (i : Nat)

theorem u16At_le16 : u16At (le16 n ++ b) 0 = n := u16_le16 n

theorem u16At_le16_add : u16At (le16 n ++ b) (i + 2) = u16At b i := rfl

theorem u16At_cons_add : u16At (x :: b) (i + 1) = u16At b i := rfl

theorem u32At_le32 (n : UInt32) :
    u32At (le16 n.toUInt16 ++ (le16 (n >>> 16).toUInt16 ++ b)) 0 = n := by
  unfold u32At
  rw [u16At_le16, u16At_le16_add, u16At_le16]
  exact u32_halves n

theorem u32At_le16_add : u32At (le16 n ++ b) (i + 2) = u32At b i := rfl

theorem u32At_cons_add : u32At (x :: b) (i + 1) = u32At b i := rfl

end

theorem Method.ofCode_code (code : UInt16) :
    Method.ofCode (Method.ofCode code).code = Method.ofCode code := by
  unfold Method.ofCode
  split
  next => rfl
  next h0 =>
    split
    next => rfl
    next h8 =>
      exact (if_neg h0).trans (if_neg h8)

/-! ## 2. Records -/

/-- The entry that the records of a part describe, which stand at `start` and at `central`: they
have no room for a comment, and are not encrypted. -/
def Part.entryAt (p : Part) (start central : Nat) : Entry :=
  { p.entry with encrypted := false, comment := [], headerStart := start, centralStart := central }

structure Part.Fits (p : Part) : Prop where
  /-- The length of the name is a number of two bytes. -/
  name : (Utf8.encode p.entry.name).length ≤ 65535
  /-- The record says how long the contents are. -/
  raw : p.raw.length = p.entry.compressedSize.toNat
  method : Method.ofCode p.entry.method.code = p.entry.method

theorem length_le16 (n : UInt16) : (le16 n).length = 2 := rfl

theorem length_le32 (n : UInt32) : (le32 n).length = 4 := rfl

theorem length_sharedFields (p : Part) (name : List UInt8) : (p.sharedFields name).length = 26 :=
  rfl

theorem length_localRecord (p : Part) :
    p.localRecord.length = localLength + (Utf8.encode p.entry.name).length + p.raw.length := by
  unfold Part.localRecord
  simp only [List.length_append, length_sharedFields]
  rfl

theorem length_centralRecord (p : Part) (offset : Nat) :
    (p.centralRecord offset).length = centralLength + (Utf8.encode p.entry.name).length := by
  unfold Part.centralRecord
  simp only [List.length_append, length_sharedFields]
  rfl

/-- The mark of a name tells the reader in which character set it stands. -/
theorem decode_name (s : String) :
    (if Part.flags (Utf8.encode s) &&& 0x800 ≠ 0 then Utf8.decodeLossy (Utf8.encode s)
      else CodePage437.decode (Utf8.encode s)) = s := by
  unfold Part.flags
  by_cases hascii : (Utf8.encode s).all (· < 0x80) = true
  · have hbytes : ∀ b ∈ Utf8.encode s, b < 0x80 := fun b hb =>
      of_decide_eq_true (List.all_eq_true.mp hascii b hb)
    rw [if_pos hascii, if_neg (by decide), ← Utf8.decodeLossy_ascii hbytes, Utf8.decodeLossy_encode]
  · rw [if_neg hascii, if_pos (by decide), Utf8.decodeLossy_encode]

theorem flags_encrypted (name : List UInt8) : (Part.flags name &&& 1 ≠ 0) = False := by
  unfold Part.flags
  split <;> decide

theorem toNat_ofNat_of_le {n : Nat} (h : n ≤ 65535) : (UInt16.ofNat n).toNat = n := by
  rw [UInt16.toNat_ofNat']
  exact Nat.mod_eq_of_lt (Nat.lt_succ_of_le h)

structure CentralFields (p : Part) (offset : Nat) (b : List UInt8) : Prop where
  signature : centralSignature.isPrefixOf b = true
  madeBy : u16At b 4 = p.entry.madeBy
  flags : u16At b 8 = Part.flags (Utf8.encode p.entry.name)
  method : u16At b 10 = p.entry.method.code
  time : u16At b 12 = p.entry.time
  date : u16At b 14 = p.entry.date
  crc : u32At b 16 = p.entry.crc
  compressedSize : u32At b 20 = p.entry.compressedSize
  size : u32At b 24 = p.entry.size
  nameLength : u16At b 28 = UInt16.ofNat (Utf8.encode p.entry.name).length
  extraLength : u16At b 30 = 0
  commentLength : u16At b 32 = 0
  internalAttributes : u16At b 36 = p.entry.internalAttributes
  externalAttributes : u32At b 38 = p.entry.externalAttributes
  headerStart : u32At b 42 = UInt32.ofNat offset

theorem centralFields (p : Part) (offset : Nat) (rest : List UInt8) :
    CentralFields p offset (p.centralRecord offset ++ rest) := by
  constructor
  case signature => rfl
  all_goals
    simp only [Part.centralRecord, Part.sharedFields, centralSignature, le32, List.append_assoc,
      List.cons_append, List.nil_append, u16At_le16, u16At_le16_add, u16At_cons_add, u32At_le32,
      u32At_le16_add, u32At_cons_add]

theorem drop_centralRecord (p : Part) (offset : Nat) (rest : List UInt8) :
    (p.centralRecord offset ++ rest).drop centralLength = Utf8.encode p.entry.name ++ rest := by
  unfold Part.centralRecord
  rw [List.append_assoc]
  refine List.drop_left' ?_
  simp only [List.length_append, length_sharedFields, length_le16, length_le32]
  rfl

theorem toNat_ofNat_of_lt {n : Nat} (h : n < 4294967296) : (UInt32.ofNat n).toNat = n := by
  rw [UInt32.toNat_ofNat']
  exact Nat.mod_eq_of_lt h

theorem readEntry_centralRecord {p : Part} (hp : p.Fits) (offset shift central : Nat)
    (hoffset : offset < 4294967296) (rest : List UInt8) :
    readEntry shift central (p.centralRecord offset ++ rest) =
      .ok (p.entryAt (offset + shift) central, (p.centralRecord offset).length) := by
  have hfields := centralFields p offset rest
  have hlength := length_centralRecord p offset
  have hname := drop_centralRecord p offset rest
  have hbytes {n : Nat} (h : n ≤ (p.centralRecord offset).length) :
      (!hasBytes n (p.centralRecord offset ++ rest)) = false := by
    rw [Bool.not_eq_false', hasBytes_iff, List.length_append]
    omega
  generalize hb : p.centralRecord offset ++ rest = b at hfields hname hbytes ⊢
  have hfour : 4 ≤ (p.centralRecord offset).length := by
    rw [hlength]
    exact Nat.le_add_right_of_le (by decide)
  have htotal : (!hasBytes (centralLength + (Utf8.encode p.entry.name).length + 0 + 0) b) = false :=
    hbytes (Nat.le_of_eq hlength.symm)
  have htext := decode_name p.entry.name
  have hoffset := toNat_ofNat_of_lt hoffset
  -- The three tests of the length pass, and then each field is what was written at its place.
  unfold readEntry
  rw [hbytes hfour, hbytes (hlength ▸ Nat.le_add_right _ _), hfields.signature]
  dsimp only [Bool.not_true, Bool.false_eq_true, if_false]
  rw [hfields.nameLength, hfields.extraLength, hfields.commentLength, toNat_ofNat_of_le hp.name,
    hname]
  rw [show (0 : UInt16).toNat = 0 from rfl, htotal, List.take_left, List.take_zero, hfields.flags,
    htext, hfields.madeBy, hfields.method, hfields.time, hfields.date, hfields.crc,
    hfields.compressedSize, hfields.size, hfields.internalAttributes, hfields.externalAttributes,
    hfields.headerStart, hoffset, hp.method, hlength]
  simp only [flags_encrypted, decide_false, Bool.false_eq_true, if_false]
  rfl

theorem rawContent_localRecord {a : Archive} {p : Part} (hp : p.Fits) {start : Nat} (central : Nat)
    {rest : List UInt8} (h : a.bytes.drop start = p.localRecord ++ rest) :
    a.rawContent (p.entryAt start central) = .ok p.raw := by
  have hlength := length_localRecord p
  have hsignature : localSignature.isPrefixOf (p.localRecord ++ rest) = true := rfl
  have hname : u16At (p.localRecord ++ rest) 26 =
      UInt16.ofNat (Utf8.encode p.entry.name).length := by
    simp only [Part.localRecord, Part.sharedFields, localSignature, le32, List.append_assoc,
      List.cons_append, List.nil_append, u16At_le16, u16At_le16_add, u16At_cons_add]
  have hextra : u16At (p.localRecord ++ rest) 28 = 0 := by
    simp only [Part.localRecord, Part.sharedFields, localSignature, le32, List.append_assoc,
      List.cons_append, List.nil_append, u16At_le16, u16At_le16_add, u16At_cons_add]
  -- an extra field is never written, so the contents stand behind the name
  have hraw : (p.localRecord ++ rest).drop (localLength + (Utf8.encode p.entry.name).length + 0) =
      p.raw ++ rest := by
    unfold Part.localRecord
    rw [List.append_assoc]
    refine List.drop_left' ?_
    simp only [List.length_append, length_sharedFields]
    rfl
  have hbytes {n : Nat} (h : n ≤ p.localRecord.length) :
      (!hasBytes n (p.localRecord ++ rest)) = false := by
    rw [Bool.not_eq_false', hasBytes_iff, List.length_append]
    omega
  have hheader : localLength ≤ p.localRecord.length := by
    rw [hlength, Nat.add_assoc]
    exact Nat.le_add_right _ _
  have hsize : (p.entryAt start central).compressedSize.toNat = p.raw.length := hp.raw.symm
  unfold rawContent
  dsimp only
  rw [show a.bytes.drop (p.entryAt start central).headerStart = p.localRecord ++ rest from h,
    hbytes (Nat.le_trans (by decide) hheader), hbytes hheader, hsignature, hname, hextra,
    toNat_ofNat_of_le hp.name, show (0 : UInt16).toNat = 0 from rfl, hraw, hsize, List.take_left]
  rfl

/-! ## 3. The directory -/

/-- The entries that the central records of parts describe, if the local records begin at `start`
and the central ones at `central`. -/
def entriesAt (start central : Nat) : List Part → List Entry
  | [] => []
  | p :: parts => p.entryAt start central ::
    entriesAt (start + p.localRecord.length) (central + (p.centralRecord start).length) parts

theorem readEntries_centralRecords {parts : List Part} (hparts : ∀ p ∈ parts, p.Fits)
    (start central : Nat) (hroom : start + (parts.flatMap Part.localRecord).length < 4294967296)
    (entries : List Entry) (rest : List UInt8) :
    readEntries 0 parts.length central entries (centralRecords start parts ++ rest) =
      .ok (entries.reverse ++ entriesAt start central parts) := by
  induction parts generalizing start central entries with
  | nil => exact congrArg Except.ok (List.append_nil _).symm
  | cons p parts ih =>
    obtain ⟨hp, hparts⟩ := List.forall_mem_cons.mp hparts
    rw [List.flatMap_cons, List.length_append] at hroom
    have hentry := readEntry_centralRecord hp start 0 central (by omega)
      (centralRecords (start + p.localRecord.length) parts ++ rest)
    unfold centralRecords
    rw [List.append_assoc, List.length_cons]
    unfold readEntries
    rw [hentry]
    show readEntries 0 parts.length (central + (p.centralRecord start).length)
      (p.entryAt start central :: entries) _ = _
    -- the next record tells of a part that stands behind this one
    rw [List.drop_left, ih hparts _ _ (by omega), List.reverse_cons, List.append_assoc]
    rfl

/-- The contents of every part are found where its record says. -/
theorem rawContent_entriesAt {a : Archive} {parts : List Part} (hparts : ∀ p ∈ parts, p.Fits)
    {start : Nat} (central : Nat) {rest : List UInt8}
    (h : a.bytes.drop start = parts.flatMap Part.localRecord ++ rest) :
    List.Forall₂
    (fun p e => e = p.entryAt e.headerStart e.centralStart ∧ a.rawContent e = .ok p.raw) parts
      (entriesAt start central parts) := by
  induction parts generalizing start central with
  | nil => exact .nil
  | cons p parts ih =>
    obtain ⟨hp, hparts⟩ := List.forall_mem_cons.mp hparts
    rw [List.flatMap_cons, List.append_assoc] at h
    refine .cons ⟨rfl, rawContent_localRecord hp central h⟩ (ih hparts _ ?_)
    rw [← List.drop_drop, h, List.drop_left]

/-! ## 4. The end record -/

/-- An end record at the start of `b` that could be the one of an archive which ends with `b`. -/
def IsEnd (b : List UInt8) : Prop :=
  endLength ≤ b.length ∧ b.length ≤ endLength + 65535 ∧ endSignature.isPrefixOf b = true

instance (b : List UInt8) : Decidable (IsEnd b) :=
  inferInstanceAs (Decidable (_ ∧ _ ∧ _))

theorem lastEndRecord_cons (found : Option (Nat × List UInt8)) (position : Nat) (x : UInt8)
    (rest : List UInt8) :
    lastEndRecord found position (x :: rest).length (x :: rest) =
      lastEndRecord (if IsEnd (x :: rest) then some (position, x :: rest) else found) (position + 1)
        rest.length rest := by
  have hhere : (endLength ≤ (x :: rest).length && (x :: rest).length ≤ endLength + 65535 &&
      endSignature.isPrefixOf (x :: rest)) = true ↔ IsEnd (x :: rest) := by
    unfold IsEnd
    rw [Bool.and_eq_true, Bool.and_eq_true, decide_eq_true_iff, decide_eq_true_iff, and_assoc]
  conv => lhs; unfold lastEndRecord
  dsimp only
  by_cases h : IsEnd (x :: rest)
  · rw [if_pos h, if_pos (hhere.mpr h)]
    rfl
  · rw [if_neg h, if_neg (mt hhere.mp h)]
    rfl

theorem lastEndRecord_of_none {b : List UInt8} (h : ∀ i, ¬IsEnd (b.drop i))
    (found : Option (Nat × List UInt8)) (position : Nat) :
    lastEndRecord found position b.length b = found := by
  induction b generalizing position with
  | nil => rfl
  | cons x rest ih =>
    have hhere : ¬IsEnd (x :: rest) := h 0
    rw [lastEndRecord_cons, if_neg hhere]
    exact ih (fun i => h (i + 1)) (position + 1)

/-- The last place where an end record could be is where the search ends. -/
theorem lastEndRecord_append {record : List UInt8} (hrecord : IsEnd record)
    (honly : ∀ i, 0 < i → ¬IsEnd (record.drop i)) (pre : List UInt8)
    (found : Option (Nat × List UInt8)) (position : Nat) :
    lastEndRecord found position (pre ++ record).length (pre ++ record) =
      some (position + pre.length, record) := by
  induction pre generalizing found position with
  | nil =>
    cases record with
    | nil => exact absurd hrecord.1 (by decide)
    | cons x rest =>
      rw [List.nil_append, lastEndRecord_cons, if_pos hrecord]
      exact lastEndRecord_of_none (fun i => honly (i + 1) (Nat.succ_pos i)) _ _
  | cons x pre ih =>
    rw [List.cons_append, lastEndRecord_cons, ih, List.length_cons, Nat.add_right_comm,
      Nat.add_assoc]

theorem exists_last_end (b : List UInt8) : (∀ i, ¬IsEnd (b.drop i)) ∨
    ∃ pre record, b = pre ++ record ∧ IsEnd record ∧ ∀ i, 0 < i → ¬IsEnd (record.drop i) := by
  induction b with
  | nil =>
    left
    intro i hend
    rw [List.drop_nil] at hend
    exact absurd hend.1 (by decide)
  | cons x rest ih =>
    -- the last one in the rest is the last one at all; if there is none, the text itself may be one
    obtain hnone | ⟨pre, record, rfl, hrecord, honly⟩ := ih
    · have hlater (i : Nat) (hi : 0 < i) : ¬IsEnd ((x :: rest).drop i) := by
        obtain ⟨j, rfl⟩ : ∃ j, i = j + 1 := ⟨i - 1, by omega⟩
        exact hnone j
      by_cases hhere : IsEnd (x :: rest)
      · exact .inr ⟨[], x :: rest, rfl, hhere, hlater⟩
      · left
        intro i
        cases i with
        | zero => exact hhere
        | succ i => exact hlater (i + 1) (Nat.succ_pos i)
    · exact .inr ⟨x :: pre, record, rfl, hrecord, honly⟩

/-- What the search finds is an end record, and no other starts after it. -/
theorem lastEndRecord_eq_some {position : Nat} {b record : List UInt8}
    (h : lastEndRecord none 0 b.length b = some (position, record)) :
    (∃ pre, b = pre ++ record) ∧ IsEnd record ∧ ∀ i, 0 < i → ¬IsEnd (record.drop i) := by
  obtain hnone | ⟨pre, found, rfl, hfound, honly⟩ := exists_last_end b
  · rw [lastEndRecord_of_none hnone] at h
    cases h
  · rw [lastEndRecord_append hfound honly] at h
    cases h
    exact ⟨⟨pre, rfl⟩, hfound, honly⟩

def endRecord (parts : List Part) (comment : List UInt8) : List UInt8 :=
  let count := UInt16.ofNat parts.length
  endSignature ++ le16 0 ++ le16 0 ++ le16 count ++ le16 count ++
    le32 (UInt32.ofNat (centralRecords 0 parts).length) ++
    le32 (UInt32.ofNat (parts.flatMap Part.localRecord).length) ++
      le16 (UInt16.ofNat comment.length) ++ comment

theorem assemble_eq (parts : List Part) (comment : List UInt8) : assemble parts comment =
    parts.flatMap Part.localRecord ++ centralRecords 0 parts ++ endRecord parts comment := by
  unfold assemble endRecord
  simp only [List.append_assoc]

structure Fit (parts : List Part) (comment : List UInt8) : Prop where
  each : ∀ p ∈ parts, p.Fits
  count : parts.length ≤ 65535
  commentLength : comment.length ≤ 65535
  /-- All places are numbers of four bytes. -/
  room : (parts.flatMap Part.localRecord).length + (centralRecords 0 parts).length < 4294967296
  /-- No bytes after its first could be taken for the end record. -/
  single : ∀ i, 0 < i → ¬IsEnd ((endRecord parts comment).drop i)

theorem length_endRecord (parts : List Part) (comment : List UInt8) :
    (endRecord parts comment).length = endLength + comment.length := by
  unfold endRecord
  simp only [List.length_append, length_le16, length_le32]
  rfl

structure EndFields (parts : List Part) (comment b : List UInt8) : Prop where
  disk : u16At b 4 = 0
  directoryDisk : u16At b 6 = 0
  count : u16At b 8 = UInt16.ofNat parts.length
  size : u32At b 12 = UInt32.ofNat (centralRecords 0 parts).length
  offset : u32At b 16 = UInt32.ofNat (parts.flatMap Part.localRecord).length
  commentLength : u16At b 20 = UInt16.ofNat comment.length

theorem endFields (parts : List Part) (comment : List UInt8) :
    EndFields parts comment (endRecord parts comment) := by
  constructor
  all_goals
    simp only [endRecord, endSignature, le32, List.append_assoc, List.cons_append,
      List.nil_append, u16At_le16, u16At_le16_add, u16At_cons_add, u32At_le32, u32At_le16_add,
      u32At_cons_add]

theorem drop_endRecord (parts : List Part) (comment : List UInt8) :
    (endRecord parts comment).drop endLength = comment := by
  unfold endRecord
  refine List.drop_left' ?_
  simp only [List.length_append, length_le16, length_le32]
  rfl

/-- An archive that was assembled is read as its parts and its comment. -/
theorem ofBytes_assemble {parts : List Part} {comment : List UInt8} (h : Fit parts comment) :
    ofBytes (assemble parts comment) =
      .ok
        ⟨assemble parts comment, entriesAt 0 (parts.flatMap Part.localRecord).length parts,
          comment⟩ := by
  have hroom := h.room
  have hcomment := h.commentLength
  have hlength := length_endRecord parts comment
  have hfields := endFields parts comment
  have hend : IsEnd (endRecord parts comment) := ⟨by omega, by omega, rfl⟩
  have hfind := lastEndRecord_append hend h.single
    (parts.flatMap Part.localRecord ++ centralRecords 0 parts) none 0
  rw [← assemble_eq, Nat.zero_add, List.length_append] at hfind
  have hbytes : (!hasBytes (endLength + comment.length) (endRecord parts comment)) = false := by
    rw [Bool.not_eq_false']
    exact hasBytes_iff.mpr (Nat.le_of_eq hlength.symm)
  have hdirectory : (assemble parts comment).drop (parts.flatMap Part.localRecord).length =
      centralRecords 0 parts ++ endRecord parts comment := by
    rw [assemble_eq, List.append_assoc, List.drop_left]
  have hentries :=
    readEntries_centralRecords h.each 0 (parts.flatMap Part.localRecord).length (by omega) []
    (endRecord parts comment)
  -- The local records start at the first byte, so that no place has to be shifted.
  have hplace : (parts.flatMap Part.localRecord).length + (centralRecords 0 parts).length -
      (centralRecords 0 parts).length - (parts.flatMap Part.localRecord).length = 0 := by omega
  unfold ofBytes
  rw [hfind]
  dsimp only
  unfold readFrom
  dsimp only
  rw [hfields.commentLength, hfields.disk, hfields.directoryDisk, hfields.size, hfields.offset,
    hfields.count, toNat_ofNat_of_le hcomment, toNat_ofNat_of_le h.count,
    toNat_ofNat_of_lt (n := (centralRecords 0 parts).length)
    (by omega), toNat_ofNat_of_lt (by omega), hbytes, if_neg (by decide),
    if_neg (fun hdisks => hdisks.1 rfl), if_neg (by omega), hplace, Nat.add_zero, hdirectory,
    hentries, drop_endRecord, List.take_length]
  rfl

/-! ## 5. What was read -/

/-- What is known of an entry whose record stands at `start`, at the beginning of `b`, and has
`length` bytes. -/
structure Recorded (start : Nat) (b : List UInt8) (e : Entry) (length : Nat) : Prop where
  within : centralLength ≤ b.length
  fixed : centralLength ≤ length
  centralStart : e.centralStart = start
  madeBy : e.madeBy = u16At b 4
  internalAttributes : e.internalAttributes = u16At b 36
  externalAttributes : e.externalAttributes = u32At b 38
  /-- The method is one that a record can hold. -/
  method : Method.ofCode e.method.code = e.method

theorem readEntry_eq_ok {shift start length : Nat} {b : List UInt8} {e : Entry}
    (h : readEntry shift start b = .ok (e, length)) : Recorded start b e length := by
  unfold readEntry at h
  split at h
  next => cases h
  next =>
    split at h
    next => cases h
    next =>
      split at h
      next => cases h
      next hfixed =>
        rw [Bool.not_eq_true', Bool.not_eq_false] at hfixed
        dsimp only at h
        split at h
        next => cases h
        next =>
          cases h
          exact ⟨hasBytes_iff.mp hfixed, by omega, rfl, rfl, rfl, rfl, Method.ofCode_code _⟩

theorem Recorded.described {start length : Nat} {bytes : List UInt8} {e : Entry}
    (h : Recorded start (bytes.drop start) e length) : DescribedAt bytes e := by
  have hu16 (i : Nat) : u16At (bytes.drop start) i = u16At bytes (start + i) := by
    unfold u16At
    rw [List.drop_drop]
  have hu32 (i : Nat) : u32At (bytes.drop start) i = u32At bytes (start + i) := by
    unfold u32At
    rw [hu16, hu16, Nat.add_assoc]
  have hwithin := h.within
  have hlength : centralLength = 46 := rfl
  rw [List.length_drop] at hwithin
  constructor
  case within =>
    rw [h.centralStart]
    omega
  case madeBy => rw [h.madeBy, h.centralStart, hu16]
  case internalAttributes => rw [h.internalAttributes, h.centralStart, hu16]
  case externalAttributes => rw [h.externalAttributes, h.centralStart, hu32]

/-- Records are read one after the other. -/
theorem readEntries_eq_ok {shift n start : Nat} {read entries : List Entry} {bytes : List UInt8}
    (h : readEntries shift n start read (bytes.drop start) = .ok entries) :
    ∃ new, entries = read.reverse ++ new ∧ new.length = n ∧
      (∀ e ∈ new, start ≤ e.centralStart ∧ DescribedAt bytes e ∧
        Method.ofCode e.method.code = e.method) ∧
      new.Pairwise fun e f => e.centralStart + centralLength ≤ f.centralStart := by
  induction n generalizing read start with
  | zero =>
    cases h
    exact ⟨[], (List.append_nil _).symm, rfl, List.forall_mem_nil _, .nil⟩
  | succ n ih =>
    unfold readEntries at h
    cases hentry : readEntry shift start (bytes.drop start) with
    | error f =>
      rw [hentry] at h
      cases h
    | ok r =>
      rw [hentry] at h
      obtain ⟨e, length⟩ := r
      change readEntries shift n (start + length) (e :: read) ((bytes.drop start).drop length) = _
        at h
      rw [List.drop_drop] at h
      have he := readEntry_eq_ok hentry
      have hfixed := he.fixed
      have hstart := he.centralStart
      obtain ⟨new, rfl, hlength, hnew, hapart⟩ := ih h
      refine ⟨e :: new, ?_, congrArg Nat.succ hlength,
        List.forall_mem_cons.mpr ⟨?_, fun f hf => ?_⟩, .cons (fun f hf => ?_) hapart⟩
      · rw [List.reverse_cons, List.append_assoc]
        rfl
      · exact ⟨Nat.le_of_eq hstart.symm, he.described, he.method⟩
      · obtain ⟨hbehind, hf⟩ := hnew f hf
        exact ⟨by omega, hf⟩
      · have hbehind := (hnew f hf).1
        omega

theorem le16_u16 (x y : UInt8) : le16 (x.toUInt16 ||| y.toUInt16 <<< 8) = [x, y] := by
  have h := ClassFile.be16_ofBe16 y x
  unfold ClassFile.be16 ClassFile.ofBe16 at h
  rw [List.cons.injEq, List.cons.injEq, UInt16.or_comm] at h
  unfold le16
  rw [h.1, h.2.1]

theorem drop_eq_le16 {b : List UInt8} {i : Nat} (h : i + 2 ≤ b.length) :
    b.drop i = le16 (u16At b i) ++ b.drop (i + 2) := by
  have hpair : b.drop i = b[i] :: b[i + 1] :: b.drop (i + 2) := by
    rw [List.drop_eq_getElem_cons (by omega), List.drop_eq_getElem_cons (by omega)]
  conv => rhs; unfold u16At
  rw [hpair]
  dsimp only
  rw [le16_u16]
  rfl

/-- No end record starts in the disk numbers, which are zero. -/
theorem endRecord_start (parts : List Part) (comment : List UInt8) {i : Nat} (hi : 0 < i)
    (h : i < 8) : ¬endSignature.isPrefixOf ((endRecord parts comment).drop i) = true := by
  obtain ⟨rest, hrest⟩ :
      ∃ rest, endRecord parts comment = endSignature ++ (le16 0 ++ (le16 0 ++ rest)) := by
    unfold endRecord
    simp only [List.append_assoc]
    exact ⟨_, rfl⟩
  rw [hrest]
  obtain rfl | rfl | rfl | rfl | rfl | rfl | rfl :
      i = 1 ∨ i = 2 ∨ i = 3 ∨ i = 4 ∨ i = 5 ∨ i = 6 ∨ i = 7 := by omega
  all_goals exact Bool.false_ne_true

structure ReadFrom (a : Archive) (record : List UInt8) : Prop where
  isEnd : IsEnd record
  only : ∀ i, 0 < i → ¬IsEnd (record.drop i)
  count : a.entries.length = (u16At record 8).toNat
  described : ∀ e ∈ a.entries, DescribedAt a.bytes e
  apart : a.entries.Pairwise fun e f => e.centralStart + centralLength ≤ f.centralStart
  methods : ∀ e ∈ a.entries, Method.ofCode e.method.code = e.method
  whole : endLength + (u16At record 20).toNat ≤ record.length
  comment : a.comment = (record.drop endLength).take (u16At record 20).toNat

theorem ofBytes_eq_ok {bytes : List UInt8} {a : Archive} (h : ofBytes bytes = .ok a) :
    a.bytes = bytes ∧ ∃ record, ReadFrom a record := by
  unfold ofBytes at h
  split at h
  next position record hfind =>
    -- the search takes the last place that can be an end record
    obtain ⟨-, hrecord, honly⟩ := lastEndRecord_eq_some hfind
    unfold readFrom at h
    dsimp only at h
    split at h
    next => cases h
    next hcomment =>
      split at h
      next => cases h
      next =>
        split at h
        next => cases h
        next =>
          rw [Bool.not_eq_true', Bool.not_eq_false] at hcomment
          generalize hentries : readEntries _ _ _ _ _ = r at h
          cases r with
          | error => cases h
          | ok entries =>
            cases h
            obtain ⟨new, rfl, hcount, hnew, hapart⟩ := readEntries_eq_ok hentries
            exact ⟨rfl, record, hrecord, honly, hcount, fun e he => (hnew e he).2.1, hapart,
              fun e he => (hnew e he).2.2, hasBytes_iff.mp hcomment, rfl⟩
  next => cases h

namespace ReadFrom

variable {a : Archive} {record : List UInt8}

theorem length_entries_le (h : ReadFrom a record) : a.entries.length ≤ 65535 := by
  have hcount := (u16At record 8).toNat_lt
  have := h.count
  omega

theorem length_comment (h : ReadFrom a record) : a.comment.length = (u16At record 20).toNat := by
  have hwhole := h.whole
  rw [h.comment, List.length_take, List.length_drop]
  omega

theorem length_comment_le (h : ReadFrom a record) : a.comment.length ≤ 65535 := by
  have hlength := (u16At record 20).toNat_lt
  rw [h.length_comment]
  omega

/-- From the length of its comment on, an end record with the same comment has the bytes of the one
read. -/
theorem drop_record (h : ReadFrom a record) (parts : List Part) :
    ∃ rest, record.drop 20 = (endRecord parts a.comment).drop 20 ++ rest := by
  have hwhole := h.whole
  have hnumber : UInt16.ofNat a.comment.length = u16At record 20 := by
    rw [h.length_comment, UInt16.ofNat_toNat]
  -- the last two bytes of the fixed fields are the length of the comment
  have hwritten : (endRecord parts a.comment).drop 20 = le16 (u16At record 20) ++ a.comment := by
    unfold endRecord
    rw [hnumber, List.append_assoc]
    refine List.drop_left' ?_
    simp only [List.length_append, length_le16, length_le32]
    rfl
  refine ⟨(record.drop endLength).drop (u16At record 20).toNat, ?_⟩
  have hrest := (List.take_append_drop (u16At record 20).toNat (record.drop endLength)).symm
  rw [drop_eq_le16 (i := 20) (Nat.le_trans (Nat.le_add_right 22 _) hwhole), hwritten,
    List.append_assoc, h.comment]
  exact congrArg (le16 (u16At record 20) ++ ·) hrest

/-- An end record with the same comment holds no later end record, if none starts in its numbers. -/
theorem single (h : ReadFrom a record) {parts : List Part}
    (hnumbers : ∀ i < 20, 8 ≤ i → ¬IsEnd ((endRecord parts a.comment).drop i)) (i : Nat)
    (hi : 0 < i) : ¬IsEnd ((endRecord parts a.comment).drop i) := by
  intro hend
  -- The signature and the disk numbers are the same in every end record.
  by_cases hstart : i < 8
  · exact endRecord_start parts a.comment hi hstart hend.2.2
  by_cases hmiddle : i < 20
  · exact hnumbers i hmiddle (by omega) hend
  -- What is left are the length of the comment and the comment, and those were read.
  obtain ⟨rest, hrest⟩ := h.drop_record parts
  obtain ⟨j, rfl⟩ : ∃ j, i = 20 + j := ⟨i - 20, by omega⟩
  have hj : j ≤ ((endRecord parts a.comment).drop 20).length := by
    have hlength := hend.1
    rw [← List.drop_drop, List.length_drop] at hlength
    have : 0 < endLength := by decide
    omega
  have hread : record.drop (20 + j) = (endRecord parts a.comment).drop (20 + j) ++ rest := by
    rw [← List.drop_drop, hrest, List.drop_append_of_le_length hj, List.drop_drop]
  refine h.only (20 + j) hi ?_
  have hbound := h.isEnd.2.1
  have hbegins := List.isPrefixOf_iff_prefix.mp hend.2.2
  refine ⟨?_, ?_, ?_⟩
  · rw [hread, List.length_append]
    exact Nat.le_add_right_of_le hend.1
  · rw [List.length_drop]
    omega
  · rw [hread]
    exact List.isPrefixOf_iff_prefix.mpr (hbegins.trans (List.prefix_append _ _))

end ReadFrom

end MethodGraft.Archive
