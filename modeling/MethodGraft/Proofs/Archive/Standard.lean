import MethodGraft.Proofs.Archive.Directory
import MethodGraft.Proofs.Runs

/-!
# Proofs.Archive.Standard — the standard library keeps its promises

The reader takes every record from its place, and within the bounds of the format it reads back what
has been written.  When host systems and attributes are changed in the records that were written,
the bytes are those of an archive with other parts, which differ from the old ones in just that.
-/

namespace MethodGraft.Archive

/-! ## 1. Contents -/

theorem content_eq_ok_iff {a : Archive} {e : Entry} {data : List UInt8} : a.content e = .ok data ↔
    e.encrypted = false ∧ ∃ raw, a.rawContent e = .ok raw ∧ expand e.method raw = .ok data ∧
      Crc32.ofBytes data = e.crc := by
  unfold content
  cases e.encrypted
  · rw [if_neg (by decide)]
    dsimp only
    rw [bind_eq_ok_iff]
    constructor
    · rintro ⟨raw, hraw, h⟩
      obtain ⟨found, hfound, h⟩ := bind_eq_ok_iff.mp h
      split at h
      next hcrc =>
        cases h
        exact ⟨rfl, raw, hraw, hfound, hcrc⟩
      next => cases h
    · rintro ⟨-, raw, hraw, hdata, hcrc⟩
      exact ⟨raw, hraw, bind_eq_ok_iff.mpr ⟨data, hdata, if_pos hcrc⟩⟩
  · constructor
    · intro h
      cases h
    · rintro ⟨h, -⟩
      cases h

theorem content_congr {a b : Archive} {e e' : Entry} (hencrypted : e'.encrypted = e.encrypted)
    (hmethod : e'.method = e.method) (hcrc : e'.crc = e.crc)
    (hraw : b.rawContent e' = a.rawContent e) : b.content e' = a.content e := by
  unfold content
  rw [hencrypted, hmethod, hcrc, hraw]

/-- What was compressed is expanded again. -/
theorem expand_compress {method : Method} (h : method.IsKnown) (data : List UInt8) :
    expand method (compress method data) = .ok data := by
  obtain rfl | rfl := h
  · rfl
  · unfold expand compress
    dsimp only
    rw [Deflate.inflate?_deflate]

theorem lawful_standard : Library.standard.Lawful where
  described := fun {_ _} h => by
    obtain ⟨rfl, record, hrecord⟩ := ofBytes_eq_ok h
    exact hrecord.described
  apart := fun {_ _} h => by
    obtain ⟨-, record, hrecord⟩ := ofBytes_eq_ok h
    exact hrecord.apart
  found := fun {_ _ _} h => by
    obtain ⟨-, raw, hraw, -⟩ := content_eq_ok_iff.mp h
    exact ⟨raw, hraw⟩

/-! ## 2. What is written -/

def Part.ofItem : Item → Part
  | .copied e raw => .ofCopy e raw
  | .added name options data => .ofFile name options data

theorem standard_write (items : List Item) (comment : List UInt8) :
    Library.standard.write items comment = .ok (assemble (items.map Part.ofItem) comment) := by
  have hparts (parts : Array Part) : (do
      let writer ← items.foldlM Library.standard.put parts
      Library.standard.finish comment writer) =
        .ok (assemble (parts.toList ++ items.map Part.ofItem) comment) := by
    induction items generalizing parts with
    | nil =>
      rw [List.map_nil, List.append_nil]
      rfl
    | cons item items ih =>
      have hpush : parts.toList ++ (item :: items).map Part.ofItem =
          (parts.push (.ofItem item)).toList ++ items.map Part.ofItem := by
        rw [Array.toList_push, List.append_assoc]
        rfl
      rw [hpush, ← ih]
      cases item <;> rfl
  exact hparts #[]

/-! ## 3. Other attributes -/

def Part.withAttributes (p : Part) (madeBy internalAttributes : UInt16)
    (externalAttributes : UInt32) : Part :=
  { p with entry := { p.entry with madeBy, internalAttributes, externalAttributes } }

def Part.Like (p p' : Part) : Prop := ∃ m i x, p' = p.withAttributes m i x

def Part.middleFields (p : Part) : List UInt8 :=
  p.sharedFields (Utf8.encode p.entry.name) ++ le16 0 ++ le16 0

namespace SameOff

variable {P Q : Nat → Prop} {a b b' : List UInt8}

theorem mono (h : SameOff P b b') (hPQ : ∀ i < b.length, P i → Q i) : SameOff Q b b' := by
  refine ⟨h.1, fun i hi => ?_⟩
  by_cases hlt : i < b.length
  · exact h.2 i (mt (hPQ i hlt) hi)
  · have hlength := h.1
    rw [List.getElem?_eq_none (by omega), List.getElem?_eq_none (by omega)]

theorem eq (h : SameOff P b b') (hP : ∀ i < b.length, ¬P i) : b' = b :=
  List.ext_getElem? fun i => (h.mono (Q := fun _ => False) fun i hi => hP i hi).2 i id

/-- Bytes in two pieces are compared piece by piece. -/
theorem append (h : SameOff P (a ++ b) b') :
    ∃ a' c, b' = a' ++ c ∧ SameOff P a a' ∧ SameOff (fun i => P (a.length + i)) b c := by
  obtain ⟨hlength, hsame⟩ := h
  rw [List.length_append] at hlength
  refine ⟨b'.take a.length, b'.drop a.length, (List.take_append_drop _ _).symm,
    ⟨?_, fun i hi => ?_⟩, ?_, fun i hi => ?_⟩
  · rw [List.length_take]
    omega
  · rw [List.getElem?_take]
    split
    next hlt => rw [hsame i hi, List.getElem?_append_left hlt]
    next hge => exact (List.getElem?_eq_none (Nat.le_of_not_lt hge)).symm
  · rw [List.length_drop]
    omega
  · rw [List.getElem?_drop, hsame _ hi, List.getElem?_append_right (Nat.le_add_right _ _),
      Nat.add_sub_cancel_left]

end SameOff

theorem take_drop_congr {b b' : List UInt8} {i n : Nat} (h : ∀ k < n, b[i + k]? = b'[i + k]?) :
    (b.drop i).take n = (b'.drop i).take n := by
  refine List.ext_getElem? fun k => ?_
  rw [List.getElem?_take, List.getElem?_take]
  split
  next hk => rw [List.getElem?_drop, List.getElem?_drop, h k hk]
  next => rfl

theorem toNat_ofHalves (low high : UInt16) :
    (low.toUInt32 ||| high.toUInt32 <<< 16).toNat = high.toNat * 65536 + low.toNat := by
  have hlow := low.toNat_lt
  have hhigh := high.toNat_lt
  have h16 : (16 : UInt32).toNat % 32 = 16 := rfl
  rw [UInt32.or_comm, UInt32.toNat_or, UInt32.toNat_shiftLeft, UInt16.toNat_toUInt32,
    UInt16.toNat_toUInt32, h16, Nat.mod_eq_of_lt (by rw [Nat.shiftLeft_eq]; omega),
    ← Nat.shiftLeft_add_eq_or_of_lt (by omega), Nat.shiftLeft_eq]

theorem le32_ofHalves (low high : UInt16) :
    le32 (low.toUInt32 ||| high.toUInt32 <<< 16) = le16 low ++ le16 high := by
  have hlow := low.toNat_lt
  have hhigh := high.toNat_lt
  have h16 : (16 : UInt32).toNat % 32 = 16 := rfl
  have hnumber := toNat_ofHalves low high
  unfold le32
  congr 2
  · apply UInt16.toNat_inj.mp
    rw [UInt32.toNat_toUInt16, hnumber]
    omega
  · apply UInt16.toNat_inj.mp
    rw [UInt32.toNat_toUInt16, UInt32.toNat_shiftRight, h16, Nat.shiftRight_eq_div_pow, hnumber]
    omega

theorem drop_eq_le32 {b : List UInt8} {i : Nat} (h : i + 4 ≤ b.length) :
    b.drop i = le32 (u32At b i) ++ b.drop (i + 4) := by
  rw [u32At, le32_ofHalves, List.append_assoc, drop_eq_le16 (i := i) (by omega),
    drop_eq_le16 (i := i + 2) (by omega)]

theorem centralRecord_eq (p : Part) (offset : Nat) : p.centralRecord offset =
    centralSignature ++
    (le16 p.entry.madeBy ++ (p.middleFields ++ (le16 p.entry.internalAttributes ++
      (le32 p.entry.externalAttributes ++
        (le32 (UInt32.ofNat offset) ++ Utf8.encode p.entry.name))))) := by
  unfold Part.centralRecord Part.middleFields
  simp only [List.append_assoc]

/-- Bytes that have a central record, but for host system and attributes, have that of a similar
part. -/
theorem exists_centralRecord {p : Part} {offset : Nat} {c : List UInt8}
    (h : SameOff (AttributeByte 0) (p.centralRecord offset) c) :
    ∃ p', p.Like p' ∧ c = p'.centralRecord offset := by
  obtain ⟨hlength, h⟩ := h
  have hfixed := length_centralRecord p offset
  have hcentral : centralLength = 46 := rfl
  have hmiddleLength : p.middleFields.length = 30 := rfl
  rw [centralRecord_eq] at h
  have hsignature : c.take 4 = centralSignature :=
    take_drop_congr (i := 0) (n := 4) fun k hk => h _ (by unfold AttributeByte; omega)
  have hmiddle : (c.drop 6).take 30 = p.middleFields := by
    refine (take_drop_congr fun k hk => h _ (by unfold AttributeByte; omega)).trans ?_
    exact List.take_left' hmiddleLength
  have hbehind :
      (p.middleFields ++ (le16 p.entry.internalAttributes ++ (le32 p.entry.externalAttributes ++
      (le32 (UInt32.ofNat offset) ++ Utf8.encode p.entry.name)))).drop 36 =
        le32 (UInt32.ofNat offset) ++ Utf8.encode p.entry.name := rfl
  have hrest : c.drop 42 = le32 (UInt32.ofNat offset) ++ Utf8.encode p.entry.name := by
    rw [← hbehind]
    refine List.ext_getElem? fun k => ?_
    have hindex : 42 + k = 36 + k + 6 := by omega
    rw [List.getElem?_drop, h _ (by unfold AttributeByte; omega), hindex, List.getElem?_drop]
    rfl
  refine ⟨p.withAttributes (u16At c 4) (u16At c 36) (u32At c 38), ⟨_, _, _, rfl⟩, ?_⟩
  calc c = c.take 4 ++ c.drop 4 := (List.take_append_drop 4 c).symm
    _ = c.take 4 ++ (le16 (u16At c 4) ++ c.drop 6) := by rw [drop_eq_le16 (i := 4) (by omega)]
    _ = c.take 4 ++ (le16 (u16At c 4) ++ ((c.drop 6).take 30 ++ c.drop 36)) := by
      rw [show c.drop 36 = (c.drop 6).drop 30 from
        (List.drop_drop (i := 30) (j := 6)).symm, List.take_append_drop]
    _ = c.take 4 ++ (le16 (u16At c 4) ++ ((c.drop 6).take 30 ++
          (le16 (u16At c 36) ++ (le32 (u32At c 38) ++ c.drop 42)))) := by
      rw [drop_eq_le16 (i := 36) (by omega), drop_eq_le32 (i := 38) (by omega)]
    _ = (p.withAttributes (u16At c 4) (u16At c 36) (u32At c 38)).centralRecord offset := by
      rw [hsignature, hmiddle, hrest, centralRecord_eq]
      rfl

/-- Where the central records of parts stand, if the first one stands at `central`. -/
theorem centralStart_entriesAt (start central : Nat) (parts : List Part) :
    ∀ s ∈ (entriesAt start central parts).map Entry.centralStart, central ≤ s := by
  induction parts generalizing start central with
  | nil => exact List.forall_mem_nil _
  | cons p parts ih =>
    exact List.forall_mem_cons.mpr ⟨Nat.le_refl _, fun s hs => Nat.le_of_add_right_le (ih _ _ s hs)⟩

/-- Bytes that have the central records of parts, but for host systems and attributes, have those of
similar parts.  The first record stands `central` bytes behind the start of the archive. -/
theorem exists_centralRecords {parts : List Part} {start central : Nat} {rest bytes : List UInt8}
    (h :
      SameOff
      (fun i => attributePlaces ((entriesAt start central parts).map Entry.centralStart)
        (central + i))
      (centralRecords start parts ++ rest) bytes) :
    ∃ parts', List.Forall₂ Part.Like parts parts' ∧
    bytes = centralRecords start parts' ++ rest := by
  induction parts generalizing start central bytes with
  | nil => exact ⟨[], .nil, h.eq fun _ _ ⟨_, hs, _⟩ => List.not_mem_nil hs⟩
  | cons p parts ih =>
    have hfixed := length_centralRecord p start
    have hlength : centralLength = 46 := rfl
    have hbehind := centralStart_entriesAt (start + p.localRecord.length)
      (central + (p.centralRecord start).length) parts
    unfold centralRecords at h
    rw [List.append_assoc] at h
    obtain ⟨c, rest', rfl, hc, hrest⟩ := h.append
    -- within this record there are no attributes of the other ones, and behind it there are none of
    -- this one
    obtain ⟨p', hp', rfl⟩ := exists_centralRecord (hc.mono fun i hi hplace => by
      obtain ⟨s, hs, hplace⟩ := hplace
      obtain rfl | hs := List.mem_cons.mp hs
      · exact attributeByte_add.mp hplace
      · have hle := hbehind s hs
        unfold AttributeByte at hplace
        omega)
    have hrest : SameOff (fun i => attributePlaces ((entriesAt (start + p.localRecord.length)
        (central + (p.centralRecord start).length) parts).map Entry.centralStart)
          (central + (p.centralRecord start).length + i))
        (centralRecords (start + p.localRecord.length) parts ++ rest) rest' :=
      hrest.mono fun i hi hplace => by
        obtain ⟨s, hs, hplace⟩ := hplace
        rw [← Nat.add_assoc] at hplace
        obtain hs | hs := List.mem_cons.mp hs
        · have hstart : s = central := hs
          unfold AttributeByte at hplace
          omega
        · exact ⟨s, hs, hplace⟩
    obtain ⟨parts', hparts', rfl⟩ := ih hrest
    refine ⟨p' :: parts', .cons hp' hparts', ?_⟩
    have hlocal : p'.localRecord.length = p.localRecord.length := by
      obtain ⟨_, _, _, rfl⟩ := hp'
      rfl
    conv => rhs; unfold centralRecords
    rw [hlocal, List.append_assoc]

/-! ## 4. Similar parts -/

namespace Part

variable {p p' : Part} {parts parts' : List Part}

theorem Like.localRecord_eq (h : p.Like p') : p'.localRecord = p.localRecord := by
  obtain ⟨_, _, _, rfl⟩ := h
  rfl

theorem Like.raw_eq (h : p.Like p') : p'.raw = p.raw := by
  obtain ⟨_, _, _, rfl⟩ := h
  rfl

theorem Like.name_eq (h : p.Like p') : p'.entry.name = p.entry.name := by
  obtain ⟨_, _, _, rfl⟩ := h
  rfl

theorem Like.length_centralRecord (h : p.Like p') (offset : Nat) :
    (p'.centralRecord offset).length = (p.centralRecord offset).length := by
  rw [Archive.length_centralRecord, Archive.length_centralRecord, h.name_eq]

theorem Like.fits (h : p.Like p') (hp : p.Fits) : p'.Fits := by
  obtain ⟨_, _, _, rfl⟩ := h
  exact ⟨hp.name, hp.raw, hp.method⟩

theorem localRecords_eq_of_like (h : List.Forall₂ Like parts parts') :
    parts'.flatMap localRecord = parts.flatMap localRecord := by
  induction h with
  | nil => rfl
  | cons hp _ ih => rw [List.flatMap_cons, List.flatMap_cons, hp.localRecord_eq, ih]

theorem length_centralRecords_of_like (h : List.Forall₂ Like parts parts') (offset : Nat) :
    (centralRecords offset parts').length = (centralRecords offset parts).length := by
  induction h generalizing offset with
  | nil => rfl
  | cons hp _ ih =>
    unfold centralRecords
    rw [List.length_append, List.length_append, hp.localRecord_eq, ih, hp.length_centralRecord]

theorem endRecord_eq_of_like (h : List.Forall₂ Like parts parts') (comment : List UInt8) :
    endRecord parts' comment = endRecord parts comment := by
  unfold endRecord
  rw [localRecords_eq_of_like h, length_centralRecords_of_like h, h.length_eq]

theorem fit_of_like (h : List.Forall₂ Like parts parts') {comment : List UInt8}
    (hfit : Fit parts comment) : Fit parts' comment where
  each p' hp' := by
    obtain ⟨p, hp, hlike⟩ := forall₂_mem_left h.flip p' hp'
    exact Like.fits hlike (hfit.each p hp)
  count := h.length_eq ▸ hfit.count
  commentLength := hfit.commentLength
  room := by
    rw [localRecords_eq_of_like h, length_centralRecords_of_like h]
    exact hfit.room
  single := endRecord_eq_of_like h comment ▸ hfit.single

end Part

/-- Where the local records are the same, similar parts are read as entries that differ in host
system and attributes only. -/
theorem sameBut_entriesAt {b b' : Archive} {parts parts' : List Part}
    (h : List.Forall₂ Part.Like parts parts')
    (hparts : ∀ p ∈ parts, p.Fits) {start central : Nat} {rest rest' : List UInt8}
    (hb : b.bytes.drop start = parts.flatMap Part.localRecord ++ rest)
    (hb' : b'.bytes.drop start = parts.flatMap Part.localRecord ++ rest') :
    List.Forall₂ (Library.standard.SameBut b b') (entriesAt start central parts)
      (entriesAt start central parts') := by
  induction h generalizing start central with
  | nil => exact .nil
  | @cons p p' parts parts' hp hrest ih =>
    obtain ⟨hfits, hparts⟩ := List.forall_mem_cons.mp hparts
    rw [List.flatMap_cons, List.append_assoc] at hb hb'
    have hraw := rawContent_localRecord hfits central hb
    have hraw' := rawContent_localRecord (hp.fits hfits) central (hp.localRecord_eq.symm ▸ hb')
    have hsame := hraw'.trans ((congrArg Except.ok hp.raw_eq).trans hraw.symm)
    unfold entriesAt
    rw [hp.localRecord_eq, hp.length_centralRecord]
    refine .cons ?_ (ih hparts (by rw [← List.drop_drop, hb, List.drop_left])
      (by rw [← List.drop_drop, hb', List.drop_left]))
    obtain ⟨_, _, _, rfl⟩ := hp
    exact ⟨rfl, rfl, rfl, rfl, rfl, rfl, rfl, rfl, hsame, content_congr rfl rfl rfl hsame⟩

/-! ## 5. What is read back -/

/-- What the format can hold without its extensions.  Within these bounds a reader gets back what
was written. -/
structure Readable (parts : List Part) (comment : List UInt8) : Prop where
  /-- The length of a name has two bytes; names from the older character set grow when they are
  written. -/
  name : ∀ p ∈ parts, (Utf8.encode p.entry.name).length ≤ 65535
  /-- Sizes and places have four bytes. -/
  room : (parts.flatMap Part.localRecord).length + (centralRecords 0 parts).length < 4294967296
  /-- A reader finds the end record by its signature, which the count of the parts, the size and the
  place of the directory must not happen to spell. -/
  numbers : ∀ i < 20, 8 ≤ i → ¬IsEnd ((endRecord parts comment).drop i)

theorem Method.IsKnown.ofCode_code {method : Method} (h : method.IsKnown) :
    Method.ofCode method.code = method := by
  obtain rfl | rfl := h <;> rfl

theorem length_raw_le {p : Part} {parts : List Part} (h : p ∈ parts) :
    p.raw.length ≤ (parts.flatMap Part.localRecord).length := by
  obtain ⟨before, after, rfl⟩ := List.append_of_mem h
  rw [List.flatMap_append, List.flatMap_cons, List.length_append, List.length_append,
    length_localRecord]
  omega

/-- What is written for the entries of an archive fits where the archive did. -/
theorem fit_of_items {a : Archive} {record : List UInt8} {items : List Item}
    (hrecord : ReadFrom a record) (hlength : items.length = a.entries.length)
    (hproper : ∀ item ∈ items, item.Proper)
    (hreadable : Readable (items.map Part.ofItem) a.comment) :
    Fit (items.map Part.ofItem) a.comment := by
  refine ⟨fun p hp => ?_, by rw [List.length_map, hlength]; exact hrecord.length_entries_le,
    hrecord.length_comment_le, hreadable.room, hrecord.single hreadable.numbers⟩
  have hname := hreadable.name p hp
  have hroom :=
    Nat.lt_of_le_of_lt (length_raw_le hp) (Nat.lt_of_le_of_lt (Nat.le_add_right _ _) hreadable.room)
  obtain ⟨item, hitem, rfl⟩ := List.mem_map.mp hp
  have hitem := hproper item hitem
  cases item with
  | copied e raw => exact ⟨hname, hitem.2, hitem.1.ofCode_code⟩
  -- compressed contents are part of what has been written, and all of that has room
  | added name options data =>
    exact ⟨hname, (toNat_ofNat_of_lt hroom).symm, Method.IsKnown.ofCode_code hitem⟩

theorem holds_ofItem {b : Archive} {item : Item} {e : Entry} (hproper : item.Proper)
    (he : e = (Part.ofItem item).entryAt e.headerStart e.centralStart)
    (hraw : b.rawContent e = .ok (Part.ofItem item).raw) : Library.standard.Holds b item e := by
  rw [he] at hraw ⊢
  cases item with
  | copied e raw => exact .copied rfl rfl rfl rfl rfl rfl rfl hraw
  | added name options data =>
    have hcontent : Library.standard.content b
        ((Part.ofFile name options data).entryAt e.headerStart e.centralStart) = .ok data :=
      content_eq_ok_iff.mpr ⟨rfl, _, hraw, expand_compress hproper data, rfl⟩
    exact .added rfl rfl rfl hraw hcontent

/-- An archive that was assembled begins with its local records. -/
theorem drop_zero_assemble (parts : List Part) (comment : List UInt8) :
    (assemble parts comment).drop 0 =
    parts.flatMap Part.localRecord ++ (centralRecords 0 parts ++ endRecord parts comment) := by
  rw [List.drop_zero, assemble_eq, List.append_assoc]

theorem holds_entriesAt {b : Archive} {items : List Item} {comment : List UInt8}
    (hbytes : b.bytes = assemble (items.map Part.ofItem) comment)
    (hproper : ∀ item ∈ items, item.Proper)
    (hfit : Fit (items.map Part.ofItem) comment) (central : Nat) :
    List.Forall₂ (Library.standard.Holds b) items
    (entriesAt 0 central (items.map Part.ofItem)) := by
  have hentries := List.forall₂_map_left_iff.mp
    (rawContent_entriesAt (a := b) hfit.each central (hbytes ▸ drop_zero_assemble _ _))
  refine List.forall₂_iff_get.mpr ⟨hentries.length_eq, fun i hi hi' => ?_⟩
  obtain ⟨hentry, hraw⟩ := hentries.get hi hi'
  exact holds_ofItem (hproper _ (List.get_mem _ _)) hentry hraw

/-- Bytes that an archive was assembled to, but for host systems and attributes, are those of
similar parts. -/
theorem exists_assemble {parts : List Part} {comment bytes : List UInt8}
    (h : SameOff (attributePlaces ((entriesAt 0 (parts.flatMap Part.localRecord).length parts).map
      Entry.centralStart)) (assemble parts comment) bytes) :
    ∃ parts', List.Forall₂ Part.Like parts parts' ∧ bytes = assemble parts' comment := by
  rw [assemble_eq, List.append_assoc] at h
  obtain ⟨records, directory, rfl, hrecords, hdirectory⟩ := h.append
  -- nothing in front of the central records has changed
  have hsame := hrecords.eq fun i hi ⟨s, hs, hplace⟩ => by
    have hbehind := centralStart_entriesAt _ _ _ s hs
    unfold AttributeByte at hplace
    omega
  obtain ⟨parts', hlike, rfl⟩ := exists_centralRecords hdirectory
  refine ⟨parts', hlike, ?_⟩
  rw [assemble_eq, Part.localRecords_eq_of_like hlike, Part.endRecord_eq_of_like hlike, hsame,
    List.append_assoc]

/-- The standard library reads back what it writes for the entries of an archive. -/
theorem standard_readsBack {input : List UInt8} {a : Archive} {items : List Item}
    (ha : ofBytes input = .ok a) (hlength : items.length = a.entries.length)
    (hproper : ∀ item ∈ items, item.Proper)
    (hreadable : Readable (items.map Part.ofItem) a.comment) :
    Library.standard.ReadsBack items a.comment := by
  obtain ⟨-, record, hrecord⟩ := ofBytes_eq_ok ha
  have hfit := fit_of_items hrecord hlength hproper hreadable
  have hwrite := standard_write items a.comment
  have hread := ofBytes_assemble hfit
  refine ⟨⟨_, hwrite⟩, fun {bytes} h => ?_, fun {bytes bytes' b} h hb hsame => ?_⟩
  · cases hwrite.symm.trans h
    exact ⟨_, hread, rfl, holds_entriesAt rfl hproper hfit _⟩
  · cases hwrite.symm.trans h
    cases hread.symm.trans hb
    obtain ⟨parts, hlike, rfl⟩ := exists_assemble hsame
    have hrecords := Part.localRecords_eq_of_like hlike
    refine ⟨_, ofBytes_assemble (Part.fit_of_like hlike hfit), rfl, ?_⟩
    rw [hrecords]
    exact sameBut_entriesAt hlike hfit.each (drop_zero_assemble _ _)
      (hrecords ▸ drop_zero_assemble _ _)

end MethodGraft.Archive
