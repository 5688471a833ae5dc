import MethodGraft.ClassFile.Codec
import MethodGraft.Proofs.Pool.Codec
import MethodGraft.Proofs.Runs

/-!
# Proofs.ClassFile.Codec — class files as bytes

A class file is decoded from bytes if and only if it is well formed and encodes to these bytes.  So
decoding and encoding undo each other in both directions, and nothing in a class file is normalised
on the way.
-/

namespace MethodGraft.ClassFile

open Reader

/-! ## 1. Well-formed class files -/

/-- The attribute's name is a text, and it is `Code` exactly for the attributes that are taken
apart. -/
inductive Attribute.WellFormed (pool : ConstantPool) : Attribute → Prop
  | raw {nameIndex : UInt16} {info : List UInt8} {name : String} :
    pool.utf8 nameIndex = .ok name → name ≠ "Code" → WellFormed pool (.raw nameIndex info)
  | code {body : CodeAttribute} : pool.utf8 body.nameIndex = .ok "Code" →
    (∀ a ∈ body.attributes, WellFormed pool a) → WellFormed pool (.code body)

/-- Name and descriptor are texts, and the attributes are well formed. -/
structure Member.WellFormed (pool : ConstantPool) (m : Member) : Prop where
  name : ∃ text, pool.utf8 m.nameIndex = .ok text
  descriptor : ∃ text, pool.utf8 m.descriptorIndex = .ok text
  attributes : ∀ a ∈ m.attributes, a.WellFormed pool

/-- What holds of every class file that was decoded, or made by edits. -/
structure WellFormed (c : ClassFile) : Prop where
  pool : c.pool.WellFormed
  thisClass : ∃ name, c.pool.className c.thisClass = .ok name
  superClass : c.superClass ≠ 0 → ∃ name, c.pool.className c.superClass = .ok name
  interfaces : ∀ i ∈ c.interfaces, ∃ name, c.pool.className i = .ok name
  fields : ∀ m ∈ c.fields, m.WellFormed c.pool
  methods : ∀ m ∈ c.methods, m.WellFormed c.pool
  attributes : ∀ a ∈ c.attributes, a.WellFormed c.pool

/-! ## 2. Counts and lengths -/

theorem encodeCount_eq_ok_iff {table : Table} {n : Nat} {bytes : List UInt8} :
    encodeCount table n = .ok bytes ↔ n ≤ 65535 ∧ bytes = be16 (UInt16.ofNat n) := by
  unfold encodeCount
  split
  next h => simp only [Except.ok.injEq, h, true_and, eq_comm]
  next h => simp [fail, h]

theorem encodeLength_eq_ok_iff {n : Nat} {bytes : List UInt8} :
    encodeLength n = .ok bytes ↔ n ≤ 4294967295 ∧ bytes = be32 (UInt32.ofNat n) := by
  unfold encodeLength
  split
  next h => simp only [Except.ok.injEq, h, true_and, eq_comm]
  next h => simp [fail, h]

def Sized : Format (List UInt8) :=
  fun info bytes => info.length ≤ 4294967295 ∧ bytes = be32 (UInt32.ofNat info.length) ++ info

theorem reads_sized : Reads (do
      let length ← u32
      Reader.bytes length.toNat) Sized := by
  refine (reads_u32.bind fun n => reads_bytes n.toNat).congr fun info bytes => ⟨?_, ?_⟩
  · rintro ⟨n, _, _, rfl, rfl, rfl, hlength⟩
    have hlt := n.toNat_lt
    exact ⟨by omega, by rw [hlength, UInt32.ofNat_toNat]⟩
  · rintro ⟨hlength, rfl⟩
    exact ⟨UInt32.ofNat info.length, _, info, rfl, rfl, rfl,
      (UInt32.toNat_ofNat_of_lt (Nat.lt_succ_of_le hlength)).symm⟩

theorem attributeRecord_eq_ok_iff {nameIndex : UInt16} {info bytes : List UInt8} :
    attributeRecord nameIndex info = .ok bytes ↔
    ∃ rest, bytes = be16 nameIndex ++ rest ∧ Sized info rest := by
  unfold attributeRecord
  cases h : encodeLength info.length with
  | error e =>
    simp only [bind, Except.bind, reduceCtorEq, false_iff]
    rintro ⟨_, -, hsized⟩
    have := encodeLength_eq_ok_iff.mpr ⟨hsized.1, rfl⟩
    rw [h] at this
    cases this
  | ok length =>
    obtain ⟨hle, rfl⟩ := encodeLength_eq_ok_iff.mp h
    simp [bind, Except.bind, pure, Except.pure, Sized, hle, eq_comm]

/-! ## 3. Attributes -/

theorem within_eq_ok_iff {α : Type} {p : Place} {x : Except Error α} {a : α} :
    within p x = .ok a ↔ x = .ok a := by
  unfold within Except.mapError
  cases x <;> simp

/-- The attribute with this name and these contents, which `body` takes apart if the name is
`Code`. -/
def Unpacks (body : BodyReader) (nameIndex : UInt16) (info : List UInt8) (name : String)
    (a : Attribute) : Prop :=
  name ≠ "Code" ∧ a = .raw nameIndex info ∨ name = "Code" ∧
    ∃ b, a = .code b ∧ body nameIndex info = .ok b

def AttributeFormat (pool : ConstantPool) (body : BodyReader) : Format Attribute := fun a bytes =>
  ∃ nameIndex name info rest, bytes = be16 nameIndex ++ rest ∧ Sized info rest ∧
    pool.utf8 nameIndex = .ok name ∧ Unpacks body nameIndex info name a

theorem reads_attribute (pool : ConstantPool) (body : BodyReader) :
    Reads (readAttribute pool body) (AttributeFormat pool body) := by
  have hunpacks (nameIndex : UInt16) (info : List UInt8) (name : String) : Reads (
        if name = "Code" then do
          return Attribute.code (← Reader.check (within .codeAttribute (body nameIndex info)))
        else
          return Attribute.raw nameIndex info)
      fun a bytes => bytes = [] ∧ Unpacks body nameIndex info name a := by
    unfold Unpacks
    split
    next hcode =>
      refine ((Reads.check _).map Attribute.code).congr fun a bytes => ?_
      simp only [within_eq_ok_iff, hcode]
      grind
    next hother =>
      refine (Reads.pure _).congr fun a bytes => ?_
      grind
  have h := reads_u16.bind fun nameIndex => reads_sized.bind fun info =>
    (Reads.check (within .attributeName (pool.utf8 nameIndex))).bind
      fun name => hunpacks nameIndex info name
  simp only [bind_assoc] at h
  refine h.congr fun a bytes => ⟨?_, ?_⟩
  · rintro ⟨nameIndex, _, _, rfl, rfl, info, rest, _, rfl, hsized, name, _, _, rfl, ⟨hname, rfl⟩,
      rfl, h⟩
    exact ⟨nameIndex, name, info, rest, by simp, hsized, within_eq_ok_iff.mp hname, h⟩
  · rintro ⟨nameIndex, name, info, rest, rfl, hsized, hname, h⟩
    exact ⟨nameIndex, _, rest, rfl, rfl, info, rest, [], (List.append_nil _).symm, hsized, name, [],
      [], rfl, ⟨within_eq_ok_iff.mpr hname, rfl⟩, rfl, h⟩

/-- What an attribute encodes to is its name, a length and its contents. -/
theorem Attribute.encode_code_eq_ok_iff {body : CodeAttribute} {bytes : List UInt8} :
    (Attribute.code body).encode = .ok bytes ↔
      ∃ info rest, body.encodeContents = .ok info ∧ bytes = be16 body.nameIndex ++ rest ∧
        Sized info rest := by
  rw [Attribute.encode]
  cases h : body.encodeContents with
  | error e => simp [bind, Except.bind]
  | ok info =>
    show attributeRecord body.nameIndex info = _ ↔ _
    rw [attributeRecord_eq_ok_iff]
    grind

theorem Attribute.encode_raw_eq_ok_iff {nameIndex : UInt16} {info bytes : List UInt8} :
    (Attribute.raw nameIndex info).encode = .ok bytes ↔
      ∃ rest, bytes = be16 nameIndex ++ rest ∧ Sized info rest := by
  rw [Attribute.encode]
  exact attributeRecord_eq_ok_iff

def TakesApart (pool : ConstantPool) (n : Nat) (body : BodyReader) : Prop :=
  ∀ nameIndex info b, info.length ≤ n → (body nameIndex info = .ok b ↔
    b.nameIndex = nameIndex ∧ (∀ a ∈ b.attributes, a.WellFormed pool) ∧ b.encodeContents = .ok info)

theorem length_sized {info rest : List UInt8} (h : Sized info rest) :
    rest.length = 4 + info.length := by
  rw [h.2, List.length_append]
  rfl

theorem attributeFormat_iff {pool : ConstantPool} {n : Nat} {body : BodyReader}
    (hbody : TakesApart pool n body) {a : Attribute} {bytes : List UInt8}
    (hlength : bytes.length ≤ n) :
    AttributeFormat pool body a bytes ↔ a.WellFormed pool ∧ a.encode = .ok bytes := by
  constructor
  · rintro ⟨nameIndex, name, info, rest, rfl, hsized, hname, ⟨hother, rfl⟩ | ⟨rfl, b, rfl, hb⟩⟩
    · exact ⟨.raw hname hother, Attribute.encode_raw_eq_ok_iff.mpr ⟨rest, rfl, hsized⟩⟩
    · have hle := length_sized hsized
      rw [List.length_append] at hlength
      obtain ⟨rfl, hattributes, hcontents⟩ := (hbody nameIndex info b (by omega)).mp hb
      exact ⟨.code hname hattributes,
        Attribute.encode_code_eq_ok_iff.mpr ⟨info, rest, hcontents, rfl, hsized⟩⟩
  · rintro ⟨ha, hencode⟩
    cases ha with
    | @raw nameIndex info name hname hother =>
      obtain ⟨rest, rfl, hsized⟩ := Attribute.encode_raw_eq_ok_iff.mp hencode
      exact ⟨nameIndex, name, info, rest, rfl, hsized, hname, .inl ⟨hother, rfl⟩⟩
    | @code b hname hattributes =>
      obtain ⟨info, rest, hcontents, rfl, hsized⟩ := Attribute.encode_code_eq_ok_iff.mp hencode
      have hle := length_sized hsized
      rw [List.length_append] at hlength
      exact ⟨b.nameIndex, "Code", info, rest, rfl, hsized, hname,
        .inr ⟨rfl, b, rfl, (hbody _ info b (by omega)).mpr ⟨rfl, hattributes, hcontents⟩⟩⟩

/-! ## 4. Tables -/

theorem encodeOnto_eq_ok_iff {written : List (List UInt8)} {attributes : List Attribute}
    {bytes : List UInt8} : Attribute.encodeOnto written attributes = .ok bytes ↔
      ∃ parts, List.Forall₂ (fun a x => a.encode = .ok x) attributes parts ∧
        bytes = written.reverse.flatten ++ parts.flatten := by
  induction attributes generalizing written with
  | nil =>
    rw [Attribute.encodeOnto]
    simp [eq_comm]
  | cons a attributes ih =>
    rw [Attribute.encodeOnto, bind_eq_ok_iff]
    simp only [ih, List.forall₂_cons_left_iff]
    constructor
    · rintro ⟨x, hx, parts, hparts, rfl⟩
      exact ⟨x :: parts, ⟨x, parts, hx, hparts, rfl⟩, by simp⟩
    · rintro ⟨_, ⟨x, parts, hx, hparts, rfl⟩, rfl⟩
      exact ⟨x, hx, parts, hparts, by simp⟩

/-- The bytes of one item are part of those of all. -/
theorem length_le_of_mem_flatten {parts : List (List UInt8)} {x : List UInt8} (h : x ∈ parts) :
    x.length ≤ parts.flatten.length := (List.sublist_flatten_of_mem h).length_le

/-- Items that are written one after the other, if each of them is written as `encode` says. -/
theorem each_iff {α : Type} {G : Format α} {P : α → Prop} {encode : α → Except Error (List UInt8)}
    {items : List α} {bytes : List UInt8}
    (h : ∀ a x, x.length ≤ bytes.length → (G a x ↔ P a ∧ encode a = .ok x)) :
    Format.Each G items bytes ↔ (∀ a ∈ items, P a) ∧
      ∃ parts, List.Forall₂ (fun a x => encode a = .ok x) items parts ∧ bytes = parts.flatten := by
  have hforall (parts : List (List UInt8)) (hbytes : bytes = parts.flatten) :
      List.Forall₂ G items parts ↔
        List.Forall₂ (fun a x => P a ∧ encode a = .ok x) items parts := by
    subst hbytes
    rw [List.forall₂_iff_zip, List.forall₂_iff_zip]
    refine and_congr_right fun _ => ⟨fun hG a x hmem => ?_, fun hP a x hmem => ?_⟩
    · exact (h a x (length_le_of_mem_flatten (List.of_mem_zip hmem).2)).mp (hG hmem)
    · exact (h a x (length_le_of_mem_flatten (List.of_mem_zip hmem).2)).mpr (hP hmem)
  constructor
  · rintro ⟨parts, hG, hbytes⟩
    obtain ⟨hP, hencode⟩ := (List.forall₂_and_left _ _).mp ((hforall parts hbytes).mp hG)
    exact ⟨hP, parts, hencode, hbytes⟩
  · rintro ⟨hP, parts, hencode, hbytes⟩
    exact ⟨parts, (hforall parts hbytes).mpr ((List.forall₂_and_left _ _).mpr ⟨hP, hencode⟩),
      hbytes⟩

/-- A table of items, if each of them is written as `encode` says. -/
theorem counted_iff {α : Type} {G : Format α} {P : α → Prop}
    {encode : α → Except Error (List UInt8)} {items : List α}
    {bytes : List UInt8} (h : ∀ a x, x.length ≤ bytes.length → (G a x ↔ P a ∧ encode a = .ok x)) :
    Format.Counted G items bytes ↔ (∀ a ∈ items, P a) ∧ items.length ≤ 65535 ∧
      ∃ parts, List.Forall₂ (fun a x => encode a = .ok x) items parts ∧
        bytes = be16 (UInt16.ofNat items.length) ++ parts.flatten := by
  have hsub {rest : List UInt8} (hbytes : bytes = be16 (UInt16.ofNat items.length) ++ rest) (a : α)
      (x : List UInt8) (hx : x.length ≤ rest.length) : G a x ↔ P a ∧ encode a = .ok x :=
    h a x (by rw [hbytes, List.length_append]; omega)
  constructor
  · rintro ⟨hlength, rest, hbytes, heach⟩
    obtain ⟨hP, parts, hencode, rfl⟩ := (each_iff (hsub hbytes)).mp heach
    exact ⟨hP, hlength, parts, hencode, hbytes⟩
  · rintro ⟨hP, hlength, parts, hencode, hbytes⟩
    exact ⟨hlength, _, hbytes, (each_iff (hsub hbytes)).mpr ⟨hP, parts, hencode, rfl⟩⟩

/-- A table of items, each of which has one byte string. -/
theorem counted_code_iff {α : Type} {P : α → Prop} {code : α → List UInt8} {items : List α}
    {bytes : List UInt8} :
    Format.Counted (fun a x => P a ∧ x = code a) items bytes ↔
    (∀ a ∈ items, P a) ∧ items.length ≤ 65535 ∧
      bytes = be16 (UInt16.ofNat items.length) ++ items.flatMap code := by
  have hencode (a : α) (x : List UInt8) :
      P a ∧ x = code a ↔ P a ∧ (.ok (code a) : Except Error (List UInt8)) = .ok x := by
    simp only [Except.ok.injEq, eq_comm]
  rw [counted_iff fun a x _ => hencode a x]
  have hcode (parts : List (List UInt8)) :
      List.Forall₂ (fun a x => (.ok (code a) : Except Error (List UInt8)) = .ok x) items parts ↔
        parts = items.map code := by
    simp only [Except.ok.injEq]
    rw [List.forall₂_map_left_iff (R := Eq) (f := code) |>.symm, List.forall₂_eq_eq_eq, eq_comm]
  simp only [hcode, exists_eq_left, List.flatMap_def]

theorem encodeAttributes_eq_ok_iff {attributes : List Attribute} {bytes : List UInt8} :
    encodeAttributes attributes = .ok bytes ↔ attributes.length ≤ 65535 ∧
      ∃ parts, List.Forall₂ (fun a x => a.encode = .ok x) attributes parts ∧
        bytes = be16 (UInt16.ofNat attributes.length) ++ parts.flatten := by
  simp only [encodeAttributes, bind_eq_ok_iff, encodeCount_eq_ok_iff, encodeOnto_eq_ok_iff]
  constructor
  · rintro ⟨_, ⟨hlength, rfl⟩, _, ⟨parts, hparts, rfl⟩, h⟩
    cases h
    exact ⟨hlength, parts, hparts, rfl⟩
  · rintro ⟨hlength, parts, hparts, rfl⟩
    exact ⟨_, ⟨hlength, rfl⟩, _, ⟨parts, hparts, rfl⟩, rfl⟩

theorem encodeMembers_eq_ok_iff {table : Table} {members : List Member} {bytes : List UInt8} :
    encodeMembers table members = .ok bytes ↔ members.length ≤ 65535 ∧
      ∃ parts, List.Forall₂ (fun m x => m.encode = .ok x) members parts ∧
        bytes = be16 (UInt16.ofNat members.length) ++ parts.flatten := by
  simp only [encodeMembers, bind_eq_ok_iff, encodeCount_eq_ok_iff, mapM_eq_ok_iff]
  constructor
  · rintro ⟨_, ⟨hlength, rfl⟩, parts, hparts, h⟩
    cases h
    exact ⟨hlength, parts, hparts, rfl⟩
  · rintro ⟨hlength, parts, hparts, rfl⟩
    exact ⟨_, ⟨hlength, rfl⟩, parts, hparts, rfl⟩

/-! ## 5. Method bodies -/

theorem ExceptionHandler.encode_eq (h : ExceptionHandler) :
    h.encode = be16 h.startPc ++ (be16 h.endPc ++ (be16 h.handlerPc ++ be16 h.catchType)) := by
  rw [encode, List.append_assoc, List.append_assoc]

theorem reads_handler : Reads readHandler fun h bytes => True ∧ bytes = h.encode := by
  have h :=
    reads_u16.bind fun startPc => reads_u16.bind fun endPc => reads_u16.bind fun handlerPc =>
    reads_u16.map (ExceptionHandler.mk startPc endPc handlerPc)
  refine h.congr fun h bytes => ⟨?_, ?_⟩
  · rintro ⟨startPc, _, _, rfl, rfl, endPc, _, _, rfl, rfl, handlerPc, _, _, rfl, rfl, catchType,
      rfl, rfl⟩
    exact ⟨trivial, by rw [ExceptionHandler.encode_eq]⟩
  · rintro ⟨-, rfl⟩
    rw [ExceptionHandler.encode_eq]
    exact ⟨h.startPc, _, _, rfl, rfl, h.endPc, _, _, rfl, rfl, h.handlerPc, _, _, rfl, rfl,
      h.catchType, rfl, rfl⟩

def CodeFormat (G : Format (List Attribute)) : Format CodeAttribute := fun b bytes =>
  ∃ sized attributes, Sized b.code sized ∧ b.handlers.length ≤ 65535 ∧ G b.attributes attributes ∧
    bytes = be16 b.maxStack ++
      (be16 b.maxLocals ++ (sized ++ (be16 (UInt16.ofNat b.handlers.length) ++
      b.handlers.flatMap ExceptionHandler.encode ++ attributes)))

theorem reads_code (pool : ConstantPool) (body : BodyReader) (nameIndex : UInt16) :
    Reads (readCode pool body nameIndex) fun b bytes => b.nameIndex = nameIndex ∧
      CodeFormat (Format.Counted (AttributeFormat pool body)) b bytes := by
  have h :=
    reads_u16.bind fun maxStack => reads_u16.bind fun maxLocals => reads_sized.bind fun code =>
    (reads_counted fun _ => reads_handler).bind fun handlers =>
      (reads_counted fun _ => reads_attribute pool body).map fun attributes =>
        (⟨nameIndex, maxStack, maxLocals, code, handlers, attributes⟩ : CodeAttribute)
  simp only [bind_assoc] at h
  refine h.congr fun b bytes => ⟨?_, ?_⟩
  · rintro ⟨maxStack, _, _, rfl, rfl, maxLocals, _, _, rfl, rfl, code, sized, _, rfl, hsized,
      handlers, _, encoded, rfl, hhandlers, attributes, rfl, hattributes⟩
    obtain ⟨-, hlength, rfl⟩ := counted_code_iff.mp hhandlers
    exact ⟨rfl, sized, encoded, hsized, hlength, hattributes, rfl⟩
  · obtain ⟨_, maxStack, maxLocals, code, handlers, attributes⟩ := b
    rintro ⟨rfl, sized, encoded, hsized, hlength, hattributes, rfl⟩
    exact ⟨maxStack, _, _, rfl, rfl, maxLocals, _, _, rfl, rfl, code, sized, _, rfl, hsized,
      handlers, _, encoded, rfl, counted_code_iff.mpr ⟨fun _ _ => trivial, hlength, rfl⟩,
      attributes, rfl, hattributes⟩

theorem encodeContents_eq_ok_iff {b : CodeAttribute} {bytes : List UInt8} :
    b.encodeContents = .ok bytes ↔
      CodeFormat (fun attributes encoded => encodeAttributes attributes = .ok encoded) b bytes := by
  obtain ⟨nameIndex, maxStack, maxLocals, code, handlers, attributes⟩ := b
  simp only [CodeAttribute.encodeContents, CodeFormat, bind_eq_ok_iff, encodeLength_eq_ok_iff,
    encodeCount_eq_ok_iff, encodeAttributes, Sized]
  constructor
  · rintro ⟨_, ⟨hcode, rfl⟩, _, ⟨hhandlers, rfl⟩, _, ⟨hattributes, rfl⟩, encoded, hencoded, h⟩
    cases h
    exact ⟨_, _, ⟨hcode, rfl⟩, hhandlers, ⟨_, ⟨hattributes, rfl⟩, encoded, hencoded, rfl⟩, by simp⟩
  · rintro ⟨_, _, ⟨hcode, rfl⟩, hhandlers, ⟨_, ⟨hattributes, rfl⟩, encoded, hencoded, h⟩, rfl⟩
    cases h
    exact ⟨_, ⟨hcode, rfl⟩, _, ⟨hhandlers, rfl⟩, _, ⟨hattributes, rfl⟩, encoded, hencoded,
      congrArg Except.ok (by simp)⟩

theorem countedAttributes_iff {pool : ConstantPool} {n : Nat} {body : BodyReader}
    (hbody : TakesApart pool n body) {attributes : List Attribute} {bytes : List UInt8}
    (hlength : bytes.length ≤ n) : Format.Counted (AttributeFormat pool body) attributes bytes ↔
      (∀ a ∈ attributes, a.WellFormed pool) ∧ encodeAttributes attributes = .ok bytes := by
  rw [encodeAttributes_eq_ok_iff]
  exact counted_iff fun a x hx => attributeFormat_iff hbody (Nat.le_trans hx hlength)

theorem codeFormat_iff {pool : ConstantPool} {n : Nat} {body : BodyReader}
    (hbody : TakesApart pool n body) {b : CodeAttribute} {bytes : List UInt8}
    (hlength : bytes.length ≤ n + 1) :
    CodeFormat (Format.Counted (AttributeFormat pool body)) b bytes ↔
      (∀ a ∈ b.attributes, a.WellFormed pool) ∧ b.encodeContents = .ok bytes := by
  -- the attributes stand behind at least two numbers
  have hshorter {sized encoded : List UInt8} {handlers : List UInt8} (h : bytes =
      be16 b.maxStack ++ (be16 b.maxLocals ++ (sized ++ (handlers ++ encoded)))) :
      encoded.length ≤ n := by
    subst h
    simp only [be16, List.length_append, List.length_cons, List.length_nil] at hlength
    omega
  rw [encodeContents_eq_ok_iff]
  constructor
  · rintro ⟨sized, encoded, hsized, hhandlers, hattributes, h⟩
    obtain ⟨hwf, hencoded⟩ := (countedAttributes_iff hbody (hshorter h)).mp hattributes
    exact ⟨hwf, sized, encoded, hsized, hhandlers, hencoded, h⟩
  · rintro ⟨hwf, sized, encoded, hsized, hhandlers, hencoded, h⟩
    exact ⟨sized, encoded, hsized, hhandlers,
      (countedAttributes_iff hbody (hshorter h)).mpr ⟨hwf, hencoded⟩, h⟩

/-- A reader that must take all of its input. -/
theorem run_eq_ok_iff {α : Type} {r : Reader α} {G : Format α} (hr : Reads r G) {bytes : List UInt8}
    {a : α} {leftOver : Nat → Cause} : (do
      let (a, rest) ← r.run bytes
      if rest.isEmpty then return a else fail (leftOver rest.length)) = .ok a ↔ G a bytes := by
  have hstart := hr (.start bytes) a
  rw [bind_eq_ok_iff]
  unfold Reader.run
  constructor
  · rintro ⟨⟨a', rest⟩, hrun, h⟩
    cases hread : r (.start bytes) with
    | error e =>
      rw [hread] at hrun
      cases hrun
    | ok p =>
      rw [hread] at hrun
      cases hrun
      obtain ⟨a', c'⟩ := p
      dsimp only at h
      split at h
      next hempty =>
        cases h
        -- nothing is left, so what was read is all of the input
        obtain ⟨_, hbytes, -, hG⟩ := (hstart c').mp hread
        rw [List.isEmpty_iff.mp hempty, List.append_nil] at hbytes
        rw [← hbytes] at hG
        exact hG
      next => cases h
  · intro hG
    have hread :=
      (hstart ⟨[], bytes.length⟩).mpr ⟨bytes, (List.append_nil _).symm, (Nat.zero_add _).symm, hG⟩
    refine ⟨(a, []), ?_, rfl⟩
    rw [hread]
    rfl

/-- Bodies nested in one another are taken apart as they are put together, up to the depth that the
number of bytes allows. -/
theorem takesApart_readBody (pool : ConstantPool) (n : Nat) :
    TakesApart pool n (readBody pool n) := by
  induction n with
  | zero =>
    intro nameIndex info b hlength
    cases List.length_eq_zero_iff.mp (Nat.le_zero.mp hlength)
    constructor
    · intro h
      cases h
    · rintro ⟨-, -, h⟩
      obtain ⟨_, _, -, -, -, h⟩ := encodeContents_eq_ok_iff.mp h
      cases h
  | succ n ih =>
    intro nameIndex info b hlength
    rw [readBody, run_eq_ok_iff (reads_code pool _ nameIndex), codeFormat_iff ih hlength]

/-! ## 6. Members and classes -/

theorem reads_attributes (pool : ConstantPool) : Reads (readAttributes pool) fun attributes bytes =>
    (∀ a ∈ attributes, a.WellFormed pool) ∧ encodeAttributes attributes = .ok bytes := by
  refine (reads_counted fun _ => reads_attribute pool _).congr fun attributes bytes =>
    countedAttributes_iff (n := bytes.length) ?_ (Nat.le_refl _)
  intro nameIndex info b _
  exact takesApart_readBody pool info.length nameIndex info b (Nat.le_refl _)

theorem Member.encode_eq_ok_iff {m : Member} {bytes : List UInt8} : m.encode = .ok bytes ↔
    ∃ encoded, encodeAttributes m.attributes = .ok encoded ∧
      bytes = be16 m.flags.bits ++ (be16 m.nameIndex ++ (be16 m.descriptorIndex ++ encoded)) := by
  unfold Member.encode
  cases encodeAttributes m.attributes with
  | error e => simp [bind, Except.bind]
  | ok encoded => simp [bind, Except.bind, pure, Except.pure, eq_comm]

def MemberFormat (pool : ConstantPool) : Format Member :=
  fun m bytes => m.WellFormed pool ∧ m.encode = .ok bytes

/-- The three numbers that a member begins with, and its attributes. -/
theorem reads_memberWith {pool : ConstantPool} {attributes : String → Reader (List Attribute)}
    (hattributes : ∀ name, Reads (attributes name) fun as bytes =>
      (∀ a ∈ as, a.WellFormed pool) ∧ encodeAttributes as = .ok bytes) :
    Reads (do
      let flags ← u16
      let nameIndex ← u16
      let descriptorIndex ← u16
      let name ← Reader.check (pool.utf8 nameIndex)
      let _ ← Reader.check (pool.utf8 descriptorIndex)
      let attributes ← attributes name
      return ⟨⟨flags⟩, nameIndex, descriptorIndex, attributes⟩) (MemberFormat pool) := by
  refine (reads_u16.bind fun flags =>
    reads_u16.bind fun nameIndex => reads_u16.bind fun descriptorIndex =>
    (Reads.check (pool.utf8 nameIndex)).bind fun name =>
    (Reads.check (pool.utf8 descriptorIndex)).bind fun _ =>
      (hattributes name).map (Member.mk ⟨flags⟩ nameIndex descriptorIndex)).congr fun m bytes =>
      ⟨?_, ?_⟩
  · rintro ⟨flags, _, _, rfl, rfl, nameIndex, _, _, rfl, rfl, descriptorIndex, _, _, rfl, rfl, name,
      _, _, rfl, ⟨hname, rfl⟩, descriptor, _, encoded, rfl, ⟨hdescriptor, rfl⟩, attributes, rfl,
      hwf, hencoded⟩
    exact ⟨⟨⟨name, hname⟩, ⟨descriptor, hdescriptor⟩, hwf⟩,
      Member.encode_eq_ok_iff.mpr ⟨encoded, hencoded, rfl⟩⟩
  · rintro ⟨⟨⟨name, hname⟩, ⟨descriptor, hdescriptor⟩, hwf⟩, hencode⟩
    obtain ⟨encoded, hencoded, rfl⟩ := Member.encode_eq_ok_iff.mp hencode
    exact ⟨m.flags.bits, _, _, rfl, rfl, m.nameIndex, _, _, rfl, rfl, m.descriptorIndex, _, _, rfl,
      rfl, name, [], _, rfl, ⟨hname, rfl⟩, descriptor, [], _, rfl, ⟨hdescriptor, rfl⟩, m.attributes,
      rfl, hwf, hencoded⟩

theorem reads_field (pool : ConstantPool) (index : Nat) :
    Reads (readField pool index) (MemberFormat pool) :=
  (reads_memberWith fun _ => reads_attributes pool).within (.field index)

theorem reads_method (pool : ConstantPool) : Reads (readMethod pool) (MemberFormat pool) :=
  reads_memberWith fun name => (reads_attributes pool).within (.method name)

theorem reads_members {pool : ConstantPool} {item : Nat → Reader Member}
    (h : ∀ i, Reads (item i) (MemberFormat pool))
    (table : Table) : Reads (Reader.counted item) fun members bytes =>
      (∀ m ∈ members, m.WellFormed pool) ∧ encodeMembers table members = .ok bytes := by
  refine (reads_counted h).congr fun members bytes => ?_
  rw [encodeMembers_eq_ok_iff]
  exact counted_iff fun m x _ => Iff.rfl

theorem reads_classIndex (pool : ConstantPool) (place : Place) :
    Reads (readClassIndex pool place) fun i bytes =>
    (∃ name, pool.className i = .ok name) ∧ bytes = be16 i := by
  refine (reads_u16.bind fun i => Reads.checked (.pure i)).congr fun i bytes => ⟨?_, ?_⟩
  · rintro ⟨_, _, _, rfl, rfl, ⟨name, hname⟩, rfl, rfl⟩
    exact ⟨⟨name, within_eq_ok_iff.mp hname⟩, List.append_nil _⟩
  · rintro ⟨⟨name, hname⟩, rfl⟩
    exact ⟨i, _, [], (List.append_nil _).symm, rfl, ⟨name, within_eq_ok_iff.mpr hname⟩, rfl, rfl⟩

theorem reads_superClass (pool : ConstantPool) : Reads (readSuperClass pool) fun i bytes =>
    (i ≠ 0 → ∃ name, pool.className i = .ok name) ∧ bytes = be16 i := by
  have hchecked (i : UInt16) : Reads (do
        if i ≠ 0 then
          let _ ← Reader.check (within .superClass (pool.className i))
        return i) fun j bytes =>
        j = i ∧ bytes = [] ∧ (i ≠ 0 → ∃ name, pool.className i = .ok name) := by
    split
    next hi =>
      refine (Reads.checked (.pure i)).congr fun j bytes => ?_
      simp only [within_eq_ok_iff]
      grind
    next hi =>
      refine (Reads.pure i).congr fun j bytes => ?_
      grind
  refine (reads_u16.bind hchecked).congr fun i bytes => ⟨?_, ?_⟩
  · rintro ⟨_, _, _, rfl, rfl, rfl, rfl, hname⟩
    exact ⟨hname, List.append_nil _⟩
  · rintro ⟨hname, rfl⟩
    exact ⟨i, _, [], (List.append_nil _).symm, rfl, rfl, rfl, hname⟩

theorem reads_magic : Reads readMagic fun _ bytes => bytes = be32 magic := by
  have hrest (found : UInt32) : Reads (do
        if found ≠ magic then
          Reader.check (fail (.badMagic found))) fun _ bytes => bytes = [] ∧ found = magic := by
    split
    next h => exact (Reads.fail _).congr fun _ bytes => ⟨False.elim, fun h' => h h'.2⟩
    next h => exact (Reads.pure ()).congr fun _ bytes => by grind
  refine (reads_u32.bind hrest).congr fun _ bytes => ⟨?_, ?_⟩
  · rintro ⟨_, _, _, rfl, rfl, rfl, rfl⟩
    exact List.append_nil _
  · rintro rfl
    exact ⟨magic, _, [], (List.append_nil _).symm, rfl, rfl, rfl⟩

theorem encode_eq_ok_iff {c : ClassFile} {bytes : List UInt8} : c.encode = .ok bytes ↔
    ∃ interfaces fields methods attributes,
      encodeCount .interfaces c.interfaces.length = .ok interfaces ∧
        encodeMembers .fields c.fields = .ok fields ∧
      encodeMembers .methods c.methods = .ok methods ∧
        encodeAttributes c.attributes = .ok attributes ∧
      bytes = be32 magic ++
        (be16 c.minorVersion ++ (be16 c.majorVersion ++ (c.pool.encode ++ (be16 c.flags.bits ++
        (be16 c.thisClass ++ (be16 c.superClass ++ (interfaces ++ c.interfaces.flatMap be16 ++
          (fields ++ (methods ++ attributes))))))))) := by
  unfold encode
  simp only [bind_eq_ok_iff, pure, Except.pure, Except.ok.injEq, List.append_assoc]
  constructor
  · rintro ⟨interfaces, h₁, fields, h₂, methods, h₃, attributes, h₄, rfl⟩
    exact ⟨interfaces, fields, methods, attributes, h₁, h₂, h₃, h₄, rfl⟩
  · rintro ⟨interfaces, fields, methods, attributes, h₁, h₂, h₃, h₄, rfl⟩
    exact ⟨interfaces, h₁, fields, h₂, methods, h₃, attributes, h₄, rfl⟩

/-- A count of indices and the indices. -/
theorem reads_interfaces (pool : ConstantPool) :
    Reads (Reader.counted fun _ => readClassIndex pool .interfaces) fun indices bytes =>
      (∀ i ∈ indices, ∃ name, pool.className i = .ok name) ∧
        ∃ count, encodeCount .interfaces indices.length = .ok count ∧
          bytes = count ++ indices.flatMap be16 := by
  refine (reads_counted fun _ => reads_classIndex pool .interfaces).congr fun indices bytes => ?_
  rw [counted_code_iff]
  simp only [encodeCount_eq_ok_iff]
  grind

theorem reads_class : Reads read fun c bytes => c.WellFormed ∧ c.encode = .ok bytes := by
  refine (reads_magic.bind fun _ =>
    reads_u16.bind fun minor => reads_u16.bind fun major => reads_pool.bind fun pool =>
    reads_u16.bind fun flags => (reads_classIndex pool .thisClass).bind fun thisClass =>
    (reads_superClass pool).bind fun superClass => (reads_interfaces pool).bind fun interfaces =>
    (reads_members (reads_field pool) .fields).bind fun fields =>
    (reads_members (fun _ => reads_method pool) .methods).bind fun methods =>
    (reads_attributes pool).map
      (ClassFile.mk minor major pool ⟨flags⟩ thisClass superClass interfaces fields methods)).congr
    fun c bytes => ⟨?_, ?_⟩
  · rintro ⟨_, _, _, rfl, rfl, minor, _, _, rfl, rfl, major, _, _, rfl, rfl, pool, _, _, rfl,
      ⟨hpool, rfl⟩, flags, _, _, rfl, rfl, thisClass, _, _, rfl, ⟨hthis, rfl⟩, superClass, _, _,
      rfl, ⟨hsuper, rfl⟩, interfaces, _, _, rfl, ⟨hinterfaces, count, hcount, rfl⟩, fields, _, _,
      rfl, ⟨hfields, hfieldBytes⟩, methods, _, attributeBytes, rfl, ⟨hmethods, hmethodBytes⟩,
      attributes, rfl, hattributes, hencoded⟩
    exact ⟨⟨hpool, hthis, hsuper, hinterfaces, hfields, hmethods, hattributes⟩,
      encode_eq_ok_iff.mpr ⟨count, _, _, _, hcount, hfieldBytes, hmethodBytes, hencoded, rfl⟩⟩
  · rintro ⟨⟨hpool, hthis, hsuper, hinterfaces, hfields, hmethods, hattributes⟩, hencode⟩
    obtain ⟨count, fields, methods, attributes, hcount, hfieldBytes, hmethodBytes, hencoded, rfl⟩ :=
      encode_eq_ok_iff.mp hencode
    exact ⟨(), _, _, rfl, rfl, c.minorVersion, _, _, rfl, rfl, c.majorVersion, _, _, rfl, rfl,
      c.pool, _, _, rfl, ⟨hpool, rfl⟩, c.flags.bits, _, _, rfl, rfl, c.thisClass, _, _, rfl,
      ⟨hthis, rfl⟩, c.superClass, _, _, rfl,
      ⟨hsuper, rfl⟩, c.interfaces, _, _, rfl, ⟨hinterfaces, count, hcount, rfl⟩, c.fields, _, _,
      rfl, ⟨hfields, hfieldBytes⟩, c.methods, _, _, rfl, ⟨hmethods, hmethodBytes⟩, c.attributes,
      rfl, hattributes, hencoded⟩

/-! ## 7. Whole inputs -/

/-- A class file is decoded from bytes if and only if it is well formed and encodes to them. -/
theorem decode_eq_ok_iff {bytes : List UInt8} {c : ClassFile} :
    decode bytes = .ok c ↔ c.WellFormed ∧ c.encode = .ok bytes := run_eq_ok_iff reads_class

/-- Whatever a class file holds, encoding it gives back the bytes that it was decoded from. -/
theorem encode_of_decode {bytes : List UInt8} {c : ClassFile} (h : decode bytes = .ok c) :
    c.encode = .ok bytes :=
  (decode_eq_ok_iff.mp h).2

/-- The class `A` with all flags set.  Its constants include an unpaired surrogate and a
not-a-number with a payload, and it has a `Code` attribute of its own that holds another one. -/
def unusualBytes : List UInt8 :=
  be32 magic ++ be16 0 ++ be16 52 ++
    (be16 7 ++ [1, 0, 1, 0x41] ++ [7, 0, 1] ++ [1, 0, 4, 0x43, 0x6F, 0x64, 0x65] ++
      [1, 0, 3, 0xED, 0xA0, 0x80] ++ [6, 0x7F, 0xF8, 0, 0, 0, 0, 0, 1]) ++
    be16 0xFFFF ++ be16 2 ++ be16 0 ++ be16 0 ++ be16 0 ++ be16 0 ++ be16 1 ++
    (be16 3 ++ be32 30 ++ be16 1 ++ be16 2 ++ be32 0 ++ be16 0 ++ be16 1 ++
      (be16 3 ++ be32 12 ++ be16 3 ++ be16 4 ++ be32 0 ++ be16 0 ++ be16 0))

theorem encode_of_decode_unusual :
    ∃ c, decode unusualBytes = .ok c ∧ c.encode = .ok unusualBytes := by
  have h : (decode unusualBytes).isOk = true := by decide +kernel
  cases hc : decode unusualBytes with
  | error e =>
    rw [hc] at h
    cases h
  | ok c => exact ⟨c, rfl, encode_of_decode hc⟩

end MethodGraft.ClassFile
