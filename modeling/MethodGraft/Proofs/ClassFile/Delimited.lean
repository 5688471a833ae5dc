import MethodGraft.Proofs.ClassFile.Codec

/-!
# Proofs.ClassFile.Delimited — where a class file ends

A class file itself says where it ends.  A reader of one stops at the same place whatever follows,
and if its input ends before that place then this is the first thing it notices: no check of what
was read comes before it.  So no class file begins with another one.
-/

namespace MethodGraft.ClassFile

namespace Reader

variable {α β : Type}

def Truncates (limit : Nat) (x : Except Error α) : Prop :=
  ∃ offset ≤ limit, ∃ places, x = .error ⟨.truncated offset, places⟩

structure SelfDelimiting (r : Reader α) : Prop where
  /-- What follows is of no influence. -/
  reads : ∃ G, Reads r G
  /-- Bytes that are missing at the end are noticed, and before anything else goes wrong. -/
  truncates : ∀ {cut missing : List UInt8} {offset last : Nat} {a : α}, missing ≠ [] →
    r ⟨cut ++ missing, offset⟩ = .ok (a, ⟨[], last⟩) →
      Truncates (offset + cut.length) (r ⟨cut, offset⟩)

/-! ## 1. Composition -/

/-- Input in two parts, the first of which is `x`, is cut in the first part or after it. -/
theorem cut_cases {cut missing x y : List UInt8} (h : cut ++ missing = x ++ y) :
    (∃ rest, rest ≠ [] ∧ x = cut ++ rest) ∨ ∃ rest, cut = x ++ rest ∧ y = rest ++ missing := by
  obtain ⟨rest, rfl, rfl⟩ | hafter := List.append_eq_append_iff.mp h
  · cases rest with
    | nil => exact .inr ⟨[], by simp, rfl⟩
    | cons b rest => exact .inl ⟨b :: rest, nofun, rfl⟩
  · exact .inr hafter

theorem SelfDelimiting.bind {r : Reader α} {f : α → Reader β} (hr : SelfDelimiting r)
    (hf : ∀ a, SelfDelimiting (f a)) : SelfDelimiting (r >>= f) where
  reads := by
    obtain ⟨G, hG⟩ := hr.reads
    choose H hH using fun a => (hf a).reads
    exact ⟨_, hG.bind hH⟩
  truncates := by
    intro cut missing offset last b hmissing h
    obtain ⟨G, hG⟩ := hr.reads
    obtain ⟨a, ⟨unread, middle⟩, ha, hb⟩ := bind_eq_ok.mp h
    obtain ⟨x, hx, rfl, hformat⟩ := (hG _ _ _).mp ha
    have hlocal (rest : List UInt8) : r ⟨x ++ rest, offset⟩ = .ok (a, ⟨rest, offset + x.length⟩) :=
      (hG _ _ _).mpr ⟨x, rfl, rfl, hformat⟩
    have hbind (c : Cursor) : (r >>= f) c = (r c >>= fun p => f p.1 p.2) := rfl
    obtain ⟨rest, hrest, rfl⟩ | ⟨rest, rfl, hunread⟩ := cut_cases hx
    -- the first reader notices
    · have hwhole := hlocal []
      rw [List.append_nil] at hwhole
      obtain ⟨position, hle, places, herror⟩ := hr.truncates hrest hwhole
      exact ⟨position, hle, places, by rw [hbind, herror]; rfl⟩
    -- the first reader has all its bytes, so the second one notices
    · dsimp only at hunread
      rw [hunread] at hb
      obtain ⟨position, hle, places, herror⟩ := (hf a).truncates hmissing hb
      refine ⟨position, ?_, places, ?_⟩
      · rw [List.length_append, ← Nat.add_assoc]
        exact hle
      · rw [hbind, hlocal]
        exact herror

/-- A reader that reads nothing has nothing to miss. -/
theorem SelfDelimiting.ofNothing {r : Reader α} {G : Format α} (hr : Reads r G)
    (hnothing : ∀ a bytes, G a bytes → bytes = []) : SelfDelimiting r where
  reads := ⟨G, hr⟩
  truncates := by
    intro cut missing offset last a hmissing h
    obtain ⟨bytes, hbytes, -, hformat⟩ := (hr _ _ _).mp h
    cases hnothing a bytes hformat
    exact absurd (List.append_eq_nil_iff.mp hbytes).2 hmissing

theorem SelfDelimiting.pure (a : α) : SelfDelimiting (pure a : Reader α) :=
  ofNothing (Reads.pure a) fun _ _ h => h.2

theorem SelfDelimiting.check (x : Except Error α) : SelfDelimiting (check x) :=
  ofNothing (Reads.check x) fun _ _ h => h.2

theorem SelfDelimiting.ite {c : Prop} [Decidable c] {r s : Reader α} (hr : SelfDelimiting r)
    (hs : SelfDelimiting s) : SelfDelimiting (if c then r else s) := by
  split
  · exact hr
  · exact hs

theorem SelfDelimiting.within {r : Reader α} (hr : SelfDelimiting r) (p : Place) :
    SelfDelimiting (within p r) where
  reads := by
    obtain ⟨G, hG⟩ := hr.reads
    exact ⟨G, hG.within p⟩
  truncates := by
    intro cut missing offset last a hmissing h
    obtain ⟨position, hle, places, herror⟩ := hr.truncates hmissing (within_eq_ok_iff.mp h)
    exact ⟨position, hle, places ++ [p], by rw [Reader.within, herror]; rfl⟩

/-! ## 2. Numbers, bytes and tables -/

/-- A reader of a fixed number of bytes that asks first whether there are as many. -/
theorem SelfDelimiting.ofLength {r : Reader α} {G : Format α} {n : Nat} (hr : Reads r G)
    (hlength : ∀ a bytes, G a bytes → bytes.length = n)
    (hshort : ∀ c : Cursor, c.rest.length < n → r c = truncated c) : SelfDelimiting r where
  reads := ⟨G, hr⟩
  truncates := by
    intro cut missing offset last a hmissing h
    obtain ⟨bytes, hbytes, -, hformat⟩ := (hr _ _ _).mp h
    -- what is missing counts, so too few bytes are left for the reader
    have htotal : cut.length + missing.length = n := by
      rw [← List.length_append, ← hlength a bytes hformat]
      simpa using congrArg List.length hbytes
    have hpos := List.length_pos_iff.mpr hmissing
    exact ⟨offset, Nat.le_add_right _ _, [], hshort ⟨cut, offset⟩ (by dsimp only; omega)⟩

theorem selfDelimiting_u8 : SelfDelimiting u8 := by
  refine .ofLength (n := 1) reads_u8 (fun _ _ h => h ▸ rfl) ?_
  rintro ⟨_ | ⟨a, rest⟩, offset⟩ h
  · rfl
  · simp at h

theorem selfDelimiting_u16 : SelfDelimiting u16 := by
  refine .ofLength (n := 2) reads_u16 (fun _ _ h => h ▸ rfl) ?_
  rintro ⟨_ | ⟨a, _ | ⟨b, rest⟩⟩, offset⟩ h
  · rfl
  · rfl
  · simp only [List.length_cons] at h
    omega

theorem selfDelimiting_u32 : SelfDelimiting u32 := by
  refine .ofLength (n := 4) reads_u32 (fun _ _ h => h ▸ rfl) ?_
  rintro ⟨_ | ⟨a, _ | ⟨b, _ | ⟨d, _ | ⟨e, rest⟩⟩⟩⟩, offset⟩ h
  · rfl
  · rfl
  · rfl
  · rfl
  · simp only [List.length_cons] at h
    omega

theorem selfDelimiting_u64 : SelfDelimiting u64 :=
  selfDelimiting_u32.bind fun _ => selfDelimiting_u32.bind fun _ => .pure _

theorem selfDelimiting_bytes (n : Nat) : SelfDelimiting (bytes n) := by
  refine .ofLength (reads_bytes n) (fun _ _ h => h.1 ▸ h.2) fun c hshort => ?_
  unfold bytes
  cases hsplit : splitExactly n [] c.rest with
  | none => rfl
  | some p =>
    obtain ⟨taken, hlength, -, hrest⟩ := splitExactly_eq_some_iff.mp hsplit
    rw [hrest, List.length_append] at hshort
    omega

theorem SelfDelimiting.timesFrom {item : Nat → Reader α} (h : ∀ i, SelfDelimiting (item i))
    (i n : Nat) (items : List α) : SelfDelimiting (timesFrom item i n items) := by
  induction n generalizing i items with
  | zero => exact .pure items.reverse
  | succ n ih =>
    rw [timesFrom_succ]
    exact (h i).bind fun a => ih (i + 1) (a :: items)

theorem SelfDelimiting.counted {item : Nat → Reader α} (h : ∀ i, SelfDelimiting (item i)) :
    SelfDelimiting (counted item) :=
  selfDelimiting_u16.bind fun n => .timesFrom h 0 n.toNat []

end Reader

open Reader

/-! ## 3. Constants -/

theorem selfDelimiting_readTagged (tag : UInt8) : SelfDelimiting (Constant.readTagged tag) := by
  unfold Constant.readTagged
  split
  -- bytes that are counted, then the numbers by their width, then indices, and last the tags of no
  -- constant
  case h_1 =>
    exact selfDelimiting_u16.bind fun n => (selfDelimiting_bytes n.toNat).bind fun _ => .pure _
  case h_2 | h_3 => exact selfDelimiting_u32.bind fun _ => .pure _
  case h_4 | h_5 => exact selfDelimiting_u64.bind fun _ => .pure _
  case h_12 => exact selfDelimiting_u8.bind fun _ => selfDelimiting_u16.bind fun _ => .pure _
  case h_6 | h_7 | h_13 | h_16 | h_17 => exact selfDelimiting_u16.bind fun _ => .pure _
  case h_8 | h_9 | h_10 | h_11 | h_14 | h_15 =>
    exact selfDelimiting_u16.bind fun _ => selfDelimiting_u16.bind fun _ => .pure _
  case h_18 => exact .check _

/-- Constants are read until the pool is full: how many that takes depends on how wide they are. -/
theorem selfDelimiting_readEntries (total slots : Nat) (entries : Array Constant) :
    SelfDelimiting (ConstantPool.readEntries total slots entries) := by
  induction slots generalizing entries with
  | zero => exact .pure entries
  | succ slots ih =>
    by_cases hfull : total ≤ entries.size
    · rw [ConstantPool.readEntries_full hfull]
      exact .pure entries
    · rw [ConstantPool.readEntries_succ (Nat.lt_of_not_le hfull)]
      have hconstant : SelfDelimiting Constant.read :=
        selfDelimiting_u8.bind selfDelimiting_readTagged
      -- a wide constant takes two entries, and is refused where there is room for one only
      exact (hconstant.within _).bind fun k => .ite (.ite (.check _) (ih _)) (ih _)

/-- The references between constants are checked only when all of them have been read. -/
theorem selfDelimiting_pool : SelfDelimiting ConstantPool.read := by
  have hentries (total : UInt16) : SelfDelimiting (do
      let entries ← ConstantPool.readEntries total.toNat total.toNat #[.unusable]
      Reader.check (ConstantPool.checkReferences ⟨entries⟩)
      return (⟨entries⟩ : ConstantPool)) :=
    (selfDelimiting_readEntries _ _ _).bind fun _ => (SelfDelimiting.check _).bind fun _ => .pure _
  unfold ConstantPool.read
  exact selfDelimiting_u16.bind fun total =>
    .ite ((SelfDelimiting.check _).bind fun _ => hentries total) (hentries total)

/-! ## 4. Members and classes -/

/-- All bytes of an attribute are read before its name is looked up or its contents are taken apart,
whatever `body` makes of them. -/
theorem selfDelimiting_attribute (pool : ConstantPool) (body : BodyReader) :
    SelfDelimiting (readAttribute pool body) :=
  selfDelimiting_u16.bind fun _ => selfDelimiting_u32.bind fun length =>
    (selfDelimiting_bytes length.toNat).bind fun _ => (SelfDelimiting.check _).bind fun _ =>
      .ite ((SelfDelimiting.check _).bind fun _ => .pure _) (.pure _)

theorem selfDelimiting_attributes (pool : ConstantPool) : SelfDelimiting (readAttributes pool) :=
  .counted fun _ => selfDelimiting_attribute pool _

theorem selfDelimiting_field (pool : ConstantPool) (index : Nat) :
    SelfDelimiting (readField pool index) :=
  SelfDelimiting.within (selfDelimiting_u16.bind fun _ => selfDelimiting_u16.bind fun _ =>
    selfDelimiting_u16.bind fun _ =>
    (SelfDelimiting.check _).bind fun _ => (SelfDelimiting.check _).bind fun _ =>
      (selfDelimiting_attributes pool).bind fun _ => .pure _) _

theorem selfDelimiting_method (pool : ConstantPool) : SelfDelimiting (readMethod pool) :=
  selfDelimiting_u16.bind fun _ => selfDelimiting_u16.bind fun _ => selfDelimiting_u16.bind fun _ =>
    (SelfDelimiting.check _).bind fun _ => (SelfDelimiting.check _).bind fun _ =>
      ((selfDelimiting_attributes pool).within _).bind fun _ => .pure _

theorem selfDelimiting_classIndex (pool : ConstantPool) (place : Place) :
    SelfDelimiting (readClassIndex pool place) :=
  selfDelimiting_u16.bind fun _ => (SelfDelimiting.check _).bind fun _ => .pure _

theorem selfDelimiting_superClass (pool : ConstantPool) : SelfDelimiting (readSuperClass pool) :=
  selfDelimiting_u16.bind fun _ => .ite ((SelfDelimiting.check _).bind fun _ => .pure _) (.pure _)

theorem selfDelimiting_magic : SelfDelimiting readMagic :=
  selfDelimiting_u32.bind fun _ => .ite (.check _) (.pure _)

theorem selfDelimiting_class : SelfDelimiting read :=
  selfDelimiting_magic.bind fun _ =>
    selfDelimiting_u16.bind fun _ => selfDelimiting_u16.bind fun _ =>
    selfDelimiting_pool.bind fun pool => selfDelimiting_u16.bind fun _ =>
    (selfDelimiting_classIndex pool .thisClass).bind fun _ =>
      (selfDelimiting_superClass pool).bind fun _ =>
    (SelfDelimiting.counted fun _ => selfDelimiting_classIndex pool .interfaces).bind fun _ =>
    (SelfDelimiting.counted (selfDelimiting_field pool)).bind fun _ =>
    (SelfDelimiting.counted fun _ => selfDelimiting_method pool).bind fun _ =>
    (selfDelimiting_attributes pool).bind fun _ => .pure _

/-! ## 5. Whole inputs -/

theorem decode_eq_ok_iff_read {bytes : List UInt8} {c : ClassFile} :
    decode bytes = .ok c ↔ ∃ last, read (.start bytes) = .ok (c, ⟨[], last⟩) := by
  unfold decode Reader.run
  cases read (.start bytes) with
  | error e => simp [bind, Except.bind, Except.map]
  | ok p =>
    obtain ⟨c', rest, last⟩ := p
    cases rest <;> simp [bind, Except.bind, Except.map, pure, Except.pure, fail]

/-- Without its last bytes, a class file is refused because its input ends. -/
theorem decode_cut {cut missing : List UInt8} {c : ClassFile} (h : decode (cut ++ missing) = .ok c)
    (hmissing : missing ≠ []) : Truncates cut.length (decode cut) := by
  obtain ⟨last, hread⟩ := decode_eq_ok_iff_read.mp h
  obtain ⟨offset, hle, places, herror⟩ := selfDelimiting_class.truncates hmissing hread
  refine ⟨offset, by rwa [Nat.zero_add] at hle, places, ?_⟩
  rw [decode, Reader.run, Cursor.start, herror]
  rfl

/-- What follows a class file is counted and nothing else. -/
theorem decode_append {bytes more : List UInt8} {c : ClassFile} (h : decode bytes = .ok c)
    (hmore : more ≠ []) :
    decode (bytes ++ more) = .error ⟨.trailingAfterClass more.length, []⟩ := by
  obtain ⟨last, hread⟩ := decode_eq_ok_iff_read.mp h
  obtain ⟨whole, hwhole, hlast, hclass⟩ := (reads_class _ _ _).mp hread
  rw [List.append_nil] at hwhole
  subst hwhole
  have hmoreRead : read (.start (bytes ++ more)) = .ok (c, ⟨more, last⟩) :=
    (reads_class _ _ _).mpr ⟨bytes, rfl, hlast, hclass⟩
  rw [decode, Reader.run, hmoreRead]
  cases more with
  | nil => exact absurd rfl hmore
  | cons b more => rfl

/-- Class files are self-delimiting.  Of the bytes of a class file, every proper prefix is refused
because its input ends, at a position that it has; with more bytes behind them they are refused
because of these, whose number is reported.  So no class file is a proper prefix of another one. -/
theorem decode_selfDelimiting {bytes : List UInt8} {c : ClassFile} (h : decode bytes = .ok c) :
    (∀ cut, cut <+: bytes → cut ≠ bytes →
      ∃ offset ≤ cut.length, ∃ places, decode cut = .error ⟨.truncated offset, places⟩) ∧
    (∀ more, more ≠ [] → decode (bytes ++ more) = .error ⟨.trailingAfterClass more.length, []⟩) ∧
    ∀ other c', decode other = .ok c' → bytes <+: other → other = bytes := by
  refine ⟨?_, fun more => decode_append h, ?_⟩
  · rintro cut ⟨missing, rfl⟩ hne
    exact decode_cut h fun hmissing => hne (by rw [hmissing, List.append_nil])
  · rintro other c' hother ⟨more, rfl⟩
    by_contra hne
    have hmore : more ≠ [] := fun hmore => hne (by rw [hmore, List.append_nil])
    rw [decode_append h hmore] at hother
    cases hother

theorem decode_selfDelimiting_unusual : ∃ c, decode unusualBytes = .ok c ∧
    (∃ offset ≤ 42, ∃ places, decode (unusualBytes.take 42) = .error ⟨.truncated offset, places⟩) ∧
    decode (unusualBytes ++ [0]) = .error ⟨.trailingAfterClass 1, []⟩ := by
  have h : (decode unusualBytes).isOk = true := by decide +kernel
  cases hc : decode unusualBytes with
  | error e =>
    rw [hc] at h
    cases h
  | ok c =>
    obtain ⟨hcut, hmore, -⟩ := decode_selfDelimiting hc
    exact ⟨c, rfl, hcut _ (List.take_prefix 42 unusualBytes) (by decide +kernel),
      hmore [0] (by decide)⟩

end MethodGraft.ClassFile
