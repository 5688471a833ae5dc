import MethodGraft.Proofs.ClassFile.Reading
import MethodGraft.Proofs.Pool.Interning
import MethodGraft.Proofs.Text.ModifiedUtf8

/-!
# Proofs.Pool.Codec — constants and pools as bytes

A pool is read from bytes if and only if it is well formed and these are its bytes.
-/

namespace MethodGraft.ClassFile

open Reader

/-! ## 1. Constants -/

def Constant.Tagged (tag : UInt8) : Format Constant :=
  fun k bytes => k ≠ .unusable ∧ k.Writable ∧ k.encode = tag :: bytes

theorem Constant.encode_eq_cons {k : Constant} (h : k ≠ .unusable) :
    ∃ bytes, k.encode = k.tag :: bytes := by
  cases k with
  | unusable => exact absurd rfl h
  | _ => exact ⟨_, rfl⟩

/-- The constants with a tag are those that `make` builds of what `r` reads. -/
theorem reads_tagged {α : Type} {tag : UInt8} {r : Reader α} {code : α → List UInt8}
    {make : α → Constant} (hr : Reads r fun a bytes => bytes = code a)
    (hmade : ∀ k, k ≠ .unusable → k.tag = tag → ∃ a, k = make a)
    (hmake : ∀ a, Constant.Tagged tag (make a) (code a)) :
    Reads (do return make (← r)) (Constant.Tagged tag) := by
  refine (hr.map make).congr fun k bytes => ⟨?_, ?_⟩
  · rintro ⟨a, rfl, rfl⟩
    exact hmake a
  · rintro ⟨hne, hwritable, hbytes⟩
    obtain ⟨_, htag⟩ := Constant.encode_eq_cons hne
    rw [htag] at hbytes
    obtain ⟨a, rfl⟩ := hmade k hne (List.cons.inj hbytes).1
    have hcode := (hmake a).2.2
    rw [htag, hbytes] at hcode
    exact ⟨a, rfl, (List.cons.inj hcode).2⟩

/-- What holds two numbers. -/
theorem reads_two {α β : Type} {tag : UInt8} {r : Reader α} {r' : Reader β} {code : α → List UInt8}
    {code' : β → List UInt8} {make : α → β → Constant} (hr : Reads r fun a bytes => bytes = code a)
    (hr' : Reads r' fun b bytes => bytes = code' b)
    (hmade : ∀ k, k ≠ .unusable → k.tag = tag → ∃ a b, k = make a b)
    (hmake : ∀ a b, Constant.Tagged tag (make a b) (code a ++ code' b)) :
    Reads (do return make (← r) (← r')) (Constant.Tagged tag) := by
  have hpair : Reads (do return (← r, ← r')) fun p bytes => bytes = code p.1 ++ code' p.2 := by
    refine (hr.bind fun a => hr'.map (Prod.mk a)).congr fun p bytes => ⟨?_, ?_⟩
    · rintro ⟨a, _, _, rfl, rfl, b, rfl, rfl⟩
      rfl
    · rintro rfl
      exact ⟨p.1, _, _, rfl, rfl, p.2, rfl, rfl⟩
  have hmade' (k : Constant) (hne : k ≠ .unusable) (htag : k.tag = tag) :
      ∃ p : α × β, k = make p.1 p.2 := by
    obtain ⟨a, b, rfl⟩ := hmade k hne htag
    exact ⟨(a, b), rfl⟩
  have h := reads_tagged hpair hmade' fun p => hmake p.1 p.2
  simpa only [bind_assoc, pure_bind] using h

/-- Bytes that write a text are held as that text, and others as they are. -/
theorem tagged_ofUtf8Bytes {raw : List UInt8} (hlength : raw.length ≤ 65535) :
    Constant.Tagged 1 (.ofUtf8Bytes raw) (be16 (UInt16.ofNat raw.length) ++ raw) := by
  unfold Constant.ofUtf8Bytes
  cases h : ModifiedUtf8.decode raw with
  | some text =>
    cases ModifiedUtf8.decode_eq_some_iff.mp h
    exact ⟨nofun, hlength, rfl⟩
  | none => exact ⟨nofun, ⟨hlength, h⟩, rfl⟩

theorem eq_ofUtf8Bytes {k : Constant} (hwritable : k.Writable) (htag : k.tag = 1) :
    ∃ raw, raw.length ≤ 65535 ∧ k = .ofUtf8Bytes raw := by
  cases k
  case utf8 text =>
    refine ⟨ModifiedUtf8.encode text, hwritable, ?_⟩
    rw [Constant.ofUtf8Bytes, ModifiedUtf8.decode_eq_some_iff.mpr rfl]
  case utf8Bytes raw =>
    refine ⟨raw, hwritable.1, ?_⟩
    rw [Constant.ofUtf8Bytes, hwritable.2]
  all_goals simp [Constant.tag] at htag

theorem reads_utf8 : Reads (do
      let length ← u16
      return Constant.ofUtf8Bytes (← bytes length.toNat)) (Constant.Tagged 1) := by
  have hraw := reads_u16.bind fun n => (reads_bytes n.toNat).map Constant.ofUtf8Bytes
  refine hraw.congr fun k bytes => ⟨?_, ?_⟩
  · rintro ⟨n, _, raw, rfl, rfl, _, rfl, rfl, hlength⟩
    have h := tagged_ofUtf8Bytes (hlength.trans_le (Nat.le_of_lt_succ n.toNat_lt))
    rwa [hlength, UInt16.ofNat_toNat] at h
  · rintro ⟨hne, hwritable, hbytes⟩
    obtain ⟨_, htag⟩ := Constant.encode_eq_cons hne
    rw [htag] at hbytes
    obtain ⟨raw, hlength, rfl⟩ := eq_ofUtf8Bytes hwritable (List.cons.inj hbytes).1
    rw [← htag, (tagged_ofUtf8Bytes hlength).2.2] at hbytes
    exact ⟨UInt16.ofNat raw.length, _, raw, (List.cons.inj hbytes).2.symm, rfl, raw, rfl, rfl,
      (UInt16.toNat_ofNat_of_lt (Nat.lt_succ_of_le hlength)).symm⟩

theorem Constant.eq_integer {k : Constant} (h : k.tag = 3) :
    ∃ n : UInt32, k = .integer n.toInt32 := by
  cases k
  case integer value => exact ⟨value.toUInt32, rfl⟩
  all_goals simp [Constant.tag] at h

theorem Constant.eq_long {k : Constant} (h : k.tag = 5) : ∃ n : UInt64, k = .long n.toInt64 := by
  cases k
  case long value => exact ⟨value.toUInt64, rfl⟩
  all_goals simp [Constant.tag] at h

/-- A constant that can be written is read back from its contents, once its tag is known. -/
theorem reads_readTagged (tag : UInt8) : Reads (Constant.readTagged tag) (Constant.Tagged tag) := by
  unfold Constant.readTagged
  split
  case h_1 => exact reads_utf8
  case h_2 =>
    exact reads_tagged reads_u32 (fun _ _ h => Constant.eq_integer h)
      fun _ => ⟨nofun, trivial, rfl⟩
  case h_3 =>
    exact reads_tagged reads_u32 (fun k _ h => by cases k <;> simp [Constant.tag] at h ⊢)
      fun _ => ⟨nofun, trivial, rfl⟩
  case h_4 =>
    exact reads_tagged reads_u64 (fun _ _ h => Constant.eq_long h)
      fun _ => ⟨nofun, trivial, rfl⟩
  case h_5 =>
    exact reads_tagged reads_u64 (fun k _ h => by cases k <;> simp [Constant.tag] at h ⊢)
      fun _ => ⟨nofun, trivial, rfl⟩
  -- a method handle, whose first part is one byte
  case h_12 =>
    exact reads_two reads_u8 reads_u16 (fun k _ h => by cases k <;> simp [Constant.tag] at h ⊢)
      fun _ _ => ⟨nofun, trivial, rfl⟩
  case h_6 | h_7 | h_13 | h_16 | h_17 =>
    exact reads_tagged reads_u16 (fun k _ h => by cases k <;> simp [Constant.tag] at h ⊢)
      fun _ => ⟨nofun, trivial, rfl⟩
  case h_8 | h_9 | h_10 | h_11 | h_14 | h_15 =>
    exact reads_two reads_u16 reads_u16 (fun k _ h => by cases k <;> simp [Constant.tag] at h ⊢)
      fun _ _ => ⟨nofun, trivial, rfl⟩
  case h_18 =>
    -- no constant that can be written has another tag
    refine (Reads.fail _).congr fun k bytes => ⟨False.elim, ?_⟩
    · rintro ⟨hne, -, hbytes⟩
      obtain ⟨_, htag⟩ := Constant.encode_eq_cons hne
      rw [htag] at hbytes
      obtain ⟨rfl, -⟩ := List.cons.inj hbytes
      cases k <;> simp_all [Constant.tag]

/-- A constant that can be written is read back from its bytes. -/
theorem reads_constant :
    Reads Constant.read fun k bytes => k ≠ .unusable ∧ k.Writable ∧ bytes = k.encode := by
  refine (reads_u8.bind reads_readTagged).congr fun k bytes => ⟨?_, ?_⟩
  · rintro ⟨tag, _, contents, rfl, rfl, hne, hwritable, hencode⟩
    exact ⟨hne, hwritable, hencode.symm⟩
  · rintro ⟨hne, hwritable, rfl⟩
    obtain ⟨contents, hencode⟩ := Constant.encode_eq_cons hne
    exact ⟨k.tag, [k.tag], contents, hencode, rfl, hne, hwritable, hencode⟩

/-! ## 2. Pools -/

def MoreEntries (total : Nat) (entries : Array Constant) : Format (Array Constant) :=
  fun es bytes =>
  ∃ more, es.toList = entries.toList ++ more ∧ Slotted more ∧ (∀ k ∈ more, k.Writable) ∧
    es.size = total ∧ bytes = more.flatMap Constant.encode

theorem MoreEntries.nil_iff {total : Nat} {entries es : Array Constant} {bytes : List UInt8}
    (hsize : entries.size = total) : MoreEntries total entries es bytes ↔
    es = entries ∧ bytes = [] := by
  constructor
  · rintro ⟨more, hes, -, -, htotal, rfl⟩
    have hlength := congrArg List.length hes
    rw [List.length_append, Array.length_toList, Array.length_toList, htotal, hsize] at hlength
    cases List.length_eq_zero_iff.mp (by omega : more.length = 0)
    exact ⟨Array.toList_inj.mp (by rw [hes, List.append_nil]), rfl⟩
  · rintro ⟨rfl, rfl⟩
    exact ⟨[], (List.append_nil _).symm, .nil, nofun, hsize, rfl⟩

theorem toList_push_push (entries : Array Constant) (k l : Constant) :
    ((entries.push k).push l).toList = entries.toList ++ [k, l] := by simp

/-- The first of the missing constants takes one slot or two. -/
theorem MoreEntries.cons_iff {total : Nat} {entries es : Array Constant} {bytes : List UInt8}
    (hsize : entries.size < total) : MoreEntries total entries es bytes ↔
      ∃ k x y, bytes = x ++ y ∧ (k ≠ .unusable ∧ k.Writable ∧ x = k.encode) ∧
        if k.isWide then MoreEntries total ((entries.push k).push .unusable) es y
        else MoreEntries total (entries.push k) es y := by
  constructor
  · rintro ⟨more, hes, hslotted, hwritable, htotal, rfl⟩
    cases hslotted with
    | nil =>
      have hlength := congrArg List.length hes
      rw [List.append_nil, Array.length_toList, Array.length_toList, htotal] at hlength
      omega
    | @single k more hne hnarrow hslotted =>
      refine ⟨k, _, _, rfl, ⟨hne, hwritable k List.mem_cons_self, rfl⟩, ?_⟩
      rw [if_neg (by simp [hnarrow])]
      refine ⟨more, ?_, hslotted, fun c hc => hwritable c (List.mem_cons_of_mem k hc), htotal, rfl⟩
      rw [hes, Array.toList_push, List.append_assoc, List.singleton_append]
    -- the unusable slot is an entry too, but it has no bytes
    | @wide k more hwide hslotted =>
      refine ⟨k, _, _, rfl, ⟨?_, hwritable k List.mem_cons_self, rfl⟩, ?_⟩
      · rintro rfl
        cases hwide
      · rw [if_pos hwide]
        refine ⟨more, ?_, hslotted, fun c hc => hwritable c ?_, htotal, rfl⟩
        · rw [hes, toList_push_push, List.append_assoc]
          rfl
        · exact List.mem_cons_of_mem k (List.mem_cons_of_mem _ hc)
  · rintro ⟨k, _, y, rfl, ⟨hne, hk, rfl⟩, hmore⟩
    split at hmore
    next hwide =>
      obtain ⟨more, hes, hslotted, hwritable, htotal, rfl⟩ := hmore
      refine ⟨k :: .unusable :: more, ?_, .wide hwide hslotted, ?_, htotal, rfl⟩
      · rw [hes, toList_push_push, List.append_assoc]
        rfl
      · simp only [List.forall_mem_cons]
        exact ⟨hk, trivial, hwritable⟩
    next hnarrow =>
      obtain ⟨more, hes, hslotted, hwritable, htotal, rfl⟩ := hmore
      refine ⟨k :: more, ?_, .single hne (by simpa using hnarrow) hslotted, ?_, htotal, rfl⟩
      · rw [hes, Array.toList_push, List.append_assoc, List.singleton_append]
      · simp only [List.forall_mem_cons]
        exact ⟨hk, hwritable⟩

/-- A pool that has all its entries is not read on. -/
theorem ConstantPool.readEntries_full {total slots : Nat} {entries : Array Constant}
    (h : total ≤ entries.size) : readEntries total (slots + 1) entries = pure entries := by
  funext c
  exact if_pos h

/-- One constant is read, and then the others. -/
theorem ConstantPool.readEntries_succ {total slots : Nat} {entries : Array Constant}
    (h : entries.size < total) : readEntries total (slots + 1) entries = (do
      let k ← Reader.within (.constant entries.size) Constant.read
      if k.isWide then
        if total ≤ entries.size + 1 then Reader.check (fail (.wideOverrun entries.size))
        else readEntries total slots ((entries.push k).push .unusable)
      else readEntries total slots (entries.push k)) := by
  funext c
  show _ = (Reader.within (.constant entries.size) Constant.read c >>= _)
  rw [readEntries, if_neg (Nat.not_le_of_lt h)]
  cases Reader.within (.constant entries.size) Constant.read c with
  | error e => rfl
  | ok p =>
    obtain ⟨k, d⟩ := p
    dsimp only [bind, Except.bind]
    split
    · split <;> rfl
    · rfl

theorem reads_readEntries {total slots : Nat} {entries : Array Constant}
    (hle : entries.size ≤ total) (hslots : total ≤ entries.size + slots) :
    Reads (ConstantPool.readEntries total slots entries) (MoreEntries total entries) := by
  induction slots generalizing entries with
  | zero =>
    exact (Reads.pure entries).congr fun es bytes => (MoreEntries.nil_iff (by omega)).symm
  | succ slots ih =>
    by_cases hfull : total ≤ entries.size
    · rw [ConstantPool.readEntries_full hfull]
      exact (Reads.pure entries).congr fun es bytes => (MoreEntries.nil_iff (by omega)).symm
    · rw [ConstantPool.readEntries_succ (Nat.lt_of_not_le hfull)]
      refine ((reads_constant.within _).bind fun k => ?_).congr fun es bytes =>
        (MoreEntries.cons_iff (Nat.lt_of_not_le hfull)).symm
      split
      next hwide =>
        split
        -- a wide constant in the last slot: no pool has its second slot
        next hoverrun =>
          refine (Reads.fail _).congr fun es bytes => ⟨False.elim, ?_⟩
          rintro ⟨more, hes, -, -, htotal, -⟩
          have hlength := congrArg List.length hes
          simp only [Array.length_toList, List.length_append, Array.size_push] at hlength
          omega
        next hroom =>
          exact ih (by simp only [Array.size_push]; omega) (by simp only [Array.size_push]; omega)
      next hnarrow =>
        exact ih (by simp only [Array.size_push]; omega) (by simp only [Array.size_push]; omega)

theorem reads_pool : Reads ConstantPool.read fun p bytes => p.WellFormed ∧ bytes = p.encode := by
  have hentries (total : UInt16) (hpos : ¬total = 0) : Reads (do
        let entries ← ConstantPool.readEntries total.toNat total.toNat #[.unusable]
        Reader.check (ConstantPool.checkReferences ⟨entries⟩)
        return ⟨entries⟩) (fun (p : ConstantPool) bytes => p.checkReferences = .ok () ∧
          MoreEntries total.toNat #[.unusable] p.entries bytes) := by
    -- the entry at index 0 is there from the start and has no bytes
    have hone : 1 ≤ total.toNat := Nat.one_le_iff_ne_zero.mpr fun h => hpos (UInt16.toNat_inj.mp h)
    refine ((reads_readEntries hone (by simp)).bind fun entries =>
      (Reads.check _).bind fun _ => .pure _).congr fun p bytes => ⟨?_, ?_⟩
    · rintro ⟨entries, x, _, rfl, hmore, _, _, _, rfl, ⟨hchecked, rfl⟩, rfl, rfl⟩
      simp only [List.append_nil]
      exact ⟨hchecked, hmore⟩
    · rintro ⟨hchecked, hmore⟩
      exact ⟨p.entries, bytes, [], (List.append_nil _).symm, hmore, (), [], [], rfl,
        ⟨hchecked, rfl⟩, rfl, rfl⟩
  unfold ConstantPool.read
  refine (reads_u16.bind fun total => .unless (hentries total)).congr fun p bytes => ⟨?_, ?_⟩
  · rintro ⟨total, _, _, rfl, rfl, hpos, hchecked, more, hes, hslotted, hwritable, htotal, rfl⟩
    have hlt := total.toNat_lt
    refine ⟨⟨by omega, ⟨more, hes, hslotted⟩, ?_,
      ConstantPool.checkReferences_eq_ok_iff.mp hchecked⟩, ?_⟩
    · rw [hes]
      simpa using ⟨trivial, hwritable⟩
    · rw [ConstantPool.encode, ConstantPool.count, htotal, UInt16.ofNat_toNat, hes]
      rfl
  · rintro ⟨hp, rfl⟩
    obtain ⟨more, hes, hslotted⟩ := hp.slotted
    have hsize : (UInt16.ofNat p.entries.size).toNat = p.entries.size :=
      UInt16.toNat_ofNat_of_lt (Nat.lt_succ_of_le hp.size_le)
    refine ⟨p.count, _, _, rfl, rfl, ?_, ConstantPool.checkReferences_eq_ok_iff.mpr hp.references,
      more, hes, hslotted, fun k hk => hp.writable k (hes ▸ List.mem_cons_of_mem _ hk), hsize.symm,
      ?_⟩
    · intro h
      have hlength := congrArg List.length hes
      rw [Array.length_toList, List.length_cons, ← hsize] at hlength
      rw [ConstantPool.count] at h
      rw [h] at hlength
      cases hlength
    · rw [hes]
      rfl

end MethodGraft.ClassFile
