import MethodGraft.Proofs.Capacity
import MethodGraft.Proofs.Pool.Growth

/-!
# Proofs.Pool.Interning — what interning gives back

`ConstantPool.WellFormed` is what every pool that was read or built satisfies.  From such a pool,
interning leads to a larger one, which is well formed again, and to an index that means in it what
was asked for.
-/

namespace MethodGraft.ClassFile

/-! ## 1. Well-formed pools -/

/-- The constants fill slots one after the other, and an unusable slot follows each wide one. -/
inductive Slotted : List Constant → Prop
  | nil : Slotted []
  | single {c : Constant} {cs : List Constant} :
    c ≠ .unusable → c.isWide = false → Slotted cs → Slotted (c :: cs)
  | wide {c : Constant} {cs : List Constant} :
    c.isWide = true → Slotted cs → Slotted (c :: .unusable :: cs)

/-- A Utf8 constant is short enough for its length field, and one without a text has none. -/
def Constant.Writable : Constant → Prop
  | .utf8 text => (ModifiedUtf8.encode text).length ≤ 65535
  | .utf8Bytes raw => raw.length ≤ 65535 ∧ ModifiedUtf8.decode raw = none
  | _ => True

/-- What holds of a pool that was read from a class file or built by interning. -/
structure ConstantPool.WellFormed (p : ConstantPool) : Prop where
  size_le : p.entries.size ≤ 65535
  slotted : ∃ cs, p.entries.toList = .unusable :: cs ∧ Slotted cs
  writable : ∀ c ∈ p.entries.toList, c.Writable
  references : ∀ c ∈ p.entries.toList, p.checkConstant c = .ok ()

theorem Slotted.append {as bs : List Constant} (ha : Slotted as) (hb : Slotted bs) :
    Slotted (as ++ bs) := by
  induction ha with
  | nil => exact hb
  | single hne hw _ ih => exact .single hne hw ih
  | wide hw _ ih => exact .wide hw ih

def Constant.slots (c : Constant) : List Constant := if c.isWide then [c, .unusable] else [c]

theorem Slotted.slots {c : Constant} (hc : c ≠ .unusable) : Slotted c.slots := by
  unfold Constant.slots
  split
  next hw => exact .wide hw .nil
  next hw => exact .single hc (by simpa using hw) .nil

namespace ConstantPool

variable {p : ConstantPool} {c : Constant}

theorem toList_push (p : ConstantPool) (c : Constant) :
    (p.push c).entries.toList = p.entries.toList ++ c.slots := by
  unfold push Constant.slots
  split <;> simp

theorem get_push (p : ConstantPool) (hc : c ≠ .unusable) (hsize : p.entries.size < 65536) :
    (p.push c).get (UInt16.ofNat p.entries.size) = .ok c := by
  have htoNat : (UInt16.ofNat p.entries.size).toNat = p.entries.size := by
    simp only [UInt16.toNat_ofNat']
    omega
  rw [get_eq_ok_iff, htoNat, ← Array.getElem?_toList, toList_push]
  refine ⟨?_, hc⟩
  rw [List.getElem?_append_right (by simp)]
  unfold Constant.slots
  split <;> simp

theorem get_of_find? (hsize : p.entries.size ≤ 65535) (hc : c ≠ .unusable) {i : UInt16}
    (h : p.find? c = some i) : p.get i = .ok c := by
  unfold find? at h
  obtain ⟨k, hk, rfl⟩ := Option.map_eq_some_iff.mp h
  obtain ⟨hlt, heq, -⟩ := Array.findIdx?_eq_some_iff_getElem.mp hk
  have htoNat : (UInt16.ofNat k).toNat = k := by
    simp only [UInt16.toNat_ofNat']
    omega
  rw [get_eq_ok_iff, htoNat, Array.getElem?_eq_getElem hlt]
  exact ⟨congrArg some (by simpa using heq), hc⟩

/-- Pushing a constant that is writable and refers to what it should keeps a pool well formed. -/
theorem WellFormed.push (hp : p.WellFormed) (hc : c ≠ .unusable) (hroom : p.hasRoom c = true)
    (hwrite : c.Writable) (href : p.checkConstant c = .ok ()) : (p.push c).WellFormed where
  size_le := by
    have hroom' := of_decide_eq_true hroom
    unfold ConstantPool.push
    split
    next hwide =>
      rw [if_pos hwide] at hroom'
      rw [Array.size_push, Array.size_push]
      omega
    next hwide =>
      rw [if_neg hwide] at hroom'
      rw [Array.size_push]
      exact hroom'
  slotted := by
    obtain ⟨cs, hcs, hslots⟩ := hp.slotted
    exact ⟨cs ++ c.slots, by rw [toList_push, hcs, List.cons_append], hslots.append (.slots hc)⟩
  writable := by
    intro d hd
    rw [toList_push, List.mem_append] at hd
    rcases hd with hd | hd
    · exact hp.writable d hd
    -- a wide constant brings an unusable slot with it, which refers to nothing
    · unfold Constant.slots at hd
      split at hd
      · simp only [List.mem_cons, List.not_mem_nil, or_false] at hd
        rcases hd with rfl | rfl
        · exact hwrite
        · exact trivial
      · rw [List.mem_singleton.mp hd]
        exact hwrite
  references := by
    intro d hd
    rw [toList_push, List.mem_append] at hd
    rcases hd with hd | hd
    · exact checkConstant_mono (le_push p c) (hp.references d hd)
    · unfold Constant.slots at hd
      split at hd
      · simp only [List.mem_cons, List.not_mem_nil, or_false] at hd
        rcases hd with rfl | rfl
        · exact checkConstant_mono (le_push p d) href
        · rfl
      · rw [List.mem_singleton.mp hd]
        exact checkConstant_mono (le_push p c) href

theorem wellFormed_empty : empty.WellFormed where
  size_le := by decide
  slotted := ⟨[], rfl, .nil⟩
  writable := by simp [empty, Constant.Writable]
  references := by simp [empty, checkConstant]

/-- Index 0 means nothing. -/
theorem WellFormed.ne_zero (hp : p.WellFormed) {i : UInt16} (h : p.get i = .ok c) : i ≠ 0 := by
  rintro rfl
  obtain ⟨cs, hcs, -⟩ := hp.slotted
  rw [get_eq_ok_iff, ← Array.getElem?_toList, hcs] at h
  exact h.2 (Option.some.inj h.1).symm

theorem checkUtf8_of_utf8 {i : UInt16} {text : String} (h : p.utf8 i = .ok text) :
    p.checkUtf8 i = .ok () := by
  rw [utf8_eq_ok_iff] at h
  simp [checkUtf8, h, bind, Except.bind, pure, Except.pure]

theorem checkTag_of_get {i : UInt16} {tag : UInt8} (h : p.get i = .ok c) (htag : c.tag = tag) :
    p.checkTag i tag = .ok () := by
  simp [checkTag, h, htag, bind, Except.bind, pure, Except.pure]

/-- What leads to the name of a class and to a name and type passes the checks of a reference to a
member. -/
theorem checkTags_of_names {c n : UInt16} {owner : String} {names : String × String}
    (howner : p.className c = .ok owner) (hnames : p.nameAndType n = .ok names) : (do
      p.checkTag c (Constant.classRef 0).tag
      p.checkTag n (Constant.nameAndType 0 0).tag) = .ok () := by
  obtain ⟨_, hclass, -⟩ := className_eq_ok_iff.mp howner
  obtain ⟨_, _, hname, -⟩ := nameAndType_eq_ok_iff.mp hnames
  exact checkBoth.mpr ⟨checkTag_of_get hclass rfl, checkTag_of_get hname rfl⟩

end ConstantPool

/-! ## 2. Interning -/

/-- Interning from `p` gives an index that has the property `P` in a larger, well-formed pool. -/
abbrev Interning.Finds (x : Interning UInt16) (p : ConstantPool)
    (P : ConstantPool → UInt16 → Prop) : Prop :=
  Meets x p fun i q => p ≤ q ∧ q.WellFormed ∧ P q i

namespace Interning

open ConstantPool

variable {p : ConstantPool}

theorem meets_constant (c : Constant) (hp : p.WellFormed) (hc : c ≠ .unusable)
    (hwrite : c.Writable) (href : p.checkConstant c = .ok ()) :
    (constant c).Finds p fun q i => q.get i = .ok c := by
  unfold constant
  refine .bind (.ofGet ?_)
  dsimp only
  split
  next i hfind => exact .ofPure ⟨le_rfl, hp, get_of_find? hp.size_le hc hfind⟩
  next =>
    split
    next hroom =>
      refine .bind (.ofSet (.ofPure ⟨le_push p c, hp.push hc hroom hwrite href, ?_⟩))
      exact get_push p hc (Nat.lt_succ_of_le hp.size_le)
    next hroom =>
      unfold hasRoom at hroom
      exact .ofThrow (Nat.lt_of_not_le (mt decide_eq_true hroom))

theorem meets_utf8 (text : String) (hp : p.WellFormed) :
    (utf8 text).Finds p fun q i => q.utf8 i = .ok text := by
  unfold utf8
  dsimp only
  by_cases hlong : 65535 < (ModifiedUtf8.encode text).length
  · rw [if_pos hlong]
    exact .bind (.ofThrow hlong)
  · rw [if_neg hlong]
    refine (meets_constant (.utf8 text) hp (by simp) (Nat.le_of_not_lt hlong) rfl).mono ?_
    intro i q ⟨hle, hq, hget⟩
    exact ⟨hle, hq, utf8_eq_ok_iff.mpr hget⟩

theorem meets_classRef (name : String) (hp : p.WellFormed) :
    (classRef name).Finds p fun q i => q.className i = .ok name := by
  refine .bind ((meets_utf8 name hp).mono ?_)
  intro n q ⟨hle, hq, hname⟩
  refine (meets_constant (.classRef n) hq (by simp) trivial (checkUtf8_of_utf8 hname)).mono ?_
  intro i r ⟨hle', hr, hget⟩
  exact ⟨hle.trans hle', hr, className_eq_ok_iff.mpr ⟨n, hget, utf8_mono hle' hname⟩⟩

theorem meets_string (text : String) (hp : p.WellFormed) :
    (string text).Finds p fun q i => ∃ n, q.get i = .ok (.string n) ∧ q.utf8 n = .ok text := by
  refine .bind ((meets_utf8 text hp).mono ?_)
  intro n q ⟨hle, hq, htext⟩
  refine (meets_constant (.string n) hq (by simp) trivial (checkUtf8_of_utf8 htext)).mono ?_
  intro i r ⟨hle', hr, hget⟩
  exact ⟨hle.trans hle', hr, n, hget, utf8_mono hle' htext⟩

theorem meets_integer (value : Int32) (hp : p.WellFormed) :
    (integer value).Finds p fun q i => q.get i = .ok (.integer value) :=
  meets_constant _ hp (by simp) trivial rfl

theorem meets_long (value : Int64) (hp : p.WellFormed) :
    (long value).Finds p fun q i => q.get i = .ok (.long value) :=
  meets_constant _ hp (by simp) trivial rfl

theorem meets_nameAndType (name descriptor : String) (hp : p.WellFormed) :
    (nameAndType name descriptor).Finds p fun q i =>
      q.nameAndType i = .ok (name, descriptor) := by
  refine .bind ((meets_utf8 name hp).mono ?_)
  intro n q ⟨hle, hq, hname⟩
  refine .bind ((meets_utf8 descriptor hq).mono ?_)
  intro d r ⟨hle', hr, hdescriptor⟩
  have hchecked : r.checkConstant (.nameAndType n d) = .ok () :=
    checkBoth.mpr ⟨checkUtf8_of_utf8 (utf8_mono hle' hname), checkUtf8_of_utf8 hdescriptor⟩
  refine (meets_constant (.nameAndType n d) hr (by simp) trivial hchecked).mono ?_
  intro i s ⟨hle'', hs, hget⟩
  refine ⟨(hle.trans hle').trans hle'', hs, nameAndType_eq_ok_iff.mpr ⟨n, d, hget, ?_, ?_⟩⟩
  · exact utf8_mono (hle'.trans hle'') hname
  · exact utf8_mono hle'' hdescriptor

/-- The three kinds of reference to a member go the same way: class, then name and type, then the
constant that `make` builds of both. -/
theorem meets_member (make : UInt16 → UInt16 → Constant) (owner name descriptor : String)
    (hp : p.WellFormed) (hne : ∀ c n, make c n ≠ .unusable) (hwrite : ∀ c n, (make c n).Writable)
    (hcheck : ∀ (q : ConstantPool) c n, q.checkConstant (make c n) = (do
      q.checkTag c (Constant.classRef 0).tag
      q.checkTag n (Constant.nameAndType 0 0).tag)) :
    Interning.Finds (do
        let c ← classRef owner
        let n ← nameAndType name descriptor
        constant (make c n)) p fun q i =>
      ∃ c n, q.get i = .ok (make c n) ∧ q.className c = .ok owner ∧
        q.nameAndType n = .ok (name, descriptor) := by
  refine .bind ((meets_classRef owner hp).mono ?_)
  intro c q ⟨hle, hq, howner⟩
  refine .bind ((meets_nameAndType name descriptor hq).mono ?_)
  intro n r ⟨hle', hr, hnames⟩
  have howner' := className_mono hle' howner
  have hchecked : r.checkConstant (make c n) = .ok () := by
    rw [hcheck]
    exact checkTags_of_names howner' hnames
  refine (meets_constant _ hr (hne c n) (hwrite c n) hchecked).mono ?_
  intro i s ⟨hle'', hs, hget⟩
  exact ⟨(hle.trans hle').trans hle'', hs, c, n, hget, className_mono hle'' howner',
    nameAndType_mono hle'' hnames⟩

theorem meets_fieldRef (owner name descriptor : String) (hp : p.WellFormed) :
    (fieldRef owner name descriptor).Finds p fun q i =>
      (∃ c n, q.get i = .ok (.fieldRef c n)) ∧
        q.memberRef i = .ok ⟨owner, name, descriptor, false⟩ := by
  refine (meets_member .fieldRef owner name descriptor hp (by simp)
    (fun _ _ => trivial) (fun _ _ _ => rfl)).mono ?_
  rintro i q ⟨hle, hq, c, n, hget, howner, hnames⟩
  refine ⟨hle, hq, ⟨c, n, hget⟩, memberRef_eq_ok_iff.mpr ⟨c, n, .inl ⟨.inl hget, ?_⟩⟩⟩
  exact memberOf_eq_ok_iff.mpr ⟨howner, hnames, rfl⟩

def methodConstant (onInterface : Bool) : UInt16 → UInt16 → Constant :=
  if onInterface then .interfaceMethodRef else .methodRef

theorem meets_methodRef (owner name descriptor : String) (onInterface : Bool)
    (hp : p.WellFormed) :
    (methodRef owner name descriptor onInterface).Finds p fun q i =>
      (∃ c n, q.get i = .ok (methodConstant onInterface c n)) ∧
        q.memberRef i = .ok ⟨owner, name, descriptor, onInterface⟩ := by
  cases onInterface
  · refine (meets_member .methodRef owner name descriptor hp (by simp)
      (fun _ _ => trivial) (fun _ _ _ => rfl)).mono ?_
    rintro i q ⟨hle, hq, c, n, hget, howner, hnames⟩
    refine ⟨hle, hq, ⟨c, n, hget⟩, memberRef_eq_ok_iff.mpr ⟨c, n, .inl ⟨.inr hget, ?_⟩⟩⟩
    exact memberOf_eq_ok_iff.mpr ⟨howner, hnames, rfl⟩
  · refine (meets_member .interfaceMethodRef owner name descriptor hp (by simp)
      (fun _ _ => trivial) (fun _ _ _ => rfl)).mono ?_
    rintro i q ⟨hle, hq, c, n, hget, howner, hnames⟩
    refine ⟨hle, hq, ⟨c, n, hget⟩, memberRef_eq_ok_iff.mpr ⟨c, n, .inr ⟨hget, ?_⟩⟩⟩
    exact memberOf_eq_ok_iff.mpr ⟨howner, hnames, rfl⟩

end Interning

end MethodGraft.ClassFile
