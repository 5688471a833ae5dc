import MethodGraft.ClassFile.ConstantPool
import Mathlib.Order.Basic

/-!
# Proofs.Pool.Growth — constants keep their indices

Pools are ordered by "begins with the same entries".  Whatever an index means in a pool, it means in
every larger one.
-/

namespace MethodGraft.ClassFile.ConstantPool

instance : Preorder ConstantPool where
  le p q := p.entries.toList <+: q.entries.toList
  le_refl p := List.prefix_refl p.entries.toList
  le_trans _ _ _ := List.IsPrefix.trans

variable {p q : ConstantPool} {i : UInt16}

theorem le_def : p ≤ q ↔ p.entries.toList <+: q.entries.toList := Iff.rfl

theorem le_push (p : ConstantPool) (c : Constant) : p ≤ p.push c := by
  rw [le_def]
  unfold push
  split <;> simp

/-! ## 1. Look-ups survive growth -/

theorem get_eq_ok_iff {c : Constant} :
    p.get i = .ok c ↔ p.entries[i.toNat]? = some c ∧ c ≠ .unusable := by
  unfold get
  split
  next h => simp [fail, h]
  next h => simpa [fail, h] using fun e => e.symm
  next c' hc h =>
    rw [h]
    constructor
    · intro e
      cases e
      exact ⟨rfl, hc⟩
    · rintro ⟨e, -⟩
      cases e
      rfl

theorem get_mono (hle : p ≤ q) {c : Constant} (h : p.get i = .ok c) : q.get i = .ok c := by
  rw [get_eq_ok_iff] at h ⊢
  refine ⟨?_, h.2⟩
  obtain ⟨more, hmore⟩ := hle
  rw [← Array.getElem?_toList] at h ⊢
  rw [← hmore, List.getElem?_append_left (List.getElem?_eq_some_iff.mp h.1).1]
  exact h.1

theorem utf8_eq_ok_iff {text : String} : p.utf8 i = .ok text ↔ p.get i = .ok (.utf8 text) := by
  unfold utf8
  cases h : p.get i with
  | error e => simp [bind, Except.bind]
  | ok c => cases c <;> simp [bind, Except.bind, fail, pure, Except.pure]

theorem className_eq_ok_iff {name : String} :
    p.className i = .ok name ↔ ∃ n, p.get i = .ok (.classRef n) ∧ p.utf8 n = .ok name := by
  unfold className
  cases h : p.get i with
  | error e => simp [bind, Except.bind]
  | ok c => cases c <;> simp [bind, Except.bind, fail]

theorem nameAndType_eq_ok_iff {names : String × String} :
    p.nameAndType i = .ok names ↔
      ∃ n d, p.get i = .ok (.nameAndType n d) ∧ p.utf8 n = .ok names.1 ∧
        p.utf8 d = .ok names.2 := by
  obtain ⟨name, descriptor⟩ := names
  unfold nameAndType
  cases h : p.get i with
  | error e => simp [bind, Except.bind]
  | ok c =>
    cases c
    case nameAndType n d =>
      simp only [bind, Except.bind, pure, Except.pure]
      cases hn : p.utf8 n <;> cases hd : p.utf8 d <;> grind
    all_goals simp [bind, Except.bind, fail]

theorem utf8_mono (hle : p ≤ q) {text : String} (h : p.utf8 i = .ok text) :
    q.utf8 i = .ok text := by
  rw [utf8_eq_ok_iff] at h ⊢
  exact get_mono hle h

theorem className_mono (hle : p ≤ q) {name : String} (h : p.className i = .ok name) :
    q.className i = .ok name := by
  rw [className_eq_ok_iff] at h ⊢
  obtain ⟨n, hget, hname⟩ := h
  exact ⟨n, get_mono hle hget, utf8_mono hle hname⟩

theorem nameAndType_mono (hle : p ≤ q) {names : String × String}
    (h : p.nameAndType i = .ok names) : q.nameAndType i = .ok names := by
  rw [nameAndType_eq_ok_iff] at h ⊢
  obtain ⟨n, d, hget, hname, hdescriptor⟩ := h
  exact ⟨n, d, get_mono hle hget, utf8_mono hle hname, utf8_mono hle hdescriptor⟩

theorem memberOf_eq_ok_iff {c n : UInt16} {onInterface : Bool} {m : MemberRef} :
    p.memberOf c n onInterface = .ok m ↔
      p.className c = .ok m.owner ∧ p.nameAndType n = .ok (m.name, m.descriptor) ∧
        m.onInterface = onInterface := by
  obtain ⟨owner, name, descriptor, f⟩ := m
  unfold memberOf
  cases hn : p.nameAndType n with
  | error e => simp [bind, Except.bind]
  | ok names =>
    obtain ⟨name', descriptor'⟩ := names
    cases hc : p.className c with
    | error e => simp [bind, Except.bind]
    | ok owner' =>
      simp only [bind, Except.bind, pure, Except.pure, Except.ok.injEq, MemberRef.mk.injEq,
        Prod.mk.injEq]
      constructor
      · rintro ⟨h1, h2, h3, h4⟩
        exact ⟨h1, ⟨h2, h3⟩, h4.symm⟩
      · rintro ⟨h1, ⟨h2, h3⟩, h4⟩
        exact ⟨h1, h2, h3, h4.symm⟩

theorem memberOf_mono (hle : p ≤ q) {c n : UInt16} {onInterface : Bool} {m : MemberRef}
    (h : p.memberOf c n onInterface = .ok m) : q.memberOf c n onInterface = .ok m := by
  rw [memberOf_eq_ok_iff] at h ⊢
  exact ⟨className_mono hle h.1, nameAndType_mono hle h.2.1, h.2.2⟩

/-- A member reference is a constant of one of three kinds whose two indices lead to its names. -/
theorem memberRef_eq_ok_iff {m : MemberRef} :
    p.memberRef i = .ok m ↔ ∃ c n,
      ((p.get i = .ok (.fieldRef c n) ∨ p.get i = .ok (.methodRef c n)) ∧
        p.memberOf c n false = .ok m) ∨
      (p.get i = .ok (.interfaceMethodRef c n) ∧ p.memberOf c n true = .ok m) := by
  unfold memberRef
  cases h : p.get i with
  | error e => simp [bind, Except.bind]
  | ok c => cases c <;> simp only [bind, Except.bind, fail] <;> grind

theorem memberRef_mono (hle : p ≤ q) {m : MemberRef} (h : p.memberRef i = .ok m) :
    q.memberRef i = .ok m := by
  rw [memberRef_eq_ok_iff] at h ⊢
  obtain ⟨c, n, ⟨hget | hget, hof⟩ | ⟨hget, hof⟩⟩ := h
  · exact ⟨c, n, .inl ⟨.inl (get_mono hle hget), memberOf_mono hle hof⟩⟩
  · exact ⟨c, n, .inl ⟨.inr (get_mono hle hget), memberOf_mono hle hof⟩⟩
  · exact ⟨c, n, .inr ⟨get_mono hle hget, memberOf_mono hle hof⟩⟩

/-! ## 2. So do the checks of what constants refer to -/

theorem checkUtf8_mono (hle : p ≤ q) (h : p.checkUtf8 i = .ok ()) : q.checkUtf8 i = .ok () := by
  unfold checkUtf8 at h ⊢
  cases hget : p.get i with
  | error e => simp [hget, bind, Except.bind] at h
  | ok c => simpa [hget, get_mono hle hget, bind, Except.bind] using h

theorem checkTag_mono (hle : p ≤ q) {tag : UInt8} (h : p.checkTag i tag = .ok ()) :
    q.checkTag i tag = .ok () := by
  unfold checkTag at h ⊢
  cases hget : p.get i with
  | error e => simp [hget, bind, Except.bind] at h
  | ok c => simpa [hget, get_mono hle hget, bind, Except.bind] using h

theorem checkBoth {x y : Except Error Unit} :
    (do x; y) = .ok () ↔ x = .ok () ∧ y = .ok () := by
  cases x <;> simp [bind, Except.bind]

theorem checkConstant_mono (hle : p ≤ q) {c : Constant} (h : p.checkConstant c = .ok ()) :
    q.checkConstant c = .ok () := by
  cases c <;> simp only [checkConstant, checkBoth] at h ⊢
  case methodHandle kind j =>
    cases hget : p.get j with
    | error e => simp [hget, Except.map] at h
    | ok c => simp [get_mono hle hget, Except.map]
  all_goals
    first
    | exact checkUtf8_mono hle h
    | exact checkTag_mono hle h
    | exact ⟨checkUtf8_mono hle h.1, checkUtf8_mono hle h.2⟩
    | exact ⟨checkTag_mono hle h.1, checkTag_mono hle h.2⟩

theorem checkFrom_eq_ok_iff {index : Nat} {cs : List Constant} :
    p.checkFrom index cs = .ok () ↔ ∀ c ∈ cs, p.checkConstant c = .ok () := by
  induction cs generalizing index with
  | nil => simp [checkFrom]
  | cons c cs ih =>
    have hwithin : within (.constant index) (p.checkConstant c) = .ok () ↔
        p.checkConstant c = .ok () := by
      unfold within Except.mapError
      cases p.checkConstant c <;> simp
    simp only [checkFrom, checkBoth, hwithin, ih, List.forall_mem_cons]

theorem checkReferences_eq_ok_iff :
    p.checkReferences = .ok () ↔ ∀ c ∈ p.entries.toList, p.checkConstant c = .ok () :=
  checkFrom_eq_ok_iff

end MethodGraft.ClassFile.ConstantPool
