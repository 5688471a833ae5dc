import MethodGraft.Proofs.ClassFile.Codec

/-!
# Proofs.ClassFile.Methods — methods by name and descriptor

Searching a class for a method finds the first one that has the name and the descriptor, and comes
back empty only if none has.
-/

namespace MethodGraft.ClassFile

variable {c d : ClassFile} {name descriptor : String}

def Declares (c : ClassFile) (m : Member) (name descriptor : String) : Prop :=
  c.memberName m = .ok name ∧ c.memberDescriptor m = .ok descriptor

/-- `m` is the first method with this name and this descriptor, and it stands at `index`. -/
structure FirstDeclared (c : ClassFile) (index : Nat) (m : Member) (name descriptor : String) :
    Prop where
  found : c.methods[index]? = some m
  declares : c.Declares m name descriptor
  first : ∀ j m', j < index → c.methods[j]? = some m' → ¬c.Declares m' name descriptor

def DeclaredTwice (c : ClassFile) (name descriptor : String) : Prop :=
  ∃ (i j : Nat) (m m' : Member), i < j ∧ c.methods[i]? = some m ∧ c.methods[j]? = some m' ∧
    c.Declares m name descriptor ∧ c.Declares m' name descriptor

theorem Declares.unique {m : Member} {name' descriptor' : String} (h : c.Declares m name descriptor)
    (h' : c.Declares m name' descriptor') : name = name' ∧ descriptor = descriptor' :=
  ⟨Except.ok.inj (h.1.symm.trans h'.1), Except.ok.inj (h.2.symm.trans h'.2)⟩

/-- What has a name and a descriptor keeps them where the pool has grown. -/
theorem Declares.mono {m : Member} (hle : c.pool ≤ d.pool) (h : c.Declares m name descriptor) :
    d.Declares m name descriptor :=
  ⟨ConstantPool.utf8_mono hle h.1, ConstantPool.utf8_mono hle h.2⟩

/-- A member of a well-formed class has no other name or descriptor after the pool has grown. -/
theorem Declares.ofLarger {m : Member} (hm : m.WellFormed c.pool) (hle : c.pool ≤ d.pool)
    (h : d.Declares m name descriptor) : c.Declares m name descriptor := by
  obtain ⟨name', hname⟩ := hm.name
  obtain ⟨descriptor', hdescriptor⟩ := hm.descriptor
  have hc : c.Declares m name' descriptor' := ⟨hname, hdescriptor⟩
  obtain ⟨rfl, rfl⟩ := h.unique (hc.mono hle)
  exact hc

/-- The first method is taken, or it has another name or another descriptor and the search goes
on. -/
theorem findMethodFrom_cons {index : Nat} {m : Member} {methods : List Member} {found : Option Nat}
    (h : c.findMethodFrom name descriptor index (m :: methods) = .ok found) :
    (c.Declares m name descriptor ∧ found = some index) ∨
      (¬c.Declares m name descriptor ∧ c.findMethodFrom name descriptor (index + 1) methods =
        .ok found) := by
  rw [findMethodFrom] at h
  obtain ⟨name', hname, h⟩ := bind_eq_ok_iff.mp h
  split at h
  next heq =>
    obtain ⟨descriptor', hdescriptor, h⟩ := bind_eq_ok_iff.mp h
    split at h
    next heq' =>
      cases h
      exact .inl ⟨⟨heq ▸ hname, heq' ▸ hdescriptor⟩, rfl⟩
    next hne' => exact .inr ⟨fun hd => hne' (Except.ok.inj (hdescriptor.symm.trans hd.2)), h⟩
  next hne => exact .inr ⟨fun hd => hne (Except.ok.inj (hname.symm.trans hd.1)), h⟩

theorem findMethodFrom_eq_none {index : Nat} {methods : List Member}
    (h : c.findMethodFrom name descriptor index methods = .ok none) :
    ∀ m ∈ methods, ¬c.Declares m name descriptor := by
  induction methods generalizing index with
  | nil => exact nofun
  | cons m methods ih =>
    obtain ⟨-, hfound⟩ | ⟨hnot, hrest⟩ := findMethodFrom_cons h
    · cases hfound
    · exact List.forall_mem_cons.mpr ⟨hnot, ih hrest⟩

theorem findMethod?_eq_none (h : c.findMethod? name descriptor = .ok none) :
    ∀ m ∈ c.methods, ¬c.Declares m name descriptor := findMethodFrom_eq_none h

theorem findMethodFrom_eq_some {index k : Nat} {methods : List Member}
    (h : c.findMethodFrom name descriptor index methods = .ok (some k)) :
    ∃ n m, k = index + n ∧ methods[n]? = some m ∧ c.Declares m name descriptor ∧
      ∀ j m', j < n → methods[j]? = some m' → ¬c.Declares m' name descriptor := by
  induction methods generalizing index with
  | nil => cases h
  | cons m methods ih =>
    obtain ⟨hdeclares, hfound⟩ | ⟨hnot, hrest⟩ := findMethodFrom_cons h
    · exact ⟨0, m, Option.some.inj hfound, rfl, hdeclares, nofun⟩
    · obtain ⟨n, m', rfl, hm', hdeclares, hfirst⟩ := ih hrest
      refine ⟨n + 1, m', by omega, hm', hdeclares, fun j m'' hj hm'' => ?_⟩
      cases j with
      | zero =>
        cases hm''
        exact hnot
      | succ j => exact hfirst j m'' (Nat.lt_of_succ_lt_succ hj) hm''

theorem findMethod?_eq_some {k : Nat} (h : c.findMethod? name descriptor = .ok (some k)) :
    ∃ m, c.FirstDeclared k m name descriptor := by
  obtain ⟨n, m, hk, hm, hdeclares, hfirst⟩ := findMethodFrom_eq_some h
  rw [Nat.zero_add] at hk
  subst hk
  exact ⟨m, hm, hdeclares, hfirst⟩

end MethodGraft.ClassFile
