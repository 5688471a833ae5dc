import MethodGraft.Proofs.Patch.Contract
import MethodGraft.Proofs.Typed.Modifiers

/-!
# Proofs.Patch.CallSites — calls of the method that was replaced

The code of a class that is patched stays as it is, and so do the names in it: who called the old
method now calls the new one.  Such a call links only if it is made statically just where the method
is static.  The new method is static if its source text says so, whatever the old one was.
-/

namespace MethodGraft

/-! ## 1. Calls -/

namespace Code

open ClassFile

variable {p q : ConstantPool} {i : Instruction} {callee : MemberRef}

/-- A method that is invoked keeps its name where the pool has grown. -/
theorem invokedMethod?_mono (hle : p ≤ q) (h : invokedMethod? p i = .ok (some callee)) :
    invokedMethod? q i = .ok (some callee) := by
  unfold invokedMethod? at h ⊢
  split at h
  next hinvoke =>
    rw [if_pos hinvoke]
    cases hindex : i.constantOperand? with
    | none =>
      rw [hindex] at h
      cases h
    | some index =>
      rw [hindex] at h
      dsimp only at h ⊢
      cases hmember : p.memberRef index with
      | error e =>
        rw [hmember] at h
        cases h
      | ok m =>
        rw [hmember] at h
        cases h
        rw [ConstantPool.memberRef_mono hle hmember]
        rfl
  next => cases h

end Code

namespace ClassFile

open Code

variable {c d : ClassFile} {i : Instruction} {name descriptor : String}

/-- In the code of a method of the class, the instruction invokes the method of the class itself
that has this name and this descriptor. -/
def CallSite (c : ClassFile) (i : Instruction) (name descriptor : String) : Prop :=
  ∃ m ∈ c.methods, ∃ code is callee, m.code? = some code ∧ walk code.code = .ok is ∧ i ∈ is ∧
    invokedMethod? c.pool i = .ok (some callee) ∧ c.name = .ok callee.owner ∧ callee.name = name ∧
    callee.descriptor = descriptor

/-- The instruction invokes statically if and only if the method is static. -/
def Suits (i : Instruction) (m : Member) : Prop :=
  i.opcode = Opcode.invokestatic ↔ m.flags.isStatic = true

/-- A call stays where the class is the same, the pool has grown and no code is lost. -/
theorem CallSite.mono (h : c.CallSite i name descriptor) (hpool : c.pool ≤ d.pool)
    (hclass : d.thisClass = c.thisClass)
    (hmethods : ∀ m ∈ c.methods, ∃ m' ∈ d.methods, m'.code? = m.code?) :
    d.CallSite i name descriptor := by
  obtain ⟨m, hm, code, is, callee, hcode, hwalk, hi, hcallee, howner, hname⟩ := h
  obtain ⟨m', hm', hsame⟩ := hmethods m hm
  refine ⟨m', hm', code, is, callee, hsame.trans hcode, hwalk, hi,
    invokedMethod?_mono hpool hcallee, ?_, hname⟩
  unfold ClassFile.name
  rw [hclass]
  exact ConstantPool.className_mono hpool howner

/-- Calls of one method suit another one if and only if both are static or neither is. -/
theorem Suits.iff {m m' : Member} (h : Suits i m) :
    Suits i m' ↔ m.flags.isStatic = m'.flags.isStatic := by
  unfold Suits at h ⊢
  rw [h]
  exact Bool.eq_iff_iff.symm

end ClassFile

/-! ## 2. Patched classes -/

namespace Patch

open ClassFile

variable {bytes out : List UInt8} {spec : Spec} {r r' : Run} {c : ClassFile} {index : Nat}
    {old new : Member}
  {nameIndex : UInt16} {s s' : Typed.Session}

/-- The new method is the one that has the name and the descriptor from now on. -/
theorem Course.answers (h : Course bytes out spec c index old new nameIndex s s') :
    ClassFile.FirstDeclared { s'.file with methods := s'.file.methods ++ [new] } c.methods.length
    new spec.methodName spec.methodDescriptor := by
  have hreplaces := h.replaces
  have hlength : c.methods.length = (c.methods.set index { old with nameIndex }).length :=
    List.length_set.symm
  refine ⟨?_, hreplaces.replaced, fun j m hj hm => hreplaces.last hj hm⟩
  rw [hreplaces.methods, List.getElem?_append_right (Nat.le_of_eq hlength.symm), hlength,
    Nat.sub_self]
  rfl

/-- The code of each method is still there. -/
theorem Course.code? (h : Course bytes out spec c index old new nameIndex s s') :
    ∀ m ∈ c.methods, ∃ m' ∈ s'.file.methods ++ [new], m'.code? = m.code? := by
  intro m hm
  have hmethods : s'.file.methods ++ [new] = c.methods.set index { old with nameIndex } ++ [new] :=
    h.replaces.methods
  rw [hmethods]
  obtain ⟨k, hk⟩ := List.mem_iff_getElem?.mp hm
  by_cases hkindex : k = index
  · subst hkindex
    rw [h.target.found] at hk
    cases hk
    refine ⟨{ old with nameIndex }, List.mem_append_left _ (List.mem_of_getElem? (i := k) ?_), rfl⟩
    have hlt := (List.getElem?_eq_some_iff.mp h.target.found).1
    rw [List.getElem?_set_self hlt]
  · refine ⟨m, List.mem_append_left _ (List.mem_of_getElem? (i := k) ?_), rfl⟩
    rwa [List.getElem?_set_ne (Ne.symm hkindex)]

/-- The new method has the flags of the modifiers in its source text. -/
theorem Course.flags (h : Course bytes out spec c index old new nameIndex s s') :
    ∃ decl, Typed.parseSource spec.source = .ok decl ∧
      new.flags = AccessFlags.withModifiers ⟨0⟩ decl.modifiers := by
  obtain ⟨method, code, ⟨decl, self, r, hparse, -, hbind⟩, hgenerates⟩ :=
    Typed.generates_of_run h.wellFormed h.compile
  exact ⟨decl, hparse, hgenerates.flags.trans
    (Typed.ensures_bindMethod_flags _ _ decl r method _ hbind)⟩

/-- Whatever called the method that a patch replaced calls the new one, which has its name and its
descriptor.  A call that suited the old method suits the new one if and only if the source text says
`static` just where the old method was static. -/
theorem patchClass_callSites (h : (patchClass bytes spec).run.run r = (.ok out, r')) :
    ∃ c d old new decl, decode bytes = .ok c ∧ decode out = .ok d ∧
    Typed.parseSource spec.source = .ok decl ∧
      (∃ k, c.FirstDeclared k old spec.methodName spec.methodDescriptor) ∧
      (∃ k, d.FirstDeclared k new spec.methodName spec.methodDescriptor) ∧
      new.flags.isStatic = decl.modifiers.contains .kwStatic ∧
      ∀ i, c.CallSite i spec.methodName spec.methodDescriptor →
        d.CallSite i spec.methodName spec.methodDescriptor ∧
        (Suits i old → (Suits i new ↔ old.flags.isStatic = decl.modifiers.contains .kwStatic)) := by
  obtain ⟨c, index, old, new, nameIndex, s, s', hcourse⟩ := course_of_run h
  obtain ⟨decl, hdecl, hflags⟩ := hcourse.flags
  have hstatic : new.flags.isStatic = decl.modifiers.contains .kwStatic := by
    rw [hflags, AccessFlags.isStatic_withModifiers]
    rfl
  refine ⟨c, _, old, new, decl, hcourse.read, hcourse.written, hdecl, ⟨index, hcourse.target⟩,
    ⟨_, hcourse.answers⟩, hstatic, fun i hi => ⟨?_, fun hsuits => ?_⟩⟩
  · exact hi.mono hcourse.replaces.pool (congrArg ClassFile.thisClass hcourse.file :) hcourse.code?
  · rw [hsuits.iff, hstatic]

/-- The class `A` with a static method `void foo()` and a method `void bar()` that calls it. -/
def callerBytes : List UInt8 :=
  be32 magic ++ be16 0 ++ be16 52 ++
    (be16 11 ++ [1, 0, 1, 0x41] ++ [7, 0, 1] ++ [1, 0, 3, 0x66, 0x6F, 0x6F] ++
      [1, 0, 3, 0x28, 0x29, 0x56] ++ [12, 0, 3, 0, 4] ++ [10, 0, 2, 0, 5] ++
      [1, 0, 3, 0x62, 0x61, 0x72] ++ [1, 0, 4, 0x43, 0x6F, 0x64, 0x65] ++
      [1, 0, 16, 0x6A, 0x61, 0x76, 0x61, 0x2F, 0x6C, 0x61, 0x6E, 0x67, 0x2F, 0x4F, 0x62, 0x6A, 0x65,
        0x63, 0x74] ++
      [7, 0, 9]) ++
    be16 0x0021 ++ be16 2 ++ be16 10 ++ be16 0 ++ be16 0 ++ be16 2 ++
    (be16 0x0008 ++ be16 3 ++ be16 4 ++ be16 1 ++
      (be16 8 ++ be32 13 ++ be16 0 ++ be16 0 ++ be32 1 ++ [177] ++ be16 0 ++ be16 0)) ++
    (be16 0 ++ be16 7 ++ be16 4 ++ be16 1 ++
      (be16 8 ++ be32 16 ++ be16 0 ++ be16 1 ++ be32 4 ++ [184, 0, 6, 177] ++ be16 0 ++ be16 0)) ++
      be16 0

def fooSpec (source : String) : Spec where
  archiveStart := "a"
  className := "A"
  methodName := "foo"
  methodDescriptor := "()V"
  renameSuffix := "_old"
  imports := []
  source := source

/-- With a static method in place of the static one, every call still links. -/
theorem patchClass_callSites_static : ∃ out c d old new,
    ((patchClass callerBytes (fooSpec "static void foo() \x7b \x7d")).run.run {}).1 = .ok out ∧
      decode callerBytes = .ok c ∧ decode out = .ok d ∧ new.flags.isStatic = true ∧
      ∀ i, c.CallSite i "foo" "()V" → d.CallSite i "foo" "()V" ∧
        (Suits i old → (Suits i new ↔ old.flags.isStatic = true)) := by
  have h : ((patchClass callerBytes (fooSpec "static void foo() \x7b \x7d")).run.run {}).1.isOk =
      true := by
    decide +kernel
  have hparse : (Typed.parseSource "static void foo() \x7b \x7d").toOption.map (·.modifiers) =
      some [.kwStatic] := by
    decide +kernel
  cases hout : (patchClass callerBytes (fooSpec "static void foo() \x7b \x7d")).run.run {} with
  | mk result r =>
    rw [hout] at h
    cases result with
    | error e => cases h
    | ok out =>
      obtain ⟨c, d, old, new, decl, hc, hd, hdecl, -, -, hstatic, hcalls⟩ :=
        patchClass_callSites hout
      have hmodifiers : decl.modifiers = [.kwStatic] := by
        rw [show Typed.parseSource "static void foo() \x7b \x7d" = .ok decl from hdecl] at hparse
        exact Option.some.inj hparse
      rw [hmodifiers] at hstatic hcalls
      exact ⟨out, c, d, old, new, rfl, hc, hd, hstatic, hcalls⟩

/-- With another method in its place the patch succeeds as well, but `bar` still calls `foo`
statically. -/
theorem patchClass_unlinks : ∃ out c d old new i,
    ((patchClass callerBytes (fooSpec "void foo() \x7b \x7d")).run.run {}).1 = .ok out ∧
      decode callerBytes = .ok c ∧ decode out = .ok d ∧ c.FirstDeclared 0 old "foo" "()V" ∧
      d.FirstDeclared 2 new "foo" "()V" ∧ c.CallSite i "foo" "()V" ∧ Suits i old ∧
        ¬Suits i new := by
  have h : ((decode callerBytes).toOption.bind fun c =>
      ((patchClass callerBytes (fooSpec "void foo() \x7b \x7d")).run.run {}).1.toOption.bind
      fun out =>
        (decode out).toOption.map
        fun d => decide ((c.findMethod? "foo" "()V").toOption = some (some 0) ∧
          (d.findMethod? "foo" "()V").toOption = some (some 2) ∧
          c.methods[0]?.map (·.flags.isStatic) = some true ∧
          d.methods[2]?.map (·.flags.isStatic) = some false ∧
          (c.methods[1]?.bind Member.code?).map (·.code) = some [184, 0, 6, 177] ∧
          (Code.invokedMethod? c.pool ⟨0, 184, [0, 6]⟩).toOption =
          some (some ⟨"A", "foo", "()V", false⟩) ∧
          c.name.toOption = some "A")) = some true := by decide +kernel
  have hwalk : (Code.walk [184, 0, 6, 177]).toOption = some [⟨0, 184, [0, 6]⟩, ⟨3, 177, []⟩] := by
    decide +kernel
  obtain ⟨c, hc, h⟩ := Option.bind_eq_some_iff.mp h
  obtain ⟨out, hout, h⟩ := Option.bind_eq_some_iff.mp h
  obtain ⟨d, hd, h⟩ := Option.map_eq_some_iff.mp h
  obtain ⟨hcfound, hdfound, hold, hnew, hbody, hcallee, howner⟩ := of_decide_eq_true h
  obtain ⟨old, hcfirst⟩ := findMethod?_eq_some (toOption_eq_some hcfound)
  obtain ⟨new, hdfirst⟩ := findMethod?_eq_some (toOption_eq_some hdfound)
  rw [hcfirst.found] at hold
  rw [hdfirst.found] at hnew
  obtain ⟨code, hcode, hbytes⟩ := Option.map_eq_some_iff.mp hbody
  obtain ⟨bar, hbar, hcode⟩ := Option.bind_eq_some_iff.mp hcode
  have hstatic : new.flags.isStatic = false := Option.some.inj hnew
  refine ⟨out, c, d, old, new, ⟨0, 184, [0, 6]⟩, toOption_eq_some hout, toOption_eq_some hc,
    toOption_eq_some hd, hcfirst, hdfirst, ?_, iff_of_true rfl (Option.some.inj hold),
    fun hsuits => ?_⟩
  · exact ⟨bar, List.mem_of_getElem? hbar, code, _, _, hcode, hbytes ▸ toOption_eq_some hwalk,
      List.mem_cons_self, toOption_eq_some hcallee, toOption_eq_some howner, rfl, rfl⟩
  · rw [hsuits.mp rfl] at hstatic
    cases hstatic

end Patch

end MethodGraft
