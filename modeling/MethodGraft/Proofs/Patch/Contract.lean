import MethodGraft.Patch.Apply
import MethodGraft.Proofs.ClassFile.Methods
import MethodGraft.Proofs.Compilation

/-!
# Proofs.Patch.Contract — what a patch does to a class

A class that is patched keeps everything but the name of one method, and gets one method more, which
takes over the old name.  No index of its constant pool moves.
-/

namespace MethodGraft.Patch

open ClassFile Patching

variable {bytes out : List UInt8} {spec : Spec} {r r' : Run} {c d : ClassFile} {α : Type}

/-! ## 1. The contract -/

/-- What the class `c` becomes by the patch. -/
structure Patched (spec : Spec) (c d : ClassFile) : Prop where
  pool : c.pool.entries.toList <+: d.pool.entries.toList
  versions : d.minorVersion = c.minorVersion ∧ d.majorVersion = c.majorVersion
  flags : d.flags = c.flags
  thisClass : d.thisClass = c.thisClass
  superClass : d.superClass = c.superClass
  interfaces : d.interfaces = c.interfaces
  fields : d.fields = c.fields
  attributes : d.attributes = c.attributes
  /-- The first method with the name and the descriptor is renamed, and the new one stands at the
  end. -/
  methods :
    ∃ index old nameIndex new code, c.FirstDeclared index old spec.methodName
    spec.methodDescriptor ∧ d.methods = c.methods.set index { old with nameIndex } ++ [new] ∧
    d.pool.utf8 nameIndex = .ok (spec.methodName ++ spec.renameSuffix) ∧
    d.Declares new spec.methodName spec.methodDescriptor ∧
    new.attributes = [.code code] ∧ Code.checkConstantOperands code.code d.pool = .ok ()
  once : ∀ name descriptor, d.DeclaredTwice name descriptor → c.DeclaredTwice name descriptor

/-! ## 2. Steps -/

theorem run_ofExcept_eq_ok {x : Except ClassFile.Error α} {a : α}
    (h : (Patching.ofExcept x).run.run r = (.ok a, r')) : x = .ok a ∧ r' = r := by
  obtain ⟨hresult, rfl⟩ := Prod.mk.inj h
  cases x with
  | error e => cases hresult
  | ok b => exact ⟨congrArg Except.ok (Except.ok.inj hresult), rfl⟩

theorem run_edit_eq_ok {x : Edit α} {a : α} (h : (Patching.edit c x).run.run r = (.ok (a, d), r')) :
    x.run.run c = (.ok a, d) := by
  unfold Patching.edit at h
  generalize x.run.run c = out at h ⊢
  obtain ⟨result, file⟩ := out
  obtain ⟨hresult, -⟩ := run_ofExcept_eq_ok h
  cases result with
  | error e => cases hresult
  | ok b =>
    cases hresult
    rfl

theorem run_compile_eq_ok {x : Typed.Compilation α} {a : α}
    (h : (Patching.compile c x).run.run r = (.ok (a, d), r')) :
    ∃ s, x.run.run ⟨c, r.resolver⟩ = (.ok a, s) ∧ s.file = d := by
  have hrun : (Patching.compile c x).run.run r =
      (((x.run.run ⟨c, r.resolver⟩).1.map fun a =>
          (a, (x.run.run ⟨c, r.resolver⟩).2.file)).mapError Error.ofTyped,
        { r with resolver := (x.run.run ⟨c, r.resolver⟩).2.resolver }) := rfl
  obtain ⟨hresult, -⟩ := Prod.mk.inj (hrun.symm.trans h)
  generalize x.run.run ⟨c, r.resolver⟩ = out at hresult ⊢
  obtain ⟨result, s⟩ := out
  cases result with
  | error e => cases hresult
  | ok b =>
    cases hresult
    exact ⟨s, rfl, rfl⟩

/-- The class that is patched, and the method that is renamed. -/
theorem run_findTarget_eq_ok {index : Nat}
    (h : (findTarget bytes spec).run.run r = (.ok (c, index), r')) :
    decode bytes = .ok c ∧ c.findMethod? spec.methodName spec.methodDescriptor = .ok (some index) ∧
      c.findMethod? spec.renamedMethod spec.methodDescriptor = .ok none := by
  unfold findTarget at h
  obtain ⟨file, r₁, hdecode, h⟩ := run_bind_eq_ok.mp h
  obtain ⟨owner, r₂, -, h⟩ := run_bind_eq_ok.mp h
  obtain ⟨-, h⟩ := run_refusing_eq_ok h
  obtain ⟨found, r₃, hfound, h⟩ := run_bind_eq_ok.mp h
  obtain ⟨hdecode, -⟩ := run_ofExcept_eq_ok hdecode
  obtain ⟨hfound, -⟩ := run_ofExcept_eq_ok hfound
  cases found with
  | none => cases h
  | some index' =>
    obtain ⟨other, r₄, hother, h⟩ := run_bind_eq_ok.mp h
    obtain ⟨hnone, h⟩ := run_refusing_eq_ok h
    cases h
    rw [Option.not_isSome_iff_eq_none.mp hnone] at hother
    exact ⟨hdecode, hfound, (run_ofExcept_eq_ok hother).1⟩

/-- A method that passes the checks is the one that is wanted, the class has none like it, and the
constants that its body refers to can be used. -/
theorem run_checkReplacement_eq_ok {m : Member}
    (h : (checkReplacement c m spec).run.run r = (.ok (), r')) :
    c.Declares m spec.methodName spec.methodDescriptor ∧
      c.findMethod? spec.methodName spec.methodDescriptor = .ok none ∧
      ∀ code ∈ m.code?, Code.checkConstantOperands code.code c.pool = .ok () := by
  unfold checkReplacement at h
  obtain ⟨name, r₁, hname, h⟩ := run_bind_eq_ok.mp h
  obtain ⟨descriptor, r₂, hdescriptor, h⟩ := run_bind_eq_ok.mp h
  obtain ⟨hsame, h⟩ := run_refusing_eq_ok h
  obtain ⟨found, r₃, hfound, h⟩ := run_bind_eq_ok.mp h
  obtain ⟨hname, -⟩ := run_ofExcept_eq_ok hname
  obtain ⟨hdescriptor, -⟩ := run_ofExcept_eq_ok hdescriptor
  obtain ⟨hfound, -⟩ := run_ofExcept_eq_ok hfound
  obtain ⟨hnone, h⟩ := run_refusing_eq_ok h
  obtain rfl := Option.not_isSome_iff_eq_none.mp hnone
  obtain ⟨rfl, rfl⟩ : name = spec.methodName ∧ descriptor = spec.methodDescriptor := by
    simpa only [not_or, not_not] using hsame
  refine ⟨⟨hname, hdescriptor⟩, hfound, fun code hcode => ?_⟩
  rw [Option.mem_def] at hcode
  rw [hcode] at h
  obtain ⟨_, r₄, hcheck, -⟩ := run_bind_eq_ok.mp h
  exact (run_ofExcept_eq_ok hcheck).1

/-! ## 3. The whole patch -/

section

variable {index : Nat} {old new : Member} {nameIndex : UInt16} {name renamed descriptor : String}

/-- The methods of a patched class: one of the old ones has another name, and one is new. -/
structure Replaces (c d : ClassFile) (index : Nat) (old new : Member) (nameIndex : UInt16)
    (name renamed descriptor : String) : Prop where
  wellFormed : c.WellFormed
  pool : c.pool ≤ d.pool
  found : c.methods[index]? = some old
  methods : d.methods = c.methods.set index { old with nameIndex } ++ [new]
  fresh : ∀ m ∈ c.methods, ¬c.Declares m renamed descriptor
  renamed : d.Declares { old with nameIndex } renamed descriptor
  replaced : d.Declares new name descriptor
  gone : ∀ m ∈ c.methods.set index { old with nameIndex }, ¬d.Declares m name descriptor

/-- A method of the patched class is one of the old ones, the renamed one or the new one. -/
theorem Replaces.cases (h : Replaces c d index old new nameIndex name renamed descriptor) {k : Nat}
    {m : Member} {n t : String} (hm : d.methods[k]? = some m) (hdeclares : d.Declares m n t) :
    (k ≠ index ∧ k < c.methods.length ∧ c.methods[k]? = some m ∧ c.Declares m n t) ∨
      (k = index ∧ k < c.methods.length ∧ n = renamed ∧ t = descriptor) ∨
      (k = c.methods.length ∧ n = name ∧ t = descriptor) := by
  have hlength : (c.methods.set index { old with nameIndex }).length = c.methods.length :=
    List.length_set
  rw [h.methods] at hm
  by_cases hlt : k < c.methods.length
  · rw [List.getElem?_append_left (hlength ▸ hlt), List.getElem?_set] at hm
    split at hm
    next heq =>
      subst heq
      rw [if_pos hlt] at hm
      cases hm
      exact .inr (.inl ⟨rfl, hlt, hdeclares.unique h.renamed⟩)
    next hne =>
      have hmem := List.mem_of_getElem? hm
      exact .inl ⟨Ne.symm hne, hlt, hm, hdeclares.ofLarger (h.wellFormed.methods m hmem) h.pool⟩
  · rw [List.getElem?_append_right (hlength ▸ Nat.le_of_not_lt hlt), hlength] at hm
    obtain ⟨hk, hm⟩ := List.getElem?_eq_some_iff.mp hm
    rw [List.length_singleton] at hk
    have hnew : new = m := by simpa using hm
    subst hnew
    exact .inr (.inr ⟨by omega, hdeclares.unique h.replaced⟩)

/-- None but the new method has its name and descriptor. -/
theorem Replaces.last (h : Replaces c d index old new nameIndex name renamed descriptor) {k : Nat}
    {m : Member} (hk : k < c.methods.length) (hm : d.methods[k]? = some m) :
    ¬d.Declares m name descriptor := by
  rw [h.methods, List.getElem?_append_left (by rwa [List.length_set])] at hm
  exact h.gone m (List.mem_of_getElem? hm)

/-- No two methods of the patched class have a name and a descriptor that no two methods of the old
one had. -/
theorem Replaces.once (h : Replaces c d index old new nameIndex name renamed descriptor)
    {n t : String} (htwice : d.DeclaredTwice n t) : c.DeclaredTwice n t := by
  obtain ⟨i, j, m, m', hij, hm, hm', hdm, hdm'⟩ := htwice
  obtain ⟨-, hj, hcm', hcdm'⟩ | ⟨hj, hlt, hn, ht⟩ | ⟨rfl, hn, ht⟩ := h.cases hm' hdm'
  · obtain ⟨-, -, hcm, hcdm⟩ | ⟨-, -, rfl, rfl⟩ | ⟨hi, -, -⟩ := h.cases hm hdm
    · exact ⟨i, j, m, m', hij, hcm, hcm', hcdm, hcdm'⟩
    · exact absurd hcdm' (h.fresh m' (List.mem_of_getElem? hcm'))
    · omega
  · obtain ⟨-, -, hcm, hcdm⟩ | ⟨hi, -, -, -⟩ | ⟨hi, -, -⟩ := h.cases hm hdm
    · rw [hn, ht] at hcdm
      exact absurd hcdm (h.fresh m (List.mem_of_getElem? hcm))
    · omega
    · omega
  · rw [hn, ht] at hdm
    exact absurd hdm (h.last hij hm)

end

/-- How a patch that succeeds goes.  A method `old` of the class `c` is renamed; from `s` to `s'` a
method `new` is compiled, which is added to the class. -/
structure Course (bytes out : List UInt8) (spec : Spec) (c : ClassFile) (index : Nat)
    (old new : Member) (nameIndex : UInt16) (s s' : Typed.Session) : Prop where
  read : decode bytes = .ok c
  target : c.FirstDeclared index old spec.methodName spec.methodDescriptor
  renamed :
    s.file = { c with pool := s.file.pool, methods := c.methods.set index { old with nameIndex } }
  wellFormed : s.file.WellFormed
  compile : (Typed.compile spec.imports spec.source).run.run s = (.ok new, s')
  replaces : Replaces c { s'.file with methods := s'.file.methods ++ [new] } index old new nameIndex
    spec.methodName spec.renamedMethod spec.methodDescriptor
  operands : ∀ code ∈ new.code?, Code.checkConstantOperands code.code s'.file.pool = .ok ()
  written : decode out = .ok { s'.file with methods := s'.file.methods ++ [new] }

/-- What is compiled leaves the class as it was renamed. -/
theorem Course.file {index : Nat} {old new : Member} {nameIndex : UInt16} {s s' : Typed.Session}
    (h : Course bytes out spec c index old new nameIndex s s') : s'.file =
      { c with pool := s'.file.pool, methods := c.methods.set index { old with nameIndex } } := by
  have hcompiled := (Typed.compilesTo_of_run h.wellFormed h.compile).file
  rw [h.renamed] at hcompiled
  exact hcompiled

theorem course_of_run (h : (patchClass bytes spec).run.run r = (.ok out, r')) :
    ∃ c index old new nameIndex s s', Course bytes out spec c index old new nameIndex s s' := by
  unfold patchClass at h
  obtain ⟨⟨c, index⟩, r₁, htarget, h₁⟩ := run_bind_eq_ok.mp h
  obtain ⟨_, r₂, -, h₂⟩ := run_bind_eq_ok.mp h₁
  obtain ⟨⟨_, c₁⟩, r₃, hrename, h₃⟩ := run_bind_eq_ok.mp h₂
  obtain ⟨_, r₄, -, h₄⟩ := run_bind_eq_ok.mp h₃
  obtain ⟨⟨new, c₂⟩, r₅, hcompile, h₅⟩ := run_bind_eq_ok.mp h₄
  obtain ⟨_, r₆, hcheck, h₆⟩ := run_bind_eq_ok.mp h₅
  obtain ⟨⟨_, c₃⟩, r₇, hadd, h₇⟩ := run_bind_eq_ok.mp h₆
  obtain ⟨_, r₈, -, h₈⟩ := run_bind_eq_ok.mp h₇
  obtain ⟨hdecode, hindex, hfresh⟩ := run_findTarget_eq_ok htarget
  obtain ⟨s', hsource, rfl⟩ := run_compile_eq_ok hcompile
  obtain ⟨hdeclares, hnone, hoperands⟩ := run_checkReplacement_eq_ok hcheck
  obtain ⟨hencode, -⟩ := run_ofExcept_eq_ok h₈
  have hc := (decode_eq_ok_iff.mp hdecode).1
  obtain ⟨old, hold⟩ := findMethod?_eq_some hindex
  -- renaming
  have hc₁ := Edit.keeps_renameMethod index spec.renamedMethod hc
  rw [Edit.Keeps, run_edit_eq_ok hrename] at hc₁
  obtain ⟨e, q, hrun⟩ | ⟨nameIndex, q, -, hname, hrun⟩ :=
    Edit.renameMethod_cases index spec.renamedMethod c
  · cases hrun.symm.trans (run_edit_eq_ok hrename)
  cases hrun.symm.trans (run_edit_eq_ok hrename)
  have hrenamed : c.methods.modify index (fun m => { m with nameIndex }) =
      c.methods.set index { old with nameIndex } := by
    rw [List.modify_eq_set_getElem?, hold.found]
    rfl
  -- compiling
  have hcompiled := Typed.compilesTo_of_run (s := ⟨_, _⟩) hc₁.2 hsource
  have hmethods : s'.file.methods = c.methods.set index { old with nameIndex } := by
    rw [hcompiled.file]
    exact hrenamed
  -- adding
  obtain ⟨e, hrun⟩ | ⟨-, -, -, -, -, hrun⟩ := Edit.addMethod_cases new s'.file
  · cases hrun.symm.trans (run_edit_eq_ok hadd)
  cases hrun.symm.trans (run_edit_eq_ok hadd)
  obtain ⟨hle, -, hname⟩ := Edit.utf8_of_run hc.pool hname
  have hpool : c.pool ≤ s'.file.pool := hle.trans hcompiled.pool
  have hd : ({ s'.file with methods := s'.file.methods ++ [new] } : ClassFile).WellFormed := by
    refine { hcompiled.wellFormed with methods := fun m hm => ?_ }
    obtain hm | hm := List.mem_append.mp hm
    · exact hcompiled.wellFormed.methods m hm
    · cases List.mem_singleton.mp hm
      exact hcompiled.member
  refine ⟨c, index, old, new, nameIndex, _, s', hdecode, hold, ?_, hc₁.2, hsource, ?_, hoperands,
    decode_eq_ok_iff.mpr ⟨hd, hencode⟩⟩
  · exact congrArg (fun methods => { c.withPool q with methods }) hrenamed
  · exact
      { wellFormed := hc
        pool := hpool
        found := hold.found
        methods := congrArg (· ++ [new]) hmethods
        fresh := findMethod?_eq_none hfresh
        renamed :=
        ⟨ConstantPool.utf8_mono hcompiled.pool hname, ConstantPool.utf8_mono hpool hold.declares.2⟩
        replaced := hdeclares
        gone := hmethods ▸ findMethod?_eq_none hnone }

/-- A patch that succeeds was given a class file and gives another one, and the second is the first
one patched as the spec says. -/
theorem patchClass_patches (h : (patchClass bytes spec).run.run r = (.ok out, r')) :
    ∃ c d, decode bytes = .ok c ∧ decode out = .ok d ∧ Patched spec c d := by
  obtain ⟨c, index, old, new, nameIndex, s, s', hcourse⟩ := course_of_run h
  obtain ⟨code, hcode⟩ := (Typed.compilesTo_of_run hcourse.wellFormed hcourse.compile).body
  have hbody : new.code? = some code := by
    unfold Member.code?
    rw [hcode]
    rfl
  have hreplaces := hcourse.replaces
  have hfile := hcourse.file
  exact ⟨c, _, hcourse.read, hcourse.written,
    { pool := hreplaces.pool
      versions := ⟨(congrArg minorVersion hfile :), (congrArg majorVersion hfile :)⟩
      flags := (congrArg ClassFile.flags hfile :)
      thisClass := (congrArg ClassFile.thisClass hfile :)
      superClass := (congrArg ClassFile.superClass hfile :)
      interfaces := (congrArg ClassFile.interfaces hfile :)
      fields := (congrArg ClassFile.fields hfile :)
      attributes := (congrArg ClassFile.attributes hfile :)
      methods :=
      ⟨index, old, nameIndex, new, code, hcourse.target, hreplaces.methods, hreplaces.renamed.1,
        hreplaces.replaced, hcode, hcourse.operands code hbody⟩
      once := fun _ _ => hreplaces.once }⟩

def abstractBytes : List UInt8 :=
  be32 magic ++ be16 0 ++ be16 52 ++
    (be16 5 ++ [1, 0, 1, 0x41] ++ [7, 0, 1] ++ [1, 0, 1, 0x66] ++ [1, 0, 3, 0x28, 0x29, 0x49]) ++
    be16 0x0421 ++ be16 2 ++ be16 0 ++ be16 0 ++ be16 0 ++
    (be16 1 ++ be16 0x0401 ++ be16 3 ++ be16 4 ++ be16 0) ++ be16 0

def implementSpec : Spec where
  archiveStart := "a"
  className := "A"
  methodName := "f"
  methodDescriptor := "()I"
  renameSuffix := "_old"
  imports := []
  source := "int f() { return 1; }"

theorem patchClass_patches_abstract :
    ∃ out c d, ((patchClass abstractBytes implementSpec).run.run {}).1 = .ok out ∧
      decode abstractBytes = .ok c ∧ decode out = .ok d ∧ Patched implementSpec c d := by
  have h : ((patchClass abstractBytes implementSpec).run.run {}).1.isOk = true := by decide +kernel
  cases hout : (patchClass abstractBytes implementSpec).run.run {} with
  | mk result r =>
    rw [hout] at h
    cases result with
    | error e => cases h
    | ok out =>
      obtain ⟨c, d, hc, hd, hpatched⟩ := patchClass_patches hout
      exact ⟨out, c, d, rfl, hc, hd, hpatched⟩

end MethodGraft.Patch
