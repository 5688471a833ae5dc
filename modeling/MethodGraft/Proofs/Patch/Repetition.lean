import MethodGraft.Proofs.Patch.Contract

/-!
# Proofs.Patch.Repetition — a class is patched once

A patched class has the method that was replaced, under its new name, and the one that took its
place.  The same patch then finds its new name taken.  It is refused for that before any class is
looked up, so neither the classpath nor what is known of it matters.
-/

namespace MethodGraft

/-! ## 1. Classes that have a method -/

namespace ClassFile

variable {c d : ClassFile} {name descriptor : String}

def HasMethod (c : ClassFile) (name descriptor : String) : Prop :=
  ∃ m ∈ c.methods, c.Declares m name descriptor

theorem HasMethod.mono (hpool : c.pool ≤ d.pool) (hmethods : ∀ m ∈ c.methods, m ∈ d.methods)
    (h : c.HasMethod name descriptor) : d.HasMethod name descriptor := by
  obtain ⟨m, hm, hdeclares⟩ := h
  exact ⟨m, hmethods m hm, hdeclares.mono hpool⟩

/-- The search fails only on a method without a name or a descriptor. -/
theorem findMethodFrom_ok {methods : List Member} (name descriptor : String)
    (h : ∀ m ∈ methods, m.WellFormed c.pool) (index : Nat) :
    ∃ found, c.findMethodFrom name descriptor index methods = .ok found := by
  induction methods generalizing index with
  | nil => exact ⟨none, rfl⟩
  | cons m methods ih =>
    have hm := h m List.mem_cons_self
    obtain ⟨n, hn⟩ := hm.name
    obtain ⟨t, ht⟩ := hm.descriptor
    rw [findMethodFrom]
    simp only [memberName, memberDescriptor, hn, ht, bind, Except.bind]
    by_cases hname : n = name
    · by_cases hdescriptor : t = descriptor
      · rw [if_pos hname, if_pos hdescriptor]
        exact ⟨some index, rfl⟩
      · rw [if_pos hname, if_neg hdescriptor]
        exact ih (fun m' hm' => h m' (List.mem_cons_of_mem m hm')) (index + 1)
    · rw [if_neg hname]
      exact ih (fun m' hm' => h m' (List.mem_cons_of_mem m hm')) (index + 1)

/-- What a well-formed class has is found. -/
theorem HasMethod.findMethod? (h : c.HasMethod name descriptor) (hc : c.WellFormed) :
    ∃ index, c.findMethod? name descriptor = .ok (some index) := by
  obtain ⟨found, hfound⟩ := findMethodFrom_ok name descriptor hc.methods 0
  cases found with
  | none =>
    obtain ⟨m, hm, hdeclares⟩ := h
    exact absurd hdeclares (findMethod?_eq_none hfound m hm)
  | some index => exact ⟨index, hfound⟩

end ClassFile

namespace Patch

open ClassFile

variable {bytes out : List UInt8} {spec : Spec} {r r' : Run} {c d : ClassFile}

/-! ## 2. What each step leaves -/

structure Renamed (spec : Spec) (c : ClassFile) : Prop where
  wellFormed : c.WellFormed
  name : c.name = .ok spec.className
  renamed : c.HasMethod spec.renamedMethod spec.methodDescriptor

/-- Nothing of this is lost where constants and methods are added. -/
theorem Renamed.mono (h : Renamed spec c) (hd : d.WellFormed) (hpool : c.pool ≤ d.pool)
    (hclass : d.thisClass = c.thisClass) (hmethods : ∀ m ∈ c.methods, m ∈ d.methods) :
    Renamed spec d where
  wellFormed := hd
  name := by
    unfold ClassFile.name
    rw [hclass]
    exact ConstantPool.className_mono hpool h.name
  renamed := h.renamed.mono hpool hmethods

theorem ensures_findTarget (bytes : List UInt8) (spec : Spec) :
    Ensures (findTarget bytes spec) fun found => found.1.WellFormed ∧
    found.1.name = .ok spec.className ∧
      ∃ old, found.1.FirstDeclared found.2 old spec.methodName spec.methodDescriptor := by
  intro r found r' h
  obtain ⟨hdecode, hindex, -⟩ := run_findTarget_eq_ok h
  refine ⟨(decode_eq_ok_iff.mp hdecode).1, ?_, findMethod?_eq_some hindex⟩
  -- the name is compared with that of the spec after the bytes are decoded
  unfold findTarget at h
  obtain ⟨file, r₁, hfile, h⟩ := run_bind_eq_ok.mp h
  obtain ⟨owner, r₂, howner, h⟩ := run_bind_eq_ok.mp h
  obtain ⟨hsame, -⟩ := run_refusing_eq_ok h
  obtain ⟨hfile, -⟩ := run_ofExcept_eq_ok hfile
  obtain ⟨howner, -⟩ := run_ofExcept_eq_ok howner
  cases hfile.symm.trans hdecode
  rw [howner, Decidable.not_not.mp hsame]

theorem ensures_rename {index : Nat} {old : Member} (hc : c.WellFormed)
    (hname : c.name = .ok spec.className)
    (hold : c.FirstDeclared index old spec.methodName spec.methodDescriptor) :
    Ensures (Patching.edit c (Edit.renameMethod index spec.renamedMethod))
    fun edited => Renamed spec edited.2 := by
  rintro r ⟨_, d⟩ r' h
  have hrun := run_edit_eq_ok h
  have hkept := Edit.keeps_renameMethod index spec.renamedMethod hc
  rw [Edit.Keeps, hrun] at hkept
  obtain ⟨hpool, hd⟩ := hkept
  obtain ⟨e, q, hfail⟩ | ⟨nameIndex, q, hindex, hintern, hdone⟩ :=
    Edit.renameMethod_cases index spec.renamedMethod c
  · cases hfail.symm.trans hrun
  · cases hdone.symm.trans hrun
    obtain ⟨-, -, htext⟩ := Edit.utf8_of_run hc.pool hintern
    refine ⟨hd, ConstantPool.className_mono hpool hname, { old with nameIndex }, ?_, htext,
      ConstantPool.utf8_mono hpool hold.declares.2⟩
    apply List.mem_of_getElem? (i := index)
    rw [List.getElem?_modify_eq, hold.found]
    rfl

theorem ensures_compile (h : Renamed spec c) (imports : List String) (source : String) :
    Ensures (Patching.compile c (Typed.compile imports source)) fun compiled =>
      Renamed spec compiled.2 ∧ compiled.1.WellFormed compiled.2.pool := by
  rintro r ⟨m, d⟩ r' hrun
  obtain ⟨s, hcompile, rfl⟩ := run_compile_eq_ok hrun
  have hcompiled := Typed.compilesTo_of_run (s := ⟨c, r.resolver⟩) h.wellFormed hcompile
  refine ⟨h.mono hcompiled.wellFormed hcompiled.pool ?_ fun m' hm' => ?_, hcompiled.member⟩
  · exact (congrArg ClassFile.thisClass hcompiled.file :)
  · rw [hcompiled.file]
    exact hm'

theorem ensures_add {m : Member} (h : Renamed spec c) (hm : m.WellFormed c.pool)
    (hdeclares : c.Declares m spec.methodName spec.methodDescriptor) :
    Ensures (Patching.edit c (Edit.addMethod m)) fun edited =>
      Renamed spec edited.2 ∧ edited.2.HasMethod spec.methodName spec.methodDescriptor := by
  rintro r ⟨_, d⟩ r' hrun
  have hrun := run_edit_eq_ok hrun
  obtain ⟨e, hfail⟩ | ⟨-, -, -, -, -, hdone⟩ := Edit.addMethod_cases m c
  · cases hfail.symm.trans hrun
  · cases hdone.symm.trans hrun
    have hwf : ({ c with methods := c.methods ++ [m] } : ClassFile).WellFormed :=
      { h.wellFormed with
        methods :=
        List.forall_mem_append.mpr ⟨h.wellFormed.methods, List.forall_mem_singleton.mpr hm⟩ }
    exact ⟨h.mono hwf (le_refl c.pool) rfl fun m' hm' => List.mem_append_left [m] hm',
      m, List.mem_append_right c.methods (List.mem_singleton_self m), hdeclares⟩

/-! ## 3. The second patch -/

/-- A patch that succeeds leaves a class with both methods. -/
theorem ensures_patchClass (bytes : List UInt8) (spec : Spec) :
    Ensures (patchClass bytes spec) fun out => ∃ d, decode out = .ok d ∧ Renamed spec d ∧
      d.HasMethod spec.methodName spec.methodDescriptor := by
  unfold patchClass
  refine (ensures_findTarget bytes spec).bind ?_
  rintro ⟨c, index⟩ ⟨hc, hname, old, hold⟩
  refine .after fun _ => ?_
  refine (ensures_rename hc hname hold).bind ?_
  rintro ⟨_, c₁⟩ hrenamed
  refine .after fun _ => ?_
  refine (ensures_compile hrenamed spec.imports spec.source).bind ?_
  rintro ⟨m, c₂⟩ ⟨hrenamed, hm⟩
  have hcheck : Ensures (checkReplacement c₂ m spec) fun _ =>
      c₂.Declares m spec.methodName spec.methodDescriptor :=
    fun _ _ _ hrun => (run_checkReplacement_eq_ok hrun).1
  refine hcheck.bind ?_
  rintro ⟨⟩ hdeclares
  refine (ensures_add hrenamed hm hdeclares).bind ?_
  rintro ⟨_, d⟩ ⟨hrenamed, hmethod⟩
  refine .after fun _ => ?_
  intro r out r' hrun
  exact ⟨d, decode_eq_ok_iff.mpr ⟨hrenamed.wellFormed, (run_ofExcept_eq_ok hrun).1⟩, hrenamed,
    hmethod⟩

/-- An outcome changes nothing. -/
theorem run_ofExcept {α : Type} {x : Except ClassFile.Error α} {a : α} (h : x = .ok a) (r : Run) :
    (Patching.ofExcept x).run.run r = (.ok a, r) := by
  subst h
  rfl

/-- A class with both methods is not the target of a patch. -/
theorem run_findTarget_renamed (hdecode : decode bytes = .ok d) (h : Renamed spec d)
    (hmethod : d.HasMethod spec.methodName spec.methodDescriptor) (r : Run) :
    (findTarget bytes spec).run.run r =
      (.error (.duplicateMethod spec.className spec.renamedMethod spec.methodDescriptor), r) := by
  obtain ⟨index, hindex⟩ := hmethod.findMethod? h.wellFormed
  obtain ⟨other, hother⟩ := h.renamed.findMethod? h.wellFormed
  unfold findTarget
  rw [run_bind, run_ofExcept hdecode]
  dsimp only
  rw [run_bind, run_ofExcept h.name]
  dsimp only
  rw [if_neg (not_not_intro rfl), run_bind, run_ofExcept hindex]
  dsimp only
  rw [run_bind, run_ofExcept hother]
  rfl

/-- A class that was patched is not patched again: the patch is refused for the method that it
renamed, whatever the classpath is and whatever is known of it, and learns nothing. -/
theorem patchClass_refused_again (h : (patchClass bytes spec).run.run r = (.ok out, r')) (s : Run) :
    (patchClass out spec).run.run s =
      (.error (.duplicateMethod spec.className spec.renamedMethod spec.methodDescriptor), s) := by
  obtain ⟨d, hdecode, hrenamed, hmethod⟩ := ensures_patchClass bytes spec r out r' h
  unfold patchClass
  rw [run_bind, run_findTarget_renamed hdecode hrenamed hmethod s]

/-- A run with a classpath that has the class as it was, and which knows that there is no class
`B`. -/
def laterRun : Run := { resolver := ⟨[.classes [("A", abstractBytes)]], [("B", none)], 1⟩ }

theorem patchClass_refused_again_abstract :
    ∃ out, ((patchClass abstractBytes implementSpec).run.run {}).1 = .ok out ∧
      (patchClass out implementSpec).run.run laterRun =
        (.error (.duplicateMethod "A" "f_old" "()I"), laterRun) := by
  have h : ((patchClass abstractBytes implementSpec).run.run {}).1.isOk = true := by decide +kernel
  cases hout : (patchClass abstractBytes implementSpec).run.run {} with
  | mk result r =>
    rw [hout] at h
    cases result with
    | error e => cases h
    | ok out => exact ⟨out, rfl, patchClass_refused_again hout _⟩

end Patch

end MethodGraft
