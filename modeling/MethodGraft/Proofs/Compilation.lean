import MethodGraft.Proofs.ClassFile.Edits
import MethodGraft.Proofs.Generation
import MethodGraft.Typed.Compile

/-!
# Proofs.Compilation — what compiling does to the class

A source text that compiles gives a method with a body, and all that happens to the class is that
its pool grows.
-/

namespace MethodGraft.Typed

open ClassFile Classpath Code

variable {imports : List String} {source : String} {s s' : Session} {m : Member}

theorem run_edit_eq_ok {α : Type} {x : Edit α} {a : α}
    (h : (Compilation.edit x).run.run s = (.ok a, s')) :
    x.run.run s.file = (.ok a, s'.file) ∧ s'.resolver = s.resolver := by
  have hrun : (Compilation.edit x).run.run s =
      ((x.run.run s.file).1.mapError .classFile, { s with file := (x.run.run s.file).2 }) := rfl
  obtain ⟨hresult, rfl⟩ := Prod.mk.inj (hrun.symm.trans h)
  refine ⟨Prod.ext ?_ rfl, rfl⟩
  generalize (x.run.run s.file).1 = r at hresult ⊢
  cases r with
  | error e => cases hresult
  | ok b => exact congrArg Except.ok (Except.ok.inj hresult)

/-- Steps on names leave the class as it is. -/
theorem run_binding_eq_ok {α : Type} {x : Binding α} {a : α}
    (h : (Compilation.bind x).run.run s = (.ok a, s')) :
    x.run.run s.resolver = (.ok a, s'.resolver) ∧ s'.file = s.file := by
  have hrun : (Compilation.bind x).run.run s =
      ((x.run.run s.resolver).1, { s with resolver := (x.run.run s.resolver).2 }) := rfl
  obtain ⟨hresult, rfl⟩ := Prod.mk.inj (hrun.symm.trans h)
  exact ⟨Prod.ext hresult rfl, rfl⟩

theorem parseSource_of_run {d : Source.MethodDecl}
    (h : (ExceptT.mk (pure ((parseSource source).mapError Error.source)) : Compilation _).run.run
      s = (.ok d, s')) :
    parseSource source = .ok d := by
  have hresult : (parseSource source).mapError Error.source = .ok d := congrArg Prod.fst h
  generalize parseSource source = result at hresult ⊢
  cases result with
  | error e => cases hresult
  | ok d' => exact congrArg Except.ok (Except.ok.inj hresult)

/-- The method is what the source text declares, with its names resolved for the class. -/
def Declared (imports : List String) (source : String) (s : Session) (method : Method)
    (s' : Session) : Prop :=
  ∃ d self r, parseSource source = .ok d ∧ (look (define s.file)).run.run s.resolver =
    (.ok self, r) ∧ (bindMethod imports self d).run.run r = (.ok method, s'.resolver)

/-- The code is that of the method, and the member of the class is the method with this code. -/
structure Generates (s : Session) (method : Method) (code : CodeAttribute) (m : Member)
    (s' : Session) : Prop where
  run : ∃ owner q, (method.code owner s.file.majorVersion).run.run s.file.pool = (.ok code, q) ∧
    q ≤ s'.file.pool
  file : s'.file = s.file.withPool s'.file.pool
  pool_wf : s'.file.pool.WellFormed
  flags : m.flags = method.flags
  name : s'.file.pool.utf8 m.nameIndex = .ok method.name
  descriptor : s'.file.pool.utf8 m.descriptorIndex = .ok method.type.descriptor
  attributes : m.attributes = [.code code]

theorem Declared.wellFormed {method : Method} (h : Declared imports source s method s') :
    method.WellFormed := by
  obtain ⟨_, _, _, -, -, hbind⟩ := h
  exact wellFormed_of_bind hbind

/-- All that happens when a source text compiles. -/
theorem generates_of_run (hfile : s.file.WellFormed)
    (h : (compile imports source).run.run s = (.ok m, s')) :
    ∃ method code, Declared imports source s method s' ∧ Generates s method code m s' := by
  unfold compile at h
  obtain ⟨d, s₁, hd, h⟩ := run_bind_eq_ok.mp h
  obtain rfl : s = s₁ := congrArg Prod.snd hd
  obtain ⟨_, _, hget, h⟩ := run_bind_eq_ok.mp h
  cases hget
  obtain ⟨self, s₂, hself, h⟩ := run_bind_eq_ok.mp h
  obtain ⟨hself, hfile₂⟩ := run_binding_eq_ok hself
  obtain ⟨method, s₃, hbind, h⟩ := run_bind_eq_ok.mp h
  obtain ⟨hbind, hfile₃⟩ := run_binding_eq_ok hbind
  -- from here on the class changes, and only its pool
  obtain ⟨h, hresolver⟩ := run_edit_eq_ok h
  rw [hfile₃, hfile₂] at h
  obtain ⟨owner, c₁, howner, h⟩ := run_bind_eq_ok.mp h
  obtain rfl : s.file = c₁ := congrArg Prod.snd howner
  obtain ⟨code, c₂, hcode, h⟩ := run_bind_eq_ok.mp h
  obtain ⟨nameIndex, c₃, hname, h⟩ := run_bind_eq_ok.mp h
  obtain ⟨descriptorIndex, c₄, hdescriptor, h⟩ := run_bind_eq_ok.mp h
  obtain ⟨hm, rfl⟩ := Prod.mk.inj h
  obtain ⟨hcode, hc₂⟩ := Edit.run_intern_eq_ok hcode
  obtain ⟨hname, hc₃⟩ := Edit.run_intern_eq_ok hname
  obtain ⟨hdescriptor, hc₄⟩ := Edit.run_intern_eq_ok hdescriptor
  obtain ⟨F, hF⟩ := compiled_of_run (wellFormed_of_bind hbind) hfile.pool hcode
  obtain ⟨hle₃, hwf₃, hname⟩ := Edit.utf8_of_run hF.finished.pool_wf hname
  obtain ⟨hle₄, hwf₄, hdescriptor⟩ := Edit.utf8_of_run hwf₃ hdescriptor
  cases hm
  refine ⟨method, code, ⟨d, self, s₂.resolver, parseSource_of_run hd, hself, hresolver ▸ hbind⟩,
    ⟨owner, _, hcode, hle₃.trans hle₄⟩, ?_, hwf₄, rfl, ConstantPool.utf8_mono hle₄ hname,
    hdescriptor, rfl⟩
  rw [hc₄, hc₃, hc₂]
  rfl

/-- The body that the code comes from. -/
theorem Generates.compiled {method : Method} {code : CodeAttribute}
    (h : Generates s method code m s')
    (hmethod : method.WellFormed) (hfile : s.file.WellFormed) : ∃ owner F q,
      Compiled method owner s.file.majorVersion s.file.pool F code q ∧ q ≤ s'.file.pool := by
  obtain ⟨owner, q, hrun, hle⟩ := h.run
  obtain ⟨F, hF⟩ := compiled_of_run hmethod hfile.pool hrun
  exact ⟨owner, F, q, hF, hle⟩

structure CompilesTo (c : ClassFile) (m : Member) (d : ClassFile) : Prop where
  pool : c.pool ≤ d.pool
  file : d = c.withPool d.pool
  wellFormed : d.WellFormed
  member : m.WellFormed d.pool
  body : ∃ code, m.attributes = [.code code]

/-- The body of a compiled method is an attribute of its class. -/
theorem Compiled.attribute {m : Method} {owner : String} {majorVersion : UInt16}
    {p q : ConstantPool} {F : Assembler}
    {code : CodeAttribute} (h : Compiled m owner majorVersion p F code q) :
    (Attribute.code code).WellFormed q := by
  refine .code h.finished.name fun a ha => ?_
  obtain ⟨nameIndex, info, rfl, hname⟩ := h.finished.attributes a ha
  exact .raw hname (by decide)

theorem compilesTo_of_run (hfile : s.file.WellFormed)
    (h : (compile imports source).run.run s = (.ok m, s')) : CompilesTo s.file m s'.file := by
  obtain ⟨method, code, hmethod, hcode⟩ := generates_of_run hfile h
  obtain ⟨owner, F, q, hF, hq⟩ := hcode.compiled hmethod.wellFormed hfile
  have hle : s.file.pool ≤ s'.file.pool :=
    (hF.emits.quiet.builds.extends.pool.trans hF.finished.pool).trans hq
  refine ⟨hle, hcode.file, ?_, ⟨⟨_, hcode.name⟩, ⟨_, hcode.descriptor⟩, fun a ha => ?_⟩, code,
    hcode.attributes⟩
  · rw [hcode.file]
    exact hfile.withPool hle hcode.pool_wf
  · rw [hcode.attributes] at ha
    cases List.mem_singleton.mp ha
    exact hF.attribute.mono hq

end MethodGraft.Typed
