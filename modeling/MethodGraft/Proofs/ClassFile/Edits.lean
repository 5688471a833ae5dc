import MethodGraft.ClassFile.Edit
import MethodGraft.Classpath.Summary
import MethodGraft.Proofs.Assembly.Requests
import MethodGraft.Proofs.ClassFile.Codec

/-!
# Proofs.ClassFile.Edits — classes through whole runs of edits

Every class that was made or decoded and then edited, in whatever order and with whatever failures
on the way, is well formed.  So all its names can be looked up, and what it encodes to is decoded to
the same class.
-/

namespace MethodGraft.ClassFile

open Code Interning

variable {p q : ConstantPool} {c : ClassFile}

/-! ## 1. Larger pools -/

theorem Attribute.WellFormed.mono {a : Attribute} (hle : p ≤ q) (h : a.WellFormed p) :
    a.WellFormed q := by
  induction h with
  | raw hname hother => exact .raw (ConstantPool.utf8_mono hle hname) hother
  | code hname _ ih => exact .code (ConstantPool.utf8_mono hle hname) ih

theorem Member.WellFormed.mono {m : Member} (hle : p ≤ q) (h : m.WellFormed p) :
    m.WellFormed q where
  name := h.name.imp fun _ => ConstantPool.utf8_mono hle
  descriptor := h.descriptor.imp fun _ => ConstantPool.utf8_mono hle
  attributes a ha := (h.attributes a ha).mono hle

def withPool (c : ClassFile) (pool : ConstantPool) : ClassFile := { c with pool }

theorem WellFormed.withPool (h : c.WellFormed) (hle : c.pool ≤ q) (hq : q.WellFormed) :
    (c.withPool q).WellFormed where
  pool := hq
  thisClass := h.thisClass.imp fun _ => ConstantPool.className_mono hle
  superClass hne := (h.superClass hne).imp fun _ => ConstantPool.className_mono hle
  interfaces i hi := (h.interfaces i hi).imp fun _ => ConstantPool.className_mono hle
  fields m hm := (h.fields m hm).mono hle
  methods m hm := (h.methods m hm).mono hle
  attributes a ha := (h.attributes a ha).mono hle

/-! ## 2. Single edits -/

namespace Edit

open ConstantPool

theorem run_intern {α : Type} (x : Interning α) (c : ClassFile) :
    (intern x).run.run c = ((x.run.run c.pool).1, c.withPool (x.run.run c.pool).2) := rfl

theorem run_intern_eq_ok {α : Type} {x : Interning α} {a : α} {c c' : ClassFile}
    (h : (intern x).run.run c = (.ok a, c')) :
    x.run.run c.pool = (.ok a, c'.pool) ∧ c' = c.withPool c'.pool := by
  obtain ⟨hresult, rfl⟩ := Prod.mk.inj ((run_intern x c).symm.trans h)
  exact ⟨Prod.ext hresult rfl, rfl⟩

/-- Renaming fails and changes at most the pool, or it gives the method the index of the new
name. -/
theorem renameMethod_cases (index : Nat) (newName : String) (c : ClassFile) :
    (∃ e q, (renameMethod index newName).run.run c = (.error e, c.withPool q)) ∨
    ∃ nameIndex q, index < c.methods.length ∧
    (Interning.utf8 newName).run.run c.pool = (.ok nameIndex, q) ∧
      (renameMethod index newName).run.run c = (.ok (), { c.withPool q with
        methods := c.methods.modify index fun m => { m with nameIndex } }) := by
  unfold renameMethod
  rw [run_get_bind]
  split
  next => exact .inl ⟨_, c.pool, rfl⟩
  next hindex =>
    rw [run_bind, run_intern]
    generalize hrun : (Interning.utf8 newName).run.run c.pool = out
    obtain ⟨r, q⟩ := out
    cases r with
    | error e => exact .inl ⟨e, q, rfl⟩
    | ok nameIndex => exact .inr ⟨nameIndex, q, Nat.lt_of_not_le hindex, rfl, rfl⟩

/-- Adding a field fails and changes at most the pool, or the field stands at the end. -/
theorem addField_cases (flags : AccessFlags) (name descriptor : String) (c : ClassFile) :
    (∃ e q, (addField flags name descriptor).run.run c = (.error e, c.withPool q)) ∨
    ∃ nameIndex p descriptorIndex q, (Interning.utf8 name).run.run c.pool = (.ok nameIndex, p) ∧
      (Interning.utf8 descriptor).run.run p = (.ok descriptorIndex, q) ∧
      (addField flags name descriptor).run.run c = (.ok c.fields.length, { c.withPool q with
        fields := c.fields ++ [⟨flags, nameIndex, descriptorIndex, []⟩] }) := by
  unfold addField
  rw [run_bind, run_intern]
  generalize hname : (Interning.utf8 name).run.run c.pool = out
  obtain ⟨r, p⟩ := out
  cases r with
  | error e => exact .inl ⟨e, p, rfl⟩
  | ok nameIndex =>
    dsimp only
    rw [run_bind, run_intern]
    generalize hdescriptor : (Interning.utf8 descriptor).run.run (c.withPool p).pool = out
    obtain ⟨r, q⟩ := out
    cases r with
    | error e => exact .inl ⟨e, q, rfl⟩
    | ok descriptorIndex =>
      refine .inr ⟨nameIndex, p, descriptorIndex, q, rfl, hdescriptor, ?_⟩
      show (Except.ok ((c.fields ++ [_]).length - 1), _) = _
      rw [List.length_append, List.length_singleton, Nat.add_sub_cancel]
      rfl

/-- Adding a method fails and changes nothing, or there was none with its name and descriptor and it
stands at the end. -/
theorem addMethod_cases (m : Member) (c : ClassFile) :
    (∃ e, (addMethod m).run.run c = (.error e, c)) ∨
    ∃ name descriptor, c.pool.utf8 m.nameIndex = .ok name ∧
    c.pool.utf8 m.descriptorIndex = .ok descriptor ∧ c.findMethod? name descriptor = .ok none ∧
      (addMethod m).run.run c = (.ok c.methods.length, { c with methods := c.methods ++ [m] }) := by
  -- all that comes before the method is appended only asks, so that a failure leaves the class file
  -- as it was
  have hask {α : Type} (f : ClassFile → Except Error α) : (ask f).run.run c = (f c, c) := rfl
  unfold addMethod
  rw [run_bind, hask]
  cases hname : c.memberName m with
  | error e => exact .inl ⟨e, rfl⟩
  | ok name =>
    dsimp only
    rw [run_bind, hask]
    cases hdescriptor : c.memberDescriptor m with
    | error e => exact .inl ⟨e, rfl⟩
    | ok descriptor =>
      dsimp only
      rw [run_bind, hask]
      cases MethodDescriptor.ofDescriptor descriptor with
      | error e => exact .inl ⟨e, rfl⟩
      | ok parsed =>
        dsimp only
        rw [run_bind, hask]
        cases hfind : c.findMethod? name descriptor with
        | error e => exact .inl ⟨e, rfl⟩
        | ok found =>
          cases found with
          | some k => exact .inl ⟨_, rfl⟩
          | none =>
            refine .inr ⟨name, descriptor, hname, hdescriptor, hfind, ?_⟩
            show (Except.ok ((c.methods ++ [m]).length - 1), _) = _
            rw [List.length_append, List.length_singleton, Nat.add_sub_cancel]

/-- Adding a method with a body fails and changes at most the pool, or there was no such method and
it stands at the end. -/
theorem addMethodWithCode_cases (flags : AccessFlags) (name descriptor : String)
    (code : Option CodeAttribute) (c : ClassFile) :
    (∃ e q, (addMethodWithCode flags name descriptor code).run.run c = (.error e, c.withPool q)) ∨
    ∃ nameIndex p descriptorIndex q, (Interning.utf8 name).run.run c.pool = (.ok nameIndex, p) ∧
      (Interning.utf8 descriptor).run.run p = (.ok descriptorIndex, q) ∧
      (∃ name descriptor, q.utf8 nameIndex = .ok name ∧ q.utf8 descriptorIndex = .ok descriptor ∧
        (c.withPool q).findMethod? name descriptor = .ok none) ∧
      (addMethodWithCode flags name descriptor code).run.run c =
        (.ok c.methods.length, { c.withPool q with
          methods :=
            c.methods ++ [⟨flags, nameIndex, descriptorIndex, code.toList.map .code⟩] }) := by
  unfold addMethodWithCode
  rw [run_bind, run_intern]
  generalize hname : (Interning.utf8 name).run.run c.pool = out
  obtain ⟨r, p⟩ := out
  cases r with
  | error e => exact .inl ⟨e, p, rfl⟩
  | ok nameIndex =>
    dsimp only
    rw [run_bind, run_intern]
    generalize hdescriptor : (Interning.utf8 descriptor).run.run (c.withPool p).pool = out
    obtain ⟨r, q⟩ := out
    cases r with
    | error e => exact .inl ⟨e, q, rfl⟩
    | ok descriptorIndex =>
      obtain ⟨e, hrun⟩ | ⟨name', descriptor', hname', hdescriptor', hfind, hrun⟩ :=
        addMethod_cases ⟨flags, nameIndex, descriptorIndex, code.toList.map .code⟩ (c.withPool q)
      · exact .inl ⟨e, q, hrun⟩
      · exact .inr ⟨nameIndex, p, descriptorIndex, q, rfl, hdescriptor,
          ⟨name', descriptor', hname', hdescriptor', hfind⟩, hrun⟩

/-! ## 3. Edited classes -/

theorem asks_intern {α : Type} {x : Interning α} (h : Asks id x) : Asks ClassFile.pool (intern x) :=
  fun c => h c.pool

theorem asks_ask {α : Type} (f : ClassFile → Except Error α) : Asks ClassFile.pool (ask f) :=
  .ofSame fun _ => rfl

theorem asks_renameMethod (index : Nat) (newName : String) :
    Asks ClassFile.pool (renameMethod index newName) := by
  refine .bind .ofGet fun _ => .refusing ?_
  exact (asks_intern (asks_utf8 newName)).bind fun _ => .ofModify fun _ => rfl

theorem asks_addField (flags : AccessFlags) (name descriptor : String) :
    Asks ClassFile.pool (addField flags name descriptor) :=
  (asks_intern (asks_utf8 name)).bind fun _ => (asks_intern (asks_utf8 descriptor)).bind fun _ =>
    .bind (.ofModify fun _ => rfl) fun _ => .bind .ofGet fun _ => .ofPure _

theorem asks_addMethod (m : Member) : Asks ClassFile.pool (addMethod m) := by
  refine (asks_ask _).bind fun _ => (asks_ask _).bind fun _ => (asks_ask _).bind fun _ => ?_
  refine (asks_ask _).bind fun _ => .refusing ?_
  exact .bind (.ofModify fun _ => rfl) fun _ => .bind .ofGet fun _ => .ofPure _

theorem asks_addMethodWithCode (flags : AccessFlags) (name descriptor : String)
    (code : Option CodeAttribute) :
    Asks ClassFile.pool (addMethodWithCode flags name descriptor code) :=
  (asks_intern (asks_utf8 name)).bind fun _ =>
    (asks_intern (asks_utf8 descriptor)).bind fun _ => asks_addMethod _

/-- After the edit the class is well formed, with all the constants that it had, also if the edit
fails. -/
def Keeps {α : Type} (x : Edit α) (c : ClassFile) : Prop :=
  c.pool ≤ (x.run.run c).2.pool ∧ (x.run.run c).2.WellFormed

/-- What an edit leaves is well formed if it is so wherever the edit changes more than the pool. -/
theorem Keeps.ofAsks {α : Type} {x : Edit α} (hasks : Asks ClassFile.pool x) (hc : c.WellFormed)
    (h : (∃ e q, x.run.run c = (.error e, c.withPool q)) ∨
      (c.pool ≤ (x.run.run c).2.pool → (x.run.run c).2.pool.WellFormed →
        (x.run.run c).2.WellFormed)) :
    Keeps x c := by
  have hle := hasks.le c
  have hwf := hasks.wellFormed hc.pool
  refine ⟨hle, ?_⟩
  obtain ⟨e, q, hrun⟩ | h := h
  · rw [hrun] at hle hwf ⊢
    exact hc.withPool hle hwf
  · exact h hle hwf

/-- The index of a new text. -/
theorem utf8_of_run {text : String} {i : UInt16} (hp : p.WellFormed)
    (hrun : (Interning.utf8 text).run.run p = (.ok i, q)) :
    p ≤ q ∧ q.WellFormed ∧ q.utf8 i = .ok text :=
  (meets_utf8 text hp).of_ok hrun

theorem keeps_renameMethod (index : Nat) (newName : String) (hc : c.WellFormed) :
    Keeps (renameMethod index newName) c := by
  refine .ofAsks (asks_renameMethod index newName) hc ?_
  obtain h | ⟨nameIndex, q, -, hname, hrun⟩ := renameMethod_cases index newName c
  · exact .inl h
  obtain ⟨hle, hq, htext⟩ := utf8_of_run hc.pool hname
  rw [hrun]
  have hpool := hc.withPool hle hq
  refine .inr fun _ _ => { hpool with methods := fun m hm => ?_ }
  obtain ⟨k, hk, rfl⟩ := List.mem_iff_getElem.mp hm
  rw [List.length_modify] at hk
  have hold := hpool.methods c.methods[k] (List.getElem_mem hk)
  rw [List.getElem_modify]
  split
  · exact ⟨⟨newName, htext⟩, hold.descriptor, hold.attributes⟩
  · exact hold

theorem keeps_addField (flags : AccessFlags) (name descriptor : String) (hc : c.WellFormed) :
    Keeps (addField flags name descriptor) c := by
  refine .ofAsks (asks_addField flags name descriptor) hc ?_
  obtain h | ⟨nameIndex, p, descriptorIndex, q, hname, hdescriptor, hrun⟩ :=
    addField_cases flags name descriptor c
  · exact .inl h
  obtain ⟨hle, hp, hname⟩ := utf8_of_run hc.pool hname
  obtain ⟨hle', hq, hdescriptor⟩ := utf8_of_run hp hdescriptor
  rw [hrun]
  have hpool := hc.withPool (hle.trans hle') hq
  refine .inr fun _ _ => { hpool with fields := fun m hm => ?_ }
  obtain hm | hm := List.mem_append.mp hm
  · exact hpool.fields m hm
  · cases List.mem_singleton.mp hm
    exact ⟨⟨name, ConstantPool.utf8_mono hle' hname⟩, ⟨descriptor, hdescriptor⟩, nofun⟩

theorem keeps_addMethodWithCode (flags : AccessFlags) (name descriptor : String)
    {code : Option CodeAttribute} (hc : c.WellFormed)
    (hcode : ∀ b ∈ code, (Attribute.code b).WellFormed c.pool) :
    Keeps (addMethodWithCode flags name descriptor code) c := by
  refine .ofAsks (asks_addMethodWithCode flags name descriptor code) hc ?_
  obtain h | ⟨nameIndex, p, descriptorIndex, q, hname, hdescriptor, -, hrun⟩ :=
    addMethodWithCode_cases flags name descriptor code c
  · exact .inl h
  obtain ⟨hle, hp, hname⟩ := utf8_of_run hc.pool hname
  obtain ⟨hle', hq, hdescriptor⟩ := utf8_of_run hp hdescriptor
  rw [hrun]
  have hpool := hc.withPool (hle.trans hle') hq
  refine .inr fun _ _ => { hpool with methods := fun m hm => ?_ }
  obtain hm | hm := List.mem_append.mp hm
  · exact hpool.methods m hm
  · cases List.mem_singleton.mp hm
    refine ⟨⟨name, ConstantPool.utf8_mono hle' hname⟩, ⟨descriptor, hdescriptor⟩, fun a ha => ?_⟩
    obtain ⟨b, hb, rfl⟩ := List.mem_map.mp ha
    exact (hcode b (Option.mem_toList.mp hb)).mono (hle.trans hle')

end Edit

/-! ## 4. Completed bodies -/

theorem run_ofExcept_eq_ok {α : Type} {r : Except Error α} {a : α}
    (h : (Interning.ofExcept r).run.run p = (.ok a, q)) : r = .ok a ∧ p = q := Prod.mk.inj h

theorem wellFormed_stackMap {frames : List (Nat × Code.Frame)} {attributes : List Attribute}
    (hp : p.WellFormed) (hrun : (stackMap frames).run.run p = (.ok attributes, q)) :
    ∀ a ∈ attributes, a.WellFormed q := by
  unfold stackMap at hrun
  split at hrun
  · cases hrun
    exact nofun
  · obtain ⟨count, p₁, hcount, h₁⟩ := run_bind_eq_ok.mp hrun
    obtain ⟨bytes, p₂, hbytes, h₂⟩ := run_bind_eq_ok.mp h₁
    obtain ⟨nameIndex, p₃, hname, h₃⟩ := run_bind_eq_ok.mp h₂
    obtain ⟨-, rfl⟩ := run_ofExcept_eq_ok hcount
    cases h₃
    have hp₂ := (asks_encodeFrames none frames).wellFormed hp
    rw [hbytes] at hp₂
    obtain ⟨-, -, hname⟩ := Edit.utf8_of_run hp₂ hname
    intro a ha
    cases List.mem_singleton.mp ha
    exact .raw hname (by decide)

/-- A body is completed where all of its parts are. -/
theorem layout_eq_ok {a : Assembler} {majorVersion : UInt16} {code : CodeAttribute}
    (hrun : (a.layout majorVersion).run.run p = (.ok code, q)) : ∃ frames r,
      (a.reachable = false ∧ code.maxStack = a.maxStack ∧ code.maxLocals = a.maxLocals) ∧
        a.offset ≤ 65535 ∧
      a.codeFrom 0 [] a.operations.toList = .ok code.code ∧
      a.handlers.toList.mapM a.handlerEntry = .ok code.handlers ∧ a.frames = .ok frames ∧
      (if majorVersion ≥ stackMapVersion then stackMap frames else pure []).run.run p =
        (.ok code.attributes, r) ∧
      (utf8 "Code").run.run r = (.ok code.nameIndex, q) := by
  unfold Assembler.layout at hrun
  obtain ⟨hended, hrun⟩ := run_refusing_eq_ok hrun
  obtain ⟨hsize, hrun⟩ := run_refusing_eq_ok hrun
  obtain ⟨bytes, p₁, hbytes, hrun⟩ := run_bind_eq_ok.mp hrun
  obtain ⟨handlers, p₂, hhandlers, hrun⟩ := run_bind_eq_ok.mp hrun
  obtain ⟨frames, p₃, hframes, hrun⟩ := run_bind_eq_ok.mp hrun
  obtain ⟨hcode, rfl⟩ := run_ofExcept_eq_ok hbytes
  obtain ⟨hentries, rfl⟩ := run_ofExcept_eq_ok hhandlers
  obtain ⟨hfound, rfl⟩ := run_ofExcept_eq_ok hframes
  have hsize : a.offset ≤ 65535 := Nat.le_of_not_lt fun h => hsize (.inr h)
  split at hrun
  all_goals
    rename_i hversion
    obtain ⟨attributes, r, hattributes, hrun⟩ := run_bind_eq_ok.mp hrun
    obtain ⟨nameIndex, _, hname, hrun⟩ := run_bind_eq_ok.mp hrun
    cases hrun
    refine ⟨frames, r, ⟨Bool.eq_false_iff.mpr hended, rfl, rfl⟩, hsize, hcode, hentries, hfound, ?_,
      hname⟩
  · rwa [if_pos hversion]
  · rwa [if_neg hversion]

/-- A body that was completed over a pool is an attribute of a class with this pool. -/
theorem wellFormed_layout {a : Assembler} {majorVersion : UInt16} {code : CodeAttribute}
    (hp : p.WellFormed) (hrun : (a.layout majorVersion).run.run p = (.ok code, q)) :
    (Attribute.code code).WellFormed q := by
  obtain ⟨frames, r, -, -, -, -, -, hattributes, hname⟩ := layout_eq_ok hrun
  have hr : r.WellFormed ∧ ∀ b ∈ code.attributes, b.WellFormed r := by
    split at hattributes
    next =>
      have hr := (asks_stackMap frames).wellFormed hp
      rw [hattributes] at hr
      exact ⟨hr, wellFormed_stackMap hp hattributes⟩
    next =>
      obtain ⟨hnone, rfl⟩ := Prod.mk.inj hattributes
      rw [← Except.ok.inj hnone]
      exact ⟨hp, nofun⟩
  obtain ⟨hle, -, hname⟩ := Edit.utf8_of_run hr.1 hname
  exact .code hname fun b hb => (hr.2 b hb).mono hle

theorem run_finish {a b : Assembler} {majorVersion : UInt16} {r : Except Error CodeAttribute}
    (hrun : (Assembly.finish majorVersion).run.run a = (r, b)) :
    (a.layout majorVersion).run.run a.pool = (r, b.pool) := by
  have hfinish : (Assembly.finish majorVersion).run.run a =
      (((a.layout majorVersion).run.run a.pool).1,
      { a with pool := ((a.layout majorVersion).run.run a.pool).2 }) := rfl
  obtain ⟨rfl, rfl⟩ := Prod.mk.inj (hfinish.symm.trans hrun)
  rfl

/-! ## 5. Whole runs -/

/-- A class that is being edited, with what the edits so far have given. -/
structure Session where
  file : ClassFile
  /-- The indices that requests for classes got. -/
  classes : List UInt16
  /-- The bodies that were completed over the pool of the class. -/
  bodies : List CodeAttribute

namespace Session

def withPool (s : Session) (pool : ConstantPool) : Session :=
  { s with file := s.file.withPool pool }

def edit {α : Type} (s : Session) (x : Edit α) : Session := { s with file := (x.run.run s.file).2 }

def requestClass (s : Session) (name : String) : Session :=
  let out := (Interning.classRef name).run.run s.file.pool
  { s.withPool out.2 with classes := out.1.toOption.toList ++ s.classes }

def finish (s : Session) (a : Assembler) (majorVersion : UInt16) : Session :=
  let out := (Assembly.finish majorVersion).run.run a
  { s.withPool out.2.pool with bodies := out.1.toOption.toList ++ s.bodies }

inductive Step (s : Session) : Session → Prop
  | request (r : Request) : Step s (s.withPool (r.after s.file.pool))
  | requestClass (name : String) : Step s (s.requestClass name)
  | implement {i : UInt16} (known : i ∈ s.classes) :
      Step s { s with file := { s.file with interfaces := s.file.interfaces ++ [i] } }
  | rename (index : Nat) (newName : String) : Step s (s.edit (Edit.renameMethod index newName))
  | addField (flags : AccessFlags) (name descriptor : String) :
      Step s (s.edit (Edit.addField flags name descriptor))
  | addMethod (flags : AccessFlags) (name descriptor : String) {code : Option CodeAttribute}
      (known : ∀ b ∈ code, b ∈ s.bodies) :
      Step s (s.edit (Edit.addMethodWithCode flags name descriptor code))
  /-- A call that builds some body over the pool of the class. -/
  | build {a : Assembler} (pool : a.pool = s.file.pool) (c : Assembly.Call) :
      Step s (s.withPool (c.run.run.run a).2.pool)
  /-- Completes some body over the pool of the class. -/
  | finish {a : Assembler} (pool : a.pool = s.file.pool) (majorVersion : UInt16) :
      Step s (s.finish a majorVersion)

/-- The sessions that start with a class that was made or decoded. -/
inductive Reached : Session → Prop
  | new {name : String} {superName : Option String} {flags : AccessFlags} {c : ClassFile} :
    ClassFile.new name superName flags = .ok c → Reached ⟨c, [], []⟩
  | decode {bytes : List UInt8} {c : ClassFile} :
      ClassFile.decode bytes = .ok c → Reached ⟨c, [], []⟩
  | step {s t : Session} : Reached s → Step s t → Reached t

structure Valid (s : Session) : Prop where
  file : s.file.WellFormed
  classes : ∀ i ∈ s.classes, ∃ name, s.file.pool.className i = .ok name
  bodies : ∀ b ∈ s.bodies, (Attribute.code b).WellFormed s.file.pool

variable {s t : Session}

theorem Valid.withPool (hs : s.Valid) (hle : s.file.pool ≤ q) (hq : q.WellFormed) :
    (s.withPool q).Valid where
  file := hs.file.withPool hle hq
  classes i hi := (hs.classes i hi).imp fun _ => ConstantPool.className_mono hle
  bodies b hb := (hs.bodies b hb).mono hle

theorem Valid.edit {α : Type} {x : Edit α} (hs : s.Valid) (hx : Edit.Keeps x s.file) :
    (s.edit x).Valid where
  file := hx.2
  classes i hi := (hs.classes i hi).imp fun _ => ConstantPool.className_mono hx.1
  bodies b hb := (hs.bodies b hb).mono hx.1

theorem Valid.step (hs : s.Valid) (h : Step s t) : t.Valid := by
  cases h with
  | request r => exact hs.withPool (r.le_after _) (r.wellFormed_after hs.file.pool)
  | requestClass name =>
    have hle := (asks_classRef name).le s.file.pool
    have hq := (asks_classRef name).wellFormed (s := s.file.pool) hs.file.pool
    refine { hs.withPool hle hq with classes := fun i hi => ?_ }
    obtain hi | hi := List.mem_append.mp hi
    -- an index that was found for a class is remembered, and so it names one
    · have hrun : (Interning.classRef name).run.run s.file.pool = (.ok i, _) :=
        Prod.ext (toOption_eq_some (Option.mem_toList.mp hi)) rfl
      exact ⟨name, ((meets_classRef name hs.file.pool).of_ok hrun).2.2⟩
    · exact (hs.withPool hle hq).classes i hi
  | @implement i hi =>
    refine { hs with file := { hs.file with interfaces := fun j hj => ?_ } }
    obtain hj | hj := List.mem_append.mp hj
    · exact hs.file.interfaces j hj
    · cases List.mem_singleton.mp hj
      exact hs.classes i hi
  | rename index newName => exact hs.edit (Edit.keeps_renameMethod index newName hs.file)
  | addField flags name descriptor =>
    exact hs.edit (Edit.keeps_addField flags name descriptor hs.file)
  | addMethod flags name descriptor hknown =>
    exact hs.edit
      (Edit.keeps_addMethodWithCode flags name descriptor hs.file
        fun b hb => hs.bodies b (hknown b hb))
  | @build a hpool c =>
    have hle := c.requests.le a
    have hq := c.requests.wellFormed (s := a) (hpool ▸ hs.file.pool)
    rw [hpool] at hle
    exact hs.withPool hle hq
  | @finish a hpool majorVersion =>
    have hle := (Assembly.requests_finish majorVersion).le a
    have hq := (Assembly.requests_finish majorVersion).wellFormed (s := a) (hpool ▸ hs.file.pool)
    rw [hpool] at hle
    refine { hs.withPool hle hq with bodies := fun b hb => ?_ }
    obtain hb | hb := List.mem_append.mp hb
    -- a body that was finished has been laid out in this pool
    · have hbody := run_finish (Prod.ext (toOption_eq_some (Option.mem_toList.mp hb)) rfl)
      rw [hpool] at hbody
      exact wellFormed_layout hs.file.pool hbody
    · exact (hs.withPool hle hq).bodies b hb

/-- A new class has the indices that were found for its name and that of its superclass. -/
theorem wellFormed_of_indices {x : Interning (UInt16 × UInt16)} {c : ClassFile}
    (hindices : Meets x ConstantPool.empty fun is q => q.WellFormed ∧
      (∃ name, q.className is.1 = .ok name) ∧ (is.2 ≠ 0 → ∃ name, q.className is.2 = .ok name))
    {flags : AccessFlags} {version : UInt16} (h : (do
      let (thisClass, superClass) ← (x.run.run .empty).1
      return (⟨0, version, (x.run.run .empty).2, flags, thisClass, superClass, [], [], [], []⟩ :
        ClassFile)) = .ok c) : c.WellFormed := by
  have hfits := hindices.fits
  generalize x.run.run ConstantPool.empty = out at h hfits
  obtain ⟨r, q⟩ := out
  cases r with
  | error e => cases h
  | ok is =>
    obtain ⟨hq, hthis, hsuper⟩ := hfits
    cases h
    exact ⟨hq, hthis, hsuper, nofun, nofun, nofun, nofun⟩

theorem wellFormed_new {name : String} {superName : Option String} {flags : AccessFlags}
    {c : ClassFile} (h : ClassFile.new name superName flags = .ok c) : c.WellFormed := by
  have hname := meets_classRef name ConstantPool.wellFormed_empty
  cases superName with
  | none =>
    refine wellFormed_of_indices (x := do return (← Interning.classRef name, 0)) ?_ h
    exact .bind
      (hname.mono fun i p ⟨_, hp, hname⟩ => .ofPure ⟨hp, ⟨name, hname⟩, fun h => absurd rfl h⟩)
  | some superName =>
    refine wellFormed_of_indices
      (x := do return (← Interning.classRef name, ← Interning.classRef superName)) ?_ h
    refine .bind
      (hname.mono fun i p ⟨_, hp, hname⟩ => .bind ((meets_classRef superName hp).mono ?_))
    intro j q ⟨hle, hq, hsuper⟩
    exact .ofPure ⟨hq, ⟨name, ConstantPool.className_mono hle hname⟩, fun _ => ⟨superName, hsuper⟩⟩

theorem Reached.valid (h : Reached s) : s.Valid := by
  induction h with
  | new h => exact ⟨wellFormed_new h, nofun, nofun⟩
  | decode h => exact ⟨(decode_eq_ok_iff.mp h).1, nofun, nofun⟩
  | step _ hstep ih => exact ih.step hstep

/-! ## 6. What can be done with the class -/

theorem mapM_ok {α β : Type} {f : α → Except Error β} (as : List α)
    (h : ∀ a ∈ as, ∃ b, f a = .ok b) : ∃ bs, as.mapM f = .ok bs := by
  induction as with
  | nil => exact ⟨[], rfl⟩
  | cons a as ih =>
    obtain ⟨b, hb⟩ := h a List.mem_cons_self
    obtain ⟨bs, hbs⟩ := ih fun a' ha' => h a' (List.mem_cons_of_mem a ha')
    exact ⟨b :: bs, by rw [List.mapM_cons, hb, hbs]; rfl⟩

/-- Every class whose names can be looked up has a summary. -/
theorem ofClass_ok {c : ClassFile} (h : c.WellFormed) :
    ∃ summary, Classpath.Summary.ofClass c = .ok summary := by
  have hmember (m : Member) (hm : m.WellFormed c.pool) :
      ∃ s, Classpath.Summary.ofMember c m = .ok s := by
    obtain ⟨name, hname⟩ := hm.name
    obtain ⟨descriptor, hdescriptor⟩ := hm.descriptor
    refine ⟨⟨m.flags, name, descriptor⟩, ?_⟩
    unfold Classpath.Summary.ofMember memberName memberDescriptor
    rw [hname, hdescriptor]
    rfl
  obtain ⟨fields, hfields⟩ := mapM_ok c.fields fun m hm => hmember m (h.fields m hm)
  obtain ⟨methods, hmethods⟩ := mapM_ok c.methods fun m hm => hmember m (h.methods m hm)
  obtain ⟨name, hname⟩ := h.thisClass
  obtain ⟨interfaces, hinterfaces⟩ := mapM_ok c.interfaces h.interfaces
  have hsuper : ∃ superName, c.superName? = .ok superName := by
    unfold superName?
    split
    next => exact ⟨none, rfl⟩
    next hne =>
      obtain ⟨superName, hsuper⟩ := h.superClass hne
      exact ⟨some superName, by rw [hsuper]; rfl⟩
  obtain ⟨superName, hsuper⟩ := hsuper
  refine ⟨⟨name, superName, interfaces, c.flags, fields, methods⟩, ?_⟩
  unfold Classpath.Summary.ofClass ClassFile.name interfaceNames
  rw [hfields, hmethods, hname, hsuper, hinterfaces]
  rfl

/-- Whatever the edits were, and in whatever order, all names of the class can be looked up, and
what the class encodes to is decoded to the very same class. -/
theorem decode_edited (h : Reached s) : s.file.WellFormed ∧
    (∃ summary, Classpath.Summary.ofClass s.file = .ok summary) ∧
    ∀ bytes, s.file.encode = .ok bytes → ClassFile.decode bytes = .ok s.file :=
  ⟨h.valid.file, ofClass_ok h.valid.file,
    fun _ hencode => decode_eq_ok_iff.mpr ⟨h.valid.file, hencode⟩⟩

def withReturn (c : ClassFile) : Session :=
  let s : Session := (Session.mk c [] []).edit (Edit.addField ⟨0x0002⟩ "x" "I")
  let t := s.finish ((Assembly.returnValue none).run.run (.start s.file.pool none [])).2 52
  t.edit (Edit.addMethodWithCode ⟨0x0008⟩ "f" "()V" t.bodies.head?)

theorem reached_withReturn {name : String} {c : ClassFile}
    (h : ClassFile.new name none ⟨0x0001⟩ = .ok c) : Reached (withReturn c) :=
  .step (.step (.step (.new h) (.addField ⟨0x0002⟩ "x" "I")) (.finish rfl 52))
    (.addMethod ⟨0x0008⟩ "f" "()V" fun _ hb => List.mem_of_mem_head? hb)

theorem decode_edited_withReturn : ∃ c bytes, (withReturn c).file.methods.length = 1 ∧
    (withReturn c).file.encode = .ok bytes ∧ ClassFile.decode bytes = .ok (withReturn c).file := by
  have h : (match ClassFile.new "A" none ⟨0x0001⟩ with
      | .ok c => (withReturn c).file.methods.length == 1 && (withReturn c).file.encode.isOk
      | .error _ => false) = true := by decide +kernel
  cases hc : ClassFile.new "A" none ⟨0x0001⟩ with
  | error e =>
    rw [hc] at h
    cases h
  | ok c =>
    rw [hc] at h
    obtain ⟨hmethods, hok⟩ := Bool.and_eq_true_iff.mp h
    cases hencode : (withReturn c).file.encode with
    | error e =>
      rw [hencode] at hok
      cases hok
    | ok bytes =>
      have hedited := decode_edited (reached_withReturn hc)
      exact ⟨c, bytes, beq_iff_eq.mp hmethods, hencode, hedited.2.2 bytes hencode⟩

end Session

end MethodGraft.ClassFile
