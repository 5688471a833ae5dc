import MethodGraft.Proofs.Compilation
import MethodGraft.Proofs.Finish.Flow

/-!
# Proofs.Verification — compiled methods type-check

The Code attribute of every method that is compiled for a class with stack maps type-checks against
its own stack map, from the receiver and the parameters in the locals and an empty stack.
-/

namespace MethodGraft

open ClassFile Code Verify

/-! ## 1. The body that verification begins with -/

namespace Typed

open Assembler

variable {m : Method} {owner : String} {majorVersion : UInt16} {p q r : ConstantPool}
    {F : Assembler}
  {code : CodeAttribute}

theorem Method.labelState_start (m : Method) (owner : String) (pool : ConstantPool) (l : Label) :
    (m.start owner pool).labelState l = {} := Assembler.labelState_start _ _ _ l

theorem Method.shaped_start (hm : m.WellFormed) (owner : String) (hp : p.WellFormed) :
    (m.start owner p).Shaped where
  here := by
    have hready := m.ready_start hm owner hp
    refine ⟨⟨[], rfl⟩, ?_⟩
    show (kindsOf (m.start owner p).locals.toList).Sound _
    rw [hready.locals]
    refine (Layout.Sound.of_packed m.packed_layout).mono ?_
    rw [← hready.size_locals]
    exact hready.valid.locals_le
  labels l f hf := by
    rw [m.labelState_start] at hf
    cases hf
  handlers r hr := by cases hr

theorem Method.unsettled_start (m : Method) (owner : String) (pool : ConstantPool) {l : Label}
    {n : Nat} {f : Frame} : ¬(m.start owner pool).Settles l n f := by
  intro hs
  have hposition := hs.position
  rw [m.labelState_start] at hposition
  cases hposition

theorem Method.aligned_start (m : Method) (owner : String) (pool : ConstantPool) :
    (m.start owner pool).Aligned where
  met _ _ hs := absurd hs (m.unsettled_start owner pool)
  order _ _ _ _ _ hs := absurd hs (m.unsettled_start owner pool)

theorem Method.followed_start (hm : m.WellFormed) (owner : String) (hp : p.WellFormed)
    (body : Body) : Followed body (entryFrame m.flags.isStatic m.type) (m.start owner p) []
      (some (entryFrame m.flags.isStatic m.type)) where
  checks := .start
  tracks := {
    brings := fun k hk => by
      cases hk
      have hready := m.ready_start hm owner hp
      refine ⟨rfl, rfl, fun i x hi => ?_⟩
      have hlocals : kindsOf (m.start owner p).frame.locals.toList = m.layout := hready.locals
      rw [hlocals] at hi
      exact hi
    meets := fun _ _ _ _ hs => absurd hs (m.unsettled_start owner p)
    alone := fun hnone => by cases hnone }
  positions l n hn := by
    rw [m.labelState_start] at hn
    cases hn
  bounded _ := by
    refine ⟨fun e he => (by cases he), fun _ => ⟨fun _ => Nat.zero_le _, fun l f hf => ?_⟩⟩
    rw [m.labelState_start] at hf
    cases hf

/-! ## 2. The Code attribute -/

theorem length_of_encoded {a : Assembler} {offset : Nat} {ops : List Operation} {bytes : List UInt8}
    (h : a.Encoded offset ops bytes) : bytes.length = (ops.map Operation.size).sum := by
  induction h with
  | nil => rfl
  | @cons offset op ops bytes d _ _ ih =>
    rw [List.length_append, op.length_encode, List.map_cons, List.sum_cons, ih]

/-- The body as the verifier finds it in a class with stack maps. -/
theorem Compiled.written (h : Compiled m owner majorVersion p F code q) (hm : m.WellFormed)
    (hp : p.WellFormed) (hversion : stackMapVersion ≤ majorVersion) (hr : q ≤ r) :
    ∃ table, stackMap? r code.attributes = some table ∧
      Written F ⟨r, code.code, code.handlers, table, code.maxLocals.toNat⟩ := by
  have hbuilds := h.emits.quiet.builds
  have hstart := (m.ready_start hm owner hp).valid
  have hshaped := (m.shaped_start hm owner hp).builds hstart hbuilds
  obtain ⟨fs, hfs, hmap⟩ := h.finished.stackMap hversion
  -- the stack map can be read, since no stack entry is without a value
  have hfilled : ∀ e ∈ fs, e.2.Filled := by
    rintro ⟨position, f⟩ he
    obtain ⟨l, -, -, hf⟩ := mem_entries (hfs.mem _ he)
    exact (hshaped.labels l f hf).filled
  exact ⟨tableOf fs, hmap r hr hfilled, h.valid, hshaped,
    (m.aligned_start owner p).builds hstart hbuilds,
    h.finished.laid h.valid hr, ⟨fs, hfs, rfl⟩, congrArg UInt16.toNat h.finished.maxLocals⟩

/-- The code type-checks.  The stack is never deeper than it says, unless the slots of a stack are
too many to be counted. -/
theorem Compiled.verifies (h : Compiled m owner majorVersion p F code q) (hm : m.WellFormed)
    (hp : p.WellFormed) (hversion : stackMapVersion ≤ majorVersion) (hr : q ≤ r) : ∃ table frames,
      stackMap? r code.attributes = some table ∧
      Body.Verifies ⟨r, code.code, code.handlers, table, code.maxLocals.toNat⟩
        (entryFrame m.flags.isStatic m.type) frames ∧
      ((∀ e ∈ frames, e.2.depth ≤ 65535) → ∀ e ∈ frames, e.2.depth ≤ code.maxStack.toNat) := by
  have hbuilds := h.emits.quiet.builds
  have hready := m.ready_start hm owner hp
  obtain ⟨table, hmap, hwritten⟩ := h.written hm hp hversion hr
  -- the verifier follows the making of the body from its start to its end
  obtain ⟨frames, current, hfollowed⟩ :=
    (m.followed_start hm owner hp _).builds hwritten hready.valid
    (m.shaped_start hm owner hp) (m.aligned_start owner p) hbuilds (.refl F)
  refine ⟨table, frames, hmap, hfollowed.verifies hwritten h.emits.dead ?_ ?_, fun hdepths => ?_⟩
  · exact (length_of_encoded h.finished.code).trans h.valid.offset.symm
  · show m.layout.length ≤ code.maxLocals.toNat
    rw [h.finished.maxLocals, ← hready.size_locals]
    exact Nat.le_trans hready.valid.locals_le (UInt16.le_iff_toNat_le.mp hbuilds.extends.maxLocals)
  · rw [h.finished.maxStack]
    exact (hfollowed.bounded hdepths).1

/-! ## 3. Compiling -/

variable {imports : List String} {source : String} {s s' : Session} {new : Member}

/-- Whatever compiles for a class with stack maps type-checks against its own stack map, with the
constants of the class then and whatever is added to them. -/
theorem compiled_code_verifies (hfile : s.file.WellFormed)
    (hversion : stackMapVersion ≤ s.file.majorVersion)
    (h : (compile imports source).run.run s = (.ok new, s')) (hr : s'.file.pool ≤ r) :
    ∃ method code table frames, Declared imports source s method s' ∧
    Generates s method code new s' ∧ stackMap? r code.attributes = some table ∧
      Body.Verifies ⟨r, code.code, code.handlers, table, code.maxLocals.toNat⟩
        (entryFrame method.flags.isStatic method.type) frames ∧
      ((∀ e ∈ frames, e.2.depth ≤ 65535) → ∀ e ∈ frames, e.2.depth ≤ code.maxStack.toNat) := by
  obtain ⟨method, code, hmethod, hcode⟩ := generates_of_run hfile h
  obtain ⟨owner, F, q, hF, hq⟩ := hcode.compiled hmethod.wellFormed hfile
  obtain ⟨table, frames, hverifies⟩ :=
    hF.verifies hmethod.wellFormed hfile.pool hversion (le_trans hq hr)
  exact ⟨method, code, table, frames, hmethod, hcode, hverifies⟩

def emptyBytes : List UInt8 :=
  be32 magic ++ be16 0 ++ be16 52 ++ (be16 3 ++ [1, 0, 1, 0x41] ++ [7, 0, 1]) ++
    be16 0x0021 ++ be16 2 ++ be16 0 ++ be16 0 ++ be16 0 ++ be16 0 ++ be16 0

def branching : String := "int next(int x) { if (x == 7) { return 0; } return x + 1; }"

theorem compiled_code_verifies_branching :
    ∃ c new s' method code table frames, decode emptyBytes = .ok c ∧
    (compile [] branching).run.run ⟨c, {}⟩ = (.ok new, s') ∧ Generates ⟨c, {}⟩ method code new s' ∧
      stackMap? s'.file.pool code.attributes = some table ∧
      Body.Verifies ⟨s'.file.pool, code.code, code.handlers, table, code.maxLocals.toNat⟩
        (entryFrame method.flags.isStatic method.type) frames := by
  have h : (match decode emptyBytes with
      | .ok c =>
        decide (stackMapVersion ≤ c.majorVersion) && ((compile [] branching).run.run ⟨c, {}⟩).1.isOk
      | .error _ => false) = true := by decide +kernel
  cases hdecode : decode emptyBytes with
  | error e =>
    rw [hdecode] at h
    cases h
  | ok c =>
    rw [hdecode] at h
    obtain ⟨hversion, hok⟩ := (Bool.and_eq_true _ _).mp h
    cases hrun : (compile [] branching).run.run ⟨c, {}⟩ with
    | mk result s' =>
      rw [hrun] at hok
      cases result with
      | error e => cases hok
      | ok new =>
        obtain ⟨method, code, table, frames, -, hcode, hmap, hverifies, -⟩ :=
          compiled_code_verifies (decode_eq_ok_iff.mp hdecode).1 (of_decide_eq_true hversion) hrun
            le_rfl
        exact ⟨c, new, s', method, code, table, frames, rfl, hrun, hcode, hmap, hverifies⟩

end Typed

end MethodGraft
