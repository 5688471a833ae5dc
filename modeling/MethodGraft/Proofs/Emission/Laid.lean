import MethodGraft.Proofs.Assembly.Instructions
import MethodGraft.Proofs.Assembly.Quiet
import MethodGraft.Proofs.Simulation.Statements
import MethodGraft.Typed.Emit

/-!
# Proofs.Emission.Laid — a body in the making and the program it becomes

`Laid F P` says that the program `P` is the finished body `F`: each operation stands at its offset
with positions in place of labels.  A stretch of code that is added now is then part of the program,
whatever is added later.  Where control does not get to, nothing is added.
-/

namespace MethodGraft

namespace Typed

open Code Assembly

/-! ## 1. Where control does not get to -/

theorem run_emitJump_dead {a : Assembler} (hdead : a.reachable = false) (c : Cond) (when : Bool)
    (target : Label) : (emitJump c when target).run.run a = (.ok ⟨⟩, a) := by
  unfold emitJump
  rw [run_get_bind, if_pos (by simp [hdead])]
  rfl

theorem run_emitStmts_dead {a : Assembler} (hdead : a.reachable = false) (s : Stmt)
    (stmts : List Stmt) : (emitStmts (s :: stmts)).run.run a = (.ok ⟨⟩, a) := by
  unfold emitStmts
  rw [run_get_bind, if_pos (by simp [hdead])]
  rfl

end Typed

namespace Code.Assembler

open ClassFile Typed Assembly Machine Direct

variable {a b c F : Assembler} {P : Program} {layout : Layout} {stack : List ValueKind}
  {op : Operation} {l : Label}

/-! ## 2. The finished body -/

structure Located (F : Assembler) (r : HandlerRange) (h : ExceptionHandler) : Prop where
  start : (F.labelState r.start).position = some h.startPc.toNat
  stop : (F.labelState r.stop).position = some h.endPc.toNat
  handler : (F.labelState r.handler).position = some h.handlerPc.toNat
  catchType : h.catchType = r.catchType

structure Laid (F : Assembler) (P : Program) : Prop where
  pool : F.pool ≤ P.pool
  fetch : ∀ before op after, F.operations.toList = before ++ op :: after →
    ∃ t, P.fetch (before.map Operation.size).sum = some (op.resolve t, op.size) ∧
      ∀ l, op.target? = some l → (F.labelState l).position = some t
  handlers : ∀ h ∈ P.handlers, ∃ r ∈ F.handlers.toList, F.Located r h
  ranges : ∀ r ∈ F.handlers.toList, ∃ h ∈ P.handlers, F.Located r h

/-- The operation that leads from `a` to `b` stands where `a` ends. -/
theorem Laid.fetch_next (hP : Laid F P) (ha : a.Valid) (hops : b.operations = a.operations.push op)
    (hF : b.Extends F) : ∃ t, P.fetch a.offset = some (op.resolve t, op.size) ∧
      ∀ l, op.target? = some l → (F.labelState l).position = some t := by
  obtain ⟨after, hafter⟩ := hF.operations
  rw [hops, Array.toList_push, List.append_assoc, List.singleton_append] at hafter
  have h := hP.fetch _ _ _ hafter.symm
  rwa [← ha.offset] at h

theorem Located.unique {r : HandlerRange} {h h' : ExceptionHandler} (hr : F.Located r h)
    (hr' : F.Located r h') : h = h' := by
  have hstart := hr.start.symm.trans hr'.start
  have hstop := hr.stop.symm.trans hr'.stop
  have hhandler := hr.handler.symm.trans hr'.handler
  have hcatch := hr.catchType.trans hr'.catchType.symm
  simp only [Option.some.injEq, UInt16.toNat_inj] at hstart hstop hhandler
  obtain ⟨_, _, _, _⟩ := h
  obtain ⟨_, _, _, _⟩ := h'
  simp_all

/-- A range that was closed before the code covers none of it, and neither does one that is opened
later. -/
theorem Laid.uncovered (hP : Laid F P) (ha : a.Valid) (hclosed : a.Closed) (hab : a.Extends b)
    (hsame : b.handlers = a.handlers) (hF : b.Extends F) : Uncovered P a.offset b.offset := by
  intro h hh
  obtain ⟨r, hr, hlocated⟩ := hP.handlers h hh
  obtain ⟨more, hmore, hstart⟩ := hF.handlers
  rw [hmore, hsame] at hr
  rcases List.mem_append.mp hr with hold | hnew
  · left
    obtain ⟨q, hq⟩ := Option.isSome_iff_exists.mp (hclosed r hold)
    have hend := hlocated.stop
    rw [(hab.trans hF).placed _ q hq, hq] at hend
    cases hend
    exact (ha.labels _).position_le _ hq
  · right
    obtain ⟨p, hp, hle⟩ := hstart r hnew
    have hbegin := hlocated.start
    rw [hp] at hbegin
    cases hbegin
    exact hle

/-- A range that was opened behind `a` is that of the one handler for the code from there to `q`. -/
theorem Laid.guards {start stop handler : Label} {i : UInt16} {q t : Nat}
    (hP : Laid F P) (ha : a.Valid) (hclosed : a.Closed) (hac : a.Extends c) (hc : c.Valid)
    (hhandlers : c.handlers = a.handlers.push ⟨start, stop, handler, i⟩)
    (hi : c.pool.class? i = some "java/lang/Exception") (hF : c.Extends F)
    (hstart : (F.labelState start).position = some a.offset)
    (hstop : ∃ p, (F.labelState stop).position = some p ∧ q ≤ p) (hq : q ≤ c.offset)
    (hhandler : (F.labelState handler).position = some t) :
    ∃ h, Guards P a.offset q h ∧ h.handlerPc.toNat = t := by
  obtain ⟨more, hmore, hlater⟩ := hF.handlers
  obtain ⟨p, hp, hle⟩ := hstop
  obtain ⟨h, hh, hl⟩ := hP.ranges ⟨start, stop, handler, i⟩ (by rw [hmore, hhandlers]; simp)
  have hbegin := hl.start.symm.trans hstart
  have hend := hl.stop.symm.trans hp
  have hcatch := hl.handler.symm.trans hhandler
  simp only [Option.some.injEq] at hbegin hend hcatch
  have hclass := ConstantPool.class?_mono (le_trans hF.pool hP.pool) hi
  -- the handler is found by its range; any other one is older and ended before, or begins later
  refine ⟨h,
    ⟨hh, Nat.le_of_eq hbegin, by omega, ⟨fun h0 => ?_, by rwa [hl.catchType]⟩, fun h' hh' => ?_⟩,
    hcatch⟩
  · obtain ⟨_, hget, -⟩ :=
      ConstantPool.className_eq_ok_iff.mp (ConstantPool.class?_eq_some_iff.mp hi)
    rw [hl.catchType] at h0
    -- a handler for the constant zero would catch everything
    exact hc.pool.ne_zero hget h0
  · obtain ⟨r, hr, hl'⟩ := hP.handlers h' hh'
    rw [hmore, hhandlers, Array.toList_push, List.append_assoc] at hr
    rcases List.mem_append.mp hr with hold | hr
    · obtain ⟨p', hp'⟩ := Option.isSome_iff_exists.mp (hclosed r hold)
      have hend' := hl'.stop
      rw [(hac.trans hF).placed _ _ hp', hp'] at hend'
      cases hend'
      exact .inr (.inl ((ha.labels _).position_le _ hp'))
    · rcases List.mem_append.mp hr with hsame | hnew
      · rw [List.mem_singleton.mp hsame] at hl'
        exact .inl (hl'.unique hl)
      · obtain ⟨p', hp', hle'⟩ := hlater r hnew
        have hbegin' := hl'.start.symm.trans hp'
        simp only [Option.some.injEq] at hbegin'
        exact .inr (.inr (by omega))

/-! ## 3. Single instructions -/

/-- An instruction that is the same for every label. -/
theorem Emits.fetch (h : Emits a b op layout stack) (ha : a.Valid) (hP : Laid F P)
    (hF : b.Extends F) (hop : ∀ t, op.resolve t = op) : P.fetch a.offset = some (op, op.size) := by
  obtain ⟨t, ht, -⟩ := hP.fetch_next ha h.passes.operations hF
  rwa [hop] at ht

theorem Laid.pool_le (hP : Laid F P) (hF : b.Extends F) : b.pool ≤ P.pool :=
  le_trans hF.pool hP.pool

theorem Emits.closed (h : Emits a b op layout stack) (ha : a.Closed) : b.Closed := by
  intro r hr
  rw [h.passes.handlers] at hr
  rw [labelState, h.passes.labels]
  exact ha r hr

theorem Loads.does {v : Machine.Value} {before : List ValueKind} (h : Loads a layout before v b)
    (ha : a.Valid) (hP : Laid F P) (hF : b.Extends F) (stack : List Machine.Value) :
    Does P a.offset b.offset stack (v :: stack) := by
  obtain ⟨op, hemits, hpushes⟩ := h
  obtain ⟨t, hfetch, -⟩ := hP.fetch_next ha hemits.passes.operations hF
  rw [hemits.passes.offset]
  exact fun env μ past =>
    reaches_execute hfetch (hpushes P.pool (le_trans hF.pool hP.pool) env t _ _ _ _ _)

/-- A call. -/
theorem calls_of_emits {callee : Callee} {i : UInt16} {slots : UInt8}
    (h : Emits a b (.invoke callee.kind i slots) layout stack) (ha : a.Valid) (hP : Laid F P)
    (hF : b.Extends F) (hi : b.pool.callee? callee.kind i = some callee) :
    Calls P a.offset b.offset callee := by
  obtain ⟨t, hfetch, -⟩ := hP.fetch_next ha h.passes.operations hF
  have hresolve : ∃ slots', (Operation.invoke callee.kind i slots).resolve t =
      .invoke callee.kind i slots' := by
    cases callee.kind <;> exact ⟨_, rfl⟩
  obtain ⟨slots', hslots⟩ := hresolve
  rw [hslots] at hfetch
  exact ⟨i, slots', _, Operation.size_pos _, h.passes.offset, hfetch,
    ConstantPool.callee?_mono (le_trans hF.pool hP.pool) hi⟩

end Code.Assembler

end MethodGraft
