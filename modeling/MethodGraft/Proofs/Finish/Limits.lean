import MethodGraft.Proofs.Assembly.Room
import MethodGraft.Proofs.Finish.Paths

/-!
# Proofs.Finish.Limits — the limits of a finished body

A body states how many slots its stack and its locals take.  On every path, before and after every
instruction, the stack has no more slots than that, but for the one of an exception that a handler
starts with.
-/

namespace MethodGraft.Code

open ClassFile Verify

/-- The stack slots that the attribute states; an exception that a handler starts with takes one. -/
def roomOf (c : CodeAttribute) : Nat := max c.maxStack.toNat (if c.handlers.isEmpty then 0 else 1)

/-- The instruction at the position finds what it takes, and it leaves the stack within the room
that there is. -/
def RunsWithin (pool : ConstantPool) (c : CodeAttribute) (p depth : Nat) : Prop :=
  ∃ op length t u r, decodeAt c.code p = some (op, length) ∧ op.slots? pool = some (t, u) ∧
    depth = t + r ∧ t + r ≤ roomOf c ∧ u + r ≤ roomOf c

/-- Nothing is left by an instruction that control does not pass through. -/
theorem Operation.pushed_of_not_goesOn {pool : ConstantPool} {op : Operation} {t u : Nat}
    (h : Body.goesOn op = false) (hslots : op.slots? pool = some (t, u)) : u = 0 := by
  cases op with
  | goto | ret =>
    cases hslots
    rfl
  | _ => cases h

namespace Assembler

variable {a : Assembler} {c : CodeAttribute} {q : ConstantPool} {trace : List Spot}

theorem Finishes.room (hc : a.Finishes c) : a.room = roomOf c := by
  have hempty : a.handlers.isEmpty = c.handlers.isEmpty := by
    rw [← Array.isEmpty_toList, Bool.eq_iff_iff, List.isEmpty_iff_length_eq_zero,
      List.isEmpty_iff_length_eq_zero, hc.handlers.length_eq]
  rw [Assembler.room, roomOf, hc.maxStack, hempty]

/-- Wherever control comes to, the room suffices before and after the instruction there. -/
theorem Finishes.runsWithin (hc : a.Finishes c) (ha : a.Traced q trace) (hample : a.Ample trace)
    {p depth : Nat} (h : ComesTo q c p depth) : RunsWithin q c p depth := by
  obtain ⟨s, hs, rfl, rfl⟩ := hc.spot_of_comesTo ha h
  obtain ⟨target, hdecode, -⟩ := hc.decode_spot ha hs
  obtain ⟨t, u, r, hslots, hdepth, hnext, -⟩ := ha.flows s hs
  have hbefore : t + r ≤ roomOf c := hc.room ▸ hdepth ▸ hample.spots s hs
  refine ⟨_, _, t, u, r, hdecode, (s.op.slots?_resolve q target).trans hslots, hdepth, hbefore, ?_⟩
  -- what it leaves is the stack before the next one, or it leaves nothing
  cases hon : Body.goesOn s.op with
  | true =>
    obtain ⟨s', hs', -, hafter⟩ := (hnext hon).spot hc.ended
    exact hc.room ▸ hafter ▸ hample.spots s' hs'
  | false =>
    rw [Operation.pushed_of_not_goesOn hon hslots]
    omega

end Assembler

namespace Assembly

open Assembler

/-- The limits that a body states suffice for its stack and its locals. -/
theorem limits_suffice {pool : ConstantPool} (hpool : pool.WellFormed) {receiver : Option String}
    {params : List FieldType}
    (hparams : receiver.toList.length + (params.map FieldType.slots).sum ≤ 65535)
    {calls : List Call} (hcalls : Named 0 calls)
    (hsound : Throughout (fun a c => Sound a c ∧ c.Countable a) (start pool receiver params) calls)
    {majorVersion : UInt16} {c : CodeAttribute} {b : Assembler}
    (h : (do runAll calls; finish majorVersion).run.run (start pool receiver params) = (.ok c, b)) :
    (∀ p depth, ComesTo b.pool c p depth → RunsWithin b.pool c p depth) ∧
      receiver.toList.length + (params.map FieldType.slots).sum ≤ c.maxLocals.toNat ∧
      (∃ a, (runAll calls).run.run (start pool receiver params) = (.ok ⟨⟩, a) ∧ Exact a ∧
        ∀ op ∈ a.operations.toList, op.touches ≤ c.maxLocals.toNat) ∧
      Throughout (fun a _ => Exact a) (start pool receiver params) calls := by
  obtain ⟨_, a, hrun, hfinish⟩ := run_bind_eq_ok.mp h
  have hle := pool_le_of_requests (requests_finish majorVersion) hfinish
  obtain ⟨hample, hroom⟩ := ample_start pool hparams
  obtain ⟨⟨trace, ha, hample', hraises⟩, hexact⟩ :=
    ample_runAll (tracked_start hpool receiver params) hample hcalls hsound hrun hle
  have hc := ha.consistent.finishes (run_finish hfinish)
  have hlocals : a.localRoom = c.maxLocals.toNat := congrArg UInt16.toNat hc.maxLocals.symm
  refine ⟨fun p depth hp => hc.runsWithin ha.traced hample' hp, ?_,
    ⟨a, hrun, exact_of_ample hample' ha.counted, ?_⟩, hexact⟩
  · rw [← hroom, ← hlocals]
    exact hraises.localRoom
  · rw [← hlocals]
    exact hample'.touches

def summingCalls : List Call :=
  [.newLabel, .newLabel, .newLabel, .place ⟨0⟩, .load 1 .long, .lconst 1, .add .long,
    .store 3 .long, .place ⟨1⟩, .addHandler ⟨0⟩ ⟨1⟩ ⟨2⟩ none, .returnValue none, .place ⟨2⟩,
    .popValue, .returnValue none]

theorem limits_suffice_summing : Named 0 summingCalls ∧
    Throughout (fun a c => Sound a c ∧ c.Countable a)
    (start .empty (some "A") [.long]) summingCalls ∧ ∃ c b,
      (do runAll summingCalls; finish 52).run.run (start .empty (some "A") [.long]) = (.ok c, b) ∧
        c.maxStack = 4 ∧ c.maxLocals = 5 ∧ 3 ≤ c.maxLocals.toNat ∧
          (ComesTo b.pool c 3 4 ∧ RunsWithin b.pool c 3 4) ∧
            (ComesTo b.pool c 7 1 ∧ RunsWithin b.pool c 7 1) ∧
            Throughout (fun a _ => Exact a) (start .empty (some "A") [.long]) summingCalls := by
  have hnamed : Named 0 summingCalls := by decide
  have hsound : Throughout (fun a c => Sound a c ∧ c.Countable a) (start .empty (some "A") [.long])
      summingCalls := by
    decide +kernel
  obtain ⟨c, b, hrun, hc⟩ := exists_run_of_any (x := do runAll summingCalls; finish 52)
    (a := start .empty (some "A") [.long])
      (f := fun c => c.code = [22, 1, 10, 97, 55, 3, 177, 87, 177] ∧
      c.handlers = [⟨0, 6, 7, 0⟩] ∧ c.maxStack = 4 ∧ c.maxLocals = 5) (by decide +kernel)
  obtain ⟨hcode, hhandlers, hmaxStack, hmaxLocals⟩ := of_decide_eq_true hc
  have hfirst : decodeAt c.code 0 = some (.load .long 1, 2) := by rw [hcode]; rfl
  have hsecond : decodeAt c.code 2 = some (.lconst1, 1) := by rw [hcode]; rfl
  have hloaded : ComesTo b.pool c 2 2 := .tail .refl (.next (r := 0) hfirst rfl rfl)
  have hboth : ComesTo b.pool c 3 4 := hloaded.tail (.next (r := 2) hsecond rfl rfl)
  have hcaught : ComesTo b.pool c 7 1 := hloaded.tail
    (.caught (h := ⟨0, 6, 7, 0⟩) hsecond (by rw [hhandlers]; exact List.mem_cons_self) (by decide))
  obtain ⟨hpaths, hparams, -, hexact⟩ :=
    limits_suffice ConstantPool.wellFormed_empty (by decide) hnamed hsound hrun
  exact ⟨hnamed, hsound, c, b, hrun, hmaxStack, hmaxLocals, hparams, ⟨hboth, hpaths _ _ hboth⟩,
    ⟨hcaught, hpaths _ _ hcaught⟩, hexact⟩

def catchingCalls : List Call :=
  [.newLabel, .newLabel, .newLabel, .place ⟨0⟩, .addHandler ⟨0⟩ ⟨1⟩ ⟨2⟩ none, .returnValue none,
    .place ⟨1⟩, .place ⟨2⟩, .returnValue none]

/-- The exception that a handler starts with is not counted. -/
theorem limits_miss_exception : ∃ c b,
    (do runAll catchingCalls; finish 52).run.run
    (start .empty none []) = (.ok c, b) ∧ c.maxStack = 0 ∧ ComesTo b.pool c 1 1 := by
  obtain ⟨c, b, hrun, hc⟩ :=
    exists_run_of_any (x := do runAll catchingCalls; finish 52) (a := start .empty none [])
    (f := fun c => c.code = [177, 177] ∧ c.handlers = [⟨0, 1, 1, 0⟩] ∧ c.maxStack = 0)
      (by decide +kernel)
  obtain ⟨hcode, hhandlers, hmaxStack⟩ := of_decide_eq_true hc
  have hfirst : decodeAt c.code 0 = some (.ret none, 1) := by rw [hcode]; rfl
  refine ⟨c, b, hrun, hmaxStack, .tail .refl (.caught (h := ⟨0, 1, 1, 0⟩) hfirst ?_ (by decide))⟩
  rw [hhandlers]
  exact List.mem_cons_self

end Assembly

end MethodGraft.Code
