import MethodGraft.Proofs.Assembly.Depths
import MethodGraft.Proofs.Finish.ReadBack

/-!
# Proofs.Finish.Paths — paths through a finished body

Control goes from one instruction of a code array to the next, to where it jumps, or to a handler.
`Edge` says how deep the stack is then.  Where the calls that made the body fit and agree, all paths
to an instruction bring the same depth.
-/

namespace MethodGraft.Code

open ClassFile Verify

/-! ## 1. Paths -/

/-- From a position and a depth of the stack in slots, control may go to another position with
another depth: on to the next instruction, to where a jump leads, or to the handler of an exception,
which is alone on the stack then. -/
inductive Edge (pool : ConstantPool) (c : CodeAttribute) : Nat × Nat → Nat × Nat → Prop
  | next {p length t u r : Nat} {op : Operation} (decoded : decodeAt c.code p = some (op, length))
      (slots : op.slots? pool = some (t, u)) (onward : Body.goesOn op = true) :
      Edge pool c (p, t + r) (p + length, u + r)
  | jump {p length t u r : Nat} {op : Operation} {l : Label}
      (decoded : decodeAt c.code p = some (op, length))
      (slots : op.slots? pool = some (t, u)) (target : op.target? = some l) :
      Edge pool c (p, t + r) (l.index, u + r)
  | caught {p length depth : Nat} {op : Operation} {h : ExceptionHandler}
      (decoded : decodeAt c.code p = some (op, length)) (handler : h ∈ c.handlers)
      (inside : h.startPc.toNat ≤ p ∧ p < h.endPc.toNat) :
      Edge pool c (p, depth) (h.handlerPc.toNat, 1)

/-- A path from the start leads to the position with a stack of the depth. -/
def ComesTo (pool : ConstantPool) (c : CodeAttribute) (p depth : Nat) : Prop :=
  Relation.ReflTransGen (Edge pool c) (0, 0) (p, depth)

namespace Assembler

variable {a : Assembler} {c : CodeAttribute} {p q : ConstantPool} {majorVersion : UInt16}
    {trace : List Spot}

/-! ## 2. Bodies that are written -/

structure Finishes (a : Assembler) (c : CodeAttribute) : Prop where
  ended : a.reachable = false
  maxStack : c.maxStack = a.maxStack
  maxLocals : c.maxLocals = a.maxLocals
  decode : ∀ before op after, a.operations.toList = before ++ op :: after →
    ∃ t, decodeAt c.code (before.map Operation.size).sum = some (op.resolve t, op.size) ∧
      ∀ l, op.target? = some l → (a.labelState l).position = some t
  handlers : List.Forall₂ a.Located a.handlers.toList c.handlers

theorem Consistent.finishes (ha : a.Consistent)
    (h : (a.layout majorVersion).run.run p = (.ok c, q)) : a.Finishes c := by
  obtain ⟨fs, r, ⟨hended, hmaxStack, hmaxLocals⟩, hsize, hcode, hhandlers, -⟩ := layout_eq_ok h
  obtain ⟨bytes, hbytes, hencoded⟩ := codeFrom_eq_ok hcode
  obtain rfl : c.code = bytes := hbytes
  refine ⟨hended, hmaxStack, hmaxLocals, fun before op after hops => ?_, ?_⟩
  · have hrange := ha.inRange op (by rw [hops]; simp)
    rw [hops] at hencoded
    obtain ⟨t, ht, hl⟩ := hencoded.decode hrange
    rw [Nat.zero_add] at ht
    exact ⟨t, ht, hl⟩
  · exact (mapM_eq_ok_iff.mp hhandlers).imp fun _ _ he => (handlerEntry_eq_ok ha hsize he).1

theorem Finishes.decode_spot (hc : a.Finishes c) (ha : a.Traced q trace) {s : Spot}
    (hs : s ∈ trace) : ∃ t, decodeAt c.code s.offset = some (s.op.resolve t, s.op.size) ∧
      ∀ l, s.op.target? = some l → (a.labelState l).position = some t := by
  obtain ⟨before, after, hsplit⟩ := List.append_of_mem hs
  have hops := ha.operations
  rw [hsplit, List.map_append, List.map_cons] at hops
  obtain ⟨t, ht, hl⟩ := hc.decode _ _ _ hops
  rw [List.map_map] at ht
  rw [ha.laid before s after hsplit]
  exact ⟨t, ht, hl⟩

/-! ## 3. Paths follow the trace -/

/-- The operation stands before another one that comes later. -/
theorem Traced.offset_lt (ha : a.Traced q trace) {before mid after : List Spot} {s s' : Spot}
    (h : trace = before ++ s :: mid ++ s' :: after) : s.offset < s'.offset := by
  have hs := ha.laid before s (mid ++ s' :: after) (by rw [h, List.append_assoc, List.cons_append])
  have hs' := ha.laid (before ++ s :: mid) s' after h
  have hpos := s.op.size_pos
  rw [List.map_append, List.sum_append, List.map_cons, List.sum_cons] at hs'
  omega

/-- No two operations stand at one position. -/
theorem Traced.eq_of_offset (ha : a.Traced q trace) {s s' : Spot} (hs : s ∈ trace)
    (hs' : s' ∈ trace) (h : s.offset = s'.offset) : s = s' := by
  -- otherwise one of them would stand before the other
  obtain ⟨before, after, hsplit⟩ := List.append_of_mem hs
  rw [hsplit] at hs'
  rcases List.mem_append.mp hs' with hin | hin
  · obtain ⟨first, mid, rfl⟩ := List.append_of_mem hin
    exact absurd h (Nat.ne_of_gt (ha.offset_lt hsplit))
  · rcases List.mem_cons.mp hin with rfl | hin
    · rfl
    · obtain ⟨mid, last, rfl⟩ := List.append_of_mem hin
      rw [← List.cons_append, ← List.append_assoc] at hsplit
      exact absurd h (Nat.ne_of_lt (ha.offset_lt hsplit))

/-- In a body that has been left, control comes to operations only. -/
theorem Stands.spot {p depth : Nat} (h : a.Stands trace p depth) (hended : a.reachable = false) :
    ∃ s ∈ trace, s.offset = p ∧ s.depth = depth := by
  obtain hspot | ⟨-, hlive, -⟩ := h
  · exact hspot
  · rw [hended] at hlive
    cases hlive

theorem Knows.spot {l : Label} {p depth : Nat} (h : a.Knows l depth) (ha : a.Traced q trace)
    (hended : a.reachable = false) (hp : (a.labelState l).position = some p) :
    ∃ s ∈ trace, s.offset = p ∧ s.depth = depth := by
  obtain ⟨f, hf, rfl⟩ := h
  exact (ha.labels l p f hp hf).spot hended

/-- What an instruction does to the depth, control goes on with. -/
theorem Finishes.flows_of_decoded (hc : a.Finishes c) (ha : a.Traced q trace) {s : Spot}
    (hs : s ∈ trace) {op : Operation} {length t u r : Nat}
    (hdecoded : decodeAt c.code s.offset = some (op, length))
    (hslots : op.slots? q = some (t, u)) (hdepth : s.depth = t + r) :
    (Body.goesOn op = true → a.Stands trace (s.offset + length) (u + r)) ∧
      ∀ l, op.target? = some l →
        ∃ l', (a.labelState l').position = some l.index ∧ a.Knows l' (u + r) := by
  obtain ⟨target, hdecode, htarget⟩ := hc.decode_spot ha hs
  cases hdecode.symm.trans hdecoded
  rw [Operation.slots?_resolve] at hslots
  obtain ⟨t', u', r', hslots', hr, hnext, hjump⟩ := ha.flows s hs
  cases hslots'.symm.trans hslots
  obtain rfl : r' = r := Nat.add_left_cancel (hr.symm.trans hdepth)
  refine ⟨fun hon => hnext (s.op.goesOn_resolve target ▸ hon), fun l hl => ?_⟩
  rw [Operation.target?_resolve] at hl
  obtain ⟨l', hl', rfl⟩ := Option.map_eq_some_iff.mp hl
  exact ⟨l', htarget l' hl', hjump l' hl'⟩

/-- Control comes to an operation with the depth that was noted for it. -/
theorem Finishes.spot_of_edge (hc : a.Finishes c) (ha : a.Traced q trace) {x y : Nat × Nat}
    (h : Edge q c x y) (hx : ∃ s ∈ trace, s.offset = x.1 ∧ s.depth = x.2) :
    ∃ s ∈ trace, s.offset = y.1 ∧ s.depth = y.2 := by
  obtain ⟨s, hs, hp, hdepth⟩ := hx
  cases h with
  | next decoded slots onward =>
    obtain rfl := hp
    exact ((hc.flows_of_decoded ha hs decoded slots hdepth).1 onward).spot hc.ended
  | jump decoded slots target =>
    obtain rfl := hp
    obtain ⟨l', hposition, hknows⟩ := (hc.flows_of_decoded ha hs decoded slots hdepth).2 _ target
    exact hknows.spot ha hc.ended hposition
  | caught decoded handler inside =>
    -- whatever the stack was, the handler starts with the frame of its label
    obtain ⟨range, hrange, hlocated⟩ := forall₂_mem_left hc.handlers.flip _ handler
    exact (ha.handlers range hrange).spot ha hc.ended hlocated.handler

theorem Finishes.spot_of_comesTo (hc : a.Finishes c) (ha : a.Traced q trace) {position depth : Nat}
    (h : ComesTo q c position depth) : ∃ s ∈ trace, s.offset = position ∧ s.depth = depth := by
  have hall {x : Nat × Nat} (hx : Relation.ReflTransGen (Edge q c) (0, 0) x) :
      ∃ s ∈ trace, s.offset = x.1 ∧ s.depth = x.2 := by
    induction hx with
    | refl => exact ha.start.spot hc.ended
    | tail _ hedge ih => exact hc.spot_of_edge ha hedge ih
  exact hall h

end Assembler

/-! ## 4. Calls -/

namespace Assembly

open Assembler

/-- Where all calls fit and agree, the finished body has a trace. -/
theorem finish_traced {pool : ConstantPool} (hpool : pool.WellFormed) {receiver : Option String}
    {params : List FieldType} {calls : List Call} (hcalls : Named 0 calls)
    (hsound : Throughout Sound (start pool receiver params) calls) {majorVersion : UInt16}
    {c : CodeAttribute} {b : Assembler}
    (h : (do runAll calls; finish majorVersion).run.run (start pool receiver params) = (.ok c, b)) :
    ∃ (a : Assembler) (trace : List Spot), a.Finishes c ∧ a.Traced b.pool trace := by
  obtain ⟨_, a, hrun, hfinish⟩ := run_bind_eq_ok.mp h
  have hle := pool_le_of_requests (requests_finish majorVersion) hfinish
  rw [← calls.append_nil] at hcalls hsound
  obtain ⟨⟨trace, ha⟩, -⟩ :=
    tracked_runAll (tracked_start hpool receiver params) hcalls hsound hrun hle
  exact ⟨a, trace, ha.consistent.finishes (run_finish hfinish), ha.traced⟩

/-- All paths to an instruction bring a stack of the same depth in slots, and a call that would
bring another depth to a label is refused. -/
theorem depth_unique {pool : ConstantPool} (hpool : pool.WellFormed) {receiver : Option String}
    {params : List FieldType} {calls : List Call} (hcalls : Named 0 calls)
    (hsound : Throughout Sound (start pool receiver params) calls) (majorVersion : UInt16) :
    (∀ c b, (do runAll calls; finish majorVersion).run.run (start pool receiver params) =
      (.ok c, b) →
      ∀ p depth depth', ComesTo b.pool c p depth → ComesTo b.pool c p depth' → depth = depth') ∧
    ∀ before c after a l stack f, calls = before ++ c :: after →
      (runAll before).run.run (start pool receiver params) = (.ok ⟨⟩, a) →
        c.edge? a = some (l, stack) →
        (a.labelState l).frame = some f → depthOf f.stack ≠ depthOf stack →
          Fails (do runAll calls; finish majorVersion) ⟨.stackMismatch l.index, []⟩
            (start pool receiver params) := by
  refine ⟨fun c b h p depth depth' hp hp' => ?_,
    fun before c after a l stack f hsplit hrun hedge hf hne => ?_⟩
  · obtain ⟨a, trace, hc, ha⟩ := finish_traced hpool hcalls hsound h
    obtain ⟨s, hs, hoffset, rfl⟩ := hc.spot_of_comesTo ha hp
    obtain ⟨s', hs', hoffset', rfl⟩ := hc.spot_of_comesTo ha hp'
    rw [ha.eq_of_offset hs hs' (hoffset.trans hoffset'.symm)]
  · subst hsplit
    exact (fails_runAll (tracked_start hpool receiver params) hcalls hsound hrun hedge hf hne).bind

/-- What can be computed of a run. -/
theorem exists_run_of_any {x : Assembly CodeAttribute} {a : Assembler} {f : CodeAttribute → Bool}
    (h : (x.run.run a).1.toOption.any f = true) : ∃ c b, x.run.run a = (.ok c, b) ∧ f c = true := by
  generalize x.run.run a = out at h
  obtain ⟨result, b⟩ := out
  cases result with
  | error => cases h
  | ok c => exact ⟨c, b, rfl, h⟩

def guardedCalls : List Call :=
  [.newLabel, .newLabel, .newLabel, .place ⟨0⟩, .lconst 0, .popValue, .aconstNull,
    .checkcast "java/lang/Throwable", .place ⟨1⟩, .addHandler ⟨0⟩ ⟨1⟩ ⟨2⟩ none, .goto ⟨2⟩,
    .place ⟨2⟩, .popValue, .returnValue none]

def droppingCalls : List Call :=
  [.newLabel, .iconst 0, .iconst 0, .branch 153 ⟨0⟩, .popValue, .place ⟨0⟩, .returnValue none]

theorem depth_unique_guarded :
    (Named 0 guardedCalls ∧ Throughout Sound (start .empty none []) guardedCalls ∧ ∃ c b,
    (do runAll guardedCalls; finish 52).run.run
    (start .empty none []) = (.ok c, b) ∧ ComesTo b.pool c 6 1 ∧
      Edge b.pool c (6, 1) (9, 1) ∧ ComesTo b.pool c 1 2 ∧ Edge b.pool c (1, 2) (9, 1) ∧
        ∀ depth, ComesTo b.pool c 9 depth → depth = 1) ∧
    Named 0 droppingCalls ∧ Throughout Sound (start .empty none []) droppingCalls ∧
      Fails (do runAll droppingCalls; finish 52) ⟨.stackMismatch 0, []⟩ (start .empty none []) := by
  refine ⟨?_, ?_⟩
  · have hnamed : Named 0 guardedCalls := by decide
    have hsound : Throughout Sound (start .empty none []) guardedCalls := by decide +kernel
    obtain ⟨c, b, hrun, hc⟩ :=
      exists_run_of_any (x := do runAll guardedCalls; finish 52) (a := start .empty none [])
      (f := fun c => c.code = [9, 88, 1, 192, 0, 2, 167, 0, 3, 87, 177] ∧
        c.handlers = [⟨0, 6, 9, 0⟩])
      (by decide +kernel)
    obtain ⟨hcode, hhandlers⟩ := of_decide_eq_true hc
    have hfirst : decodeAt c.code 0 = some (.lconst0, 1) := by rw [hcode]; rfl
    have hsecond : decodeAt c.code 1 = some (.pop2, 1) := by rw [hcode]; rfl
    have hthird : decodeAt c.code 2 = some (.aconstNull, 1) := by rw [hcode]; rfl
    have hfourth : decodeAt c.code 3 = some (.checkcast 2, 3) := by rw [hcode]; rfl
    have hfifth : decodeAt c.code 6 = some (.goto ⟨9⟩, 3) := by rw [hcode]; rfl
    have hwide : ComesTo b.pool c 1 2 := .tail .refl (.next (r := 0) hfirst rfl rfl)
    have hjumping : ComesTo b.pool c 6 1 :=
      ((hwide.tail (.next (r := 0) hsecond rfl rfl)).tail (.next (r := 0) hthird rfl rfl)).tail
        (.next (r := 0) hfourth rfl rfl)
    have hjump : Edge b.pool c (6, 1) (9, 1) := .jump (r := 1) hfifth rfl rfl
    have hcaught : Edge b.pool c (1, 2) (9, 1) :=
      .caught (h := ⟨0, 6, 9, 0⟩) hsecond (by rw [hhandlers]; exact List.mem_cons_self) (by decide)
    refine ⟨hnamed, hsound, c, b, hrun, hjumping, hjump, hwide, hcaught, fun depth hdepth => ?_⟩
    exact (depth_unique ConstantPool.wellFormed_empty hnamed hsound 52).1 c b hrun 9 depth 1 hdepth
      (hjumping.tail hjump)
  · have hnamed : Named 0 droppingCalls := by decide
    have hsound : Throughout Sound (start .empty none []) droppingCalls := by decide +kernel
    refine ⟨hnamed, hsound, ?_⟩
    exact (depth_unique ConstantPool.wellFormed_empty hnamed hsound 52).2
      [.newLabel, .iconst 0, .iconst 0, .branch 153 ⟨0⟩, .popValue] (.place ⟨0⟩) [.returnValue none]
        _ ⟨0⟩ []
      ⟨#[], [.integer]⟩ rfl rfl rfl rfl (by decide)

/-- A label that is jumped to with one slot on the stack and placed with two.  Both are one
value. -/
def unevenCalls : List Call :=
  [.newLabel, .iconst 0, .iconst 0, .branch 153 ⟨0⟩, .popValue, .lconst 0, .place ⟨0⟩, .popValue,
    .returnValue none]

theorem depth_not_unique :
    ∃ c b, (do runAll unevenCalls; finish 52).run.run (start .empty none []) = (.ok c, b) ∧
    ComesTo b.pool c 7 1 ∧ ComesTo b.pool c 7 2 := by
  obtain ⟨c, b, hrun, hc⟩ :=
    exists_run_of_any (x := do runAll unevenCalls; finish 52) (a := start .empty none [])
    (f := fun c => c.code = [3, 3, 153, 0, 5, 87, 9, 87, 177]) (by decide +kernel)
  have hcode := of_decide_eq_true hc
  have hfirst : decodeAt c.code 0 = some (.iconst 0, 1) := by rw [hcode]; rfl
  have hsecond : decodeAt c.code 1 = some (.iconst 0, 1) := by rw [hcode]; rfl
  have hbranch : decodeAt c.code 2 = some (.branch (.zero .eq) ⟨7⟩, 3) := by rw [hcode]; rfl
  have hpop : decodeAt c.code 5 = some (.pop, 1) := by rw [hcode]; rfl
  have hwide : decodeAt c.code 6 = some (.lconst0, 1) := by rw [hcode]; rfl
  have hbranching : ComesTo b.pool c 2 2 :=
    (Relation.ReflTransGen.refl.tail (.next (r := 0) hfirst rfl rfl)).tail
      (.next (r := 1) hsecond rfl rfl)
  refine ⟨c, b, hrun, hbranching.tail (.jump (r := 1) hbranch rfl rfl), ?_⟩
  exact ((hbranching.tail (.next (r := 1) hbranch rfl rfl)).tail (.next (r := 0) hpop rfl rfl)).tail
    (.next (r := 0) hwide rfl rfl)

end Assembly

end MethodGraft.Code
