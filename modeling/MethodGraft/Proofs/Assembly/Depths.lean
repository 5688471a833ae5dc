import MethodGraft.Proofs.Assembly.Outcomes
import MethodGraft.Proofs.Assembly.Refusals

/-!
# Proofs.Assembly.Depths — one depth for every instruction

Each operation is noted with the depth that the stack is followed with when it is added.  As long as
calls fit and agree, whatever leads to an operation brings that depth: the operation before it, and
every jump and every handler through the frame of its label.
-/

namespace MethodGraft.Code

open ClassFile Assembly Verify

structure Spot where
  offset : Nat
  op : Operation
  depth : Nat

namespace Assembler

variable {q : ConstantPool} {a b d : Assembler} {trace trace' : List Spot} {s : Spot} {l : Label}
    {p n : Nat}

/-! ## 1. Traces -/

/-- Control comes to the position with a stack of the depth, be it to an operation or to the end. -/
def Stands (a : Assembler) (trace : List Spot) (p depth : Nat) : Prop :=
  (∃ s ∈ trace, s.offset = p ∧ s.depth = depth) ∨
    (p = a.offset ∧ a.reachable = true ∧ depthOf a.stack = depth)

def Knows (a : Assembler) (l : Label) (depth : Nat) : Prop :=
  ∃ f, (a.labelState l).frame = some f ∧ depthOf f.stack = depth

def Flows (q : ConstantPool) (a : Assembler) (trace : List Spot) (s : Spot) : Prop :=
  ∃ t u r, s.op.slots? q = some (t, u) ∧ s.depth = t + r ∧
    (Body.goesOn s.op = true → a.Stands trace (s.offset + s.op.size) (u + r)) ∧
      ∀ l, s.op.target? = some l → a.Knows l (u + r)

structure Traced (q : ConstantPool) (a : Assembler) (trace : List Spot) : Prop where
  operations : a.operations.toList = trace.map Spot.op
  offset : a.offset = (trace.map fun s => s.op.size).sum
  laid :
    ∀ before s after, trace = before ++ s :: after → s.offset = (before.map fun s => s.op.size).sum
  flows : ∀ s ∈ trace, a.Flows q trace s
  labels : ∀ l p f, (a.labelState l).position = some p → (a.labelState l).frame = some f →
    a.Stands trace p (depthOf f.stack)
  handlers : ∀ h ∈ a.handlers.toList, a.Knows h.handler 1
  start : a.Stands trace 0 0

theorem traced_start (pool : ConstantPool) (receiver : Option String) (params : List FieldType) :
    (start pool receiver params).Traced q [] where
  operations := rfl
  offset := rfl
  laid before s after h := by simp at h
  flows := nofun
  labels := nofun
  handlers := nofun
  start := .inr ⟨rfl, rfl, rfl⟩

/-! ## 2. How traces grow -/

structure Brings (a b : Assembler) (trace trace' : List Spot) : Prop where
  spots : ∀ s ∈ trace, s ∈ trace'
  here : a.reachable = true → b.Stands trace' a.offset (depthOf a.stack)
  frames : ∀ l f, (a.labelState l).frame = some f → (b.labelState l).frame = some f

theorem Stands.mono {depth : Nat} (h : a.Stands trace p depth) (hb : a.Brings b trace trace') :
    b.Stands trace' p depth := by
  obtain ⟨s, hs, hp⟩ | ⟨rfl, hlive, rfl⟩ := h
  · exact .inl ⟨s, hb.spots s hs, hp⟩
  · exact hb.here hlive

theorem Knows.mono {depth : Nat} (h : a.Knows l depth) (hb : a.Brings b trace trace') :
    b.Knows l depth := by
  obtain ⟨f, hf, hdepth⟩ := h
  exact ⟨f, hb.frames l f hf, hdepth⟩

theorem Flows.mono (h : a.Flows q trace s) (hb : a.Brings b trace trace') : b.Flows q trace' s := by
  obtain ⟨t, u, r, hslots, hr, hnext, htarget⟩ := h
  exact ⟨t, u, r, hslots, hr, fun hon => (hnext hon).mono hb, fun l hl => (htarget l hl).mono hb⟩

/-- At most one operation is added. -/
theorem Traced.extend (ha : a.Traced q trace) (more : Option Spot)
    (hb : a.Brings b trace (trace ++ more.toList))
    (hoperations : b.operations.toList = a.operations.toList ++ more.toList.map Spot.op)
    (hoffset : b.offset = a.offset + (more.toList.map fun s => s.op.size).sum)
    (hmore : ∀ s ∈ more, s.offset = a.offset ∧ b.Flows q (trace ++ more.toList) s)
    (hlabels : ∀ l p f, (b.labelState l).position = some p → (b.labelState l).frame = some f →
      (a.labelState l).position = some p ∧ (a.labelState l).frame = some f ∨
        b.Stands (trace ++ more.toList) p (depthOf f.stack))
    (hhandlers : ∀ h ∈ b.handlers.toList, h ∈ a.handlers.toList ∨ b.Knows h.handler 1) :
    b.Traced q (trace ++ more.toList) where
  operations := by rw [hoperations, ha.operations, List.map_append]
  offset := by rw [hoffset, ha.offset, List.map_append, List.sum_append]
  laid before s after h := by
    cases more with
    | none => exact ha.laid before s after (by simpa using h)
    | some new =>
      -- the spot is the new one, or it stands among those that were there before
      rcases List.eq_nil_or_concat after with rfl | ⟨after, last, rfl⟩
      · obtain ⟨rfl, hlast⟩ := List.append_inj' h rfl
        cases hlast
        rw [(hmore s rfl).1, ha.offset]
      · rw [List.concat_eq_append, ← List.cons_append, ← List.append_assoc] at h
        exact ha.laid before s after (List.append_inj' h rfl).1
  flows s hs := by
    rcases List.mem_append.mp hs with hs | hs
    · exact (ha.flows s hs).mono hb
    · exact (hmore s (Option.mem_toList.mp hs)).2
  labels l p f hp hf := by
    rcases hlabels l p f hp hf with ⟨hp, hf⟩ | h
    · exact (ha.labels l p f hp hf).mono hb
    · exact h
  handlers h hh := by
    rcases hhandlers h hh with hh | h
    · exact (ha.handlers h hh).mono hb
    · exact h
  start := ha.start.mono hb

/-- No operation is added. -/
theorem Traced.still (ha : a.Traced q trace) (hb : a.Brings b trace trace)
    (hoperations : b.operations = a.operations) (hoffset : b.offset = a.offset)
    (hlabels : ∀ l p f, (b.labelState l).position = some p → (b.labelState l).frame = some f →
      (a.labelState l).position = some p ∧ (a.labelState l).frame = some f ∨
      b.Stands trace p (depthOf f.stack))
    (hhandlers : ∀ h ∈ b.handlers.toList, h ∈ a.handlers.toList ∨ b.Knows h.handler 1) :
    b.Traced q trace := by
  have hextend := ha.extend none (b := b) (by rwa [Option.toList_none, List.append_nil])
    (by rw [hoperations, Option.toList_none, List.map_nil, List.append_nil]) hoffset nofun
    (by rwa [Option.toList_none, List.append_nil]) hhandlers
  rwa [Option.toList_none, List.append_nil] at hextend

/-! ## 3. Operations -/

/-- The widths that are taken and put on the stack make up the depths. -/
theorem Draws.depth {ops : List Operation} {taken pushed : List Nat}
    (h : a.Draws b ops taken.length pushed)
    (hfits : taken <+: widthsOf a.stack) :
    ∃ r, depthOf a.stack = taken.sum + r ∧ depthOf b.stack = pushed.sum + r := by
  obtain ⟨rest, hrest⟩ := hfits
  refine ⟨rest.sum, ?_, ?_⟩
  · rw [depthOf, ← hrest, List.sum_append]
  · rw [depthOf, h.stack, ← hrest, List.drop_left, List.sum_append]

def spot (a : Assembler) (op : Operation) : Spot := ⟨a.offset, op, depthOf a.stack⟩

/-- Control comes to the operation that has been added with what the stack was before. -/
theorem stands_spot (op : Operation) : b.Stands (trace ++ [a.spot op]) a.offset (depthOf a.stack) :=
  .inl ⟨a.spot op, by simp, rfl, rfl⟩

theorem Traced.emit {op : Operation} (ha : a.Traced q trace)
    (hoperations : b.operations.toList = a.operations.toList ++ [op])
    (hoffset : b.offset = a.offset + op.size)
    (hflows : b.Flows q (trace ++ [a.spot op]) (a.spot op))
    (hframes : ∀ l f, (a.labelState l).frame = some f → (b.labelState l).frame = some f)
    (hlabels : ∀ l p f, (b.labelState l).position = some p → (b.labelState l).frame = some f →
      (a.labelState l).position = some p ∧ (a.labelState l).frame = some f)
    (hhandlers : b.handlers = a.handlers) : b.Traced q (trace ++ [a.spot op]) :=
  ha.extend (some (a.spot op))
    ⟨fun s hs => List.mem_append_left _ hs, fun _ => stands_spot op, hframes⟩
    hoperations hoffset (by rintro _ ⟨⟩; exact ⟨rfl, hflows⟩)
      (fun l p f hp hf => .inl (hlabels l p f hp hf))
    fun h hh => .inl (hhandlers ▸ hh)

theorem Traced.passage {op : Operation} {taken pushed : List Nat} (ha : a.Traced q trace)
    (h : a.Passage q b op taken pushed) : b.Traced q (trace ++ [a.spot op]) := by
  have hoffset : b.offset = a.offset + op.size := by simpa using h.draws.offset
  have hlabels := h.draws.labelState
  refine ha.emit h.draws.operations hoffset ?_ (fun l f hf => hlabels l ▸ hf)
    (fun l p f hp hf => ⟨hlabels l ▸ hp, hlabels l ▸ hf⟩) h.draws.handlers
  obtain ⟨r, hbefore, hafter⟩ := h.draws.depth h.fits
  refine ⟨_, _, r, h.slots, hbefore, fun _ => .inr ⟨hoffset.symm, ?_, hafter⟩, fun l hl => ?_⟩
  · rw [h.draws.reachable, h.draws.live (List.cons_ne_nil _ _)]
  · rw [show (a.spot op).op.target? = none from h.straight] at hl
    cases hl

theorem Traced.left {k : Option ValueKind} {taken : List Nat} (ha : a.Traced q trace)
    (h : a.Draws d [.ret k] taken.length []) (hfits : taken <+: widthsOf a.stack)
    (htaken : taken.sum = kindSlots k.toList) : d.left.Traced q (trace ++ [a.spot (.ret k)]) := by
  have hoffset : d.left.offset = a.offset + (Operation.ret k).size := by
    show d.offset = _
    simpa using h.offset
  have hlabels (l : Label) : d.left.labelState l = a.labelState l := h.labelState l
  refine ha.emit h.operations hoffset ?_ (fun l f hf => hlabels l ▸ hf)
    (fun l p f hp hf => ⟨hlabels l ▸ hp, hlabels l ▸ hf⟩) h.handlers
  obtain ⟨r, hbefore, -⟩ := h.depth hfits
  exact ⟨_, _, r, rfl, htaken ▸ hbefore, nofun, nofun⟩

/-! ## 4. Labels -/

structure Targets (a b : Assembler) (l : Label) (depth : Nat) : Prop where
  frames : ∀ l' f, (a.labelState l').frame = some f → (b.labelState l').frame = some f
  labels : ∀ l' p f, (b.labelState l').position = some p → (b.labelState l').frame = some f →
    (a.labelState l').position = some p ∧ (a.labelState l').frame = some f
  knows : b.Knows l depth

theorem targets_target {f : Frame} (hb : b.labels = a.labels.modify l.index fun s => s.target f)
    (hl : l.index < a.labels.size) (haccepts : (a.labelState l).Accepts (depthOf f.stack)) :
    a.Targets b l (depthOf f.stack) := by
  have hstate := labelState_modify (f := fun s => s.target f) hb hl
  have hframe : (b.labelState l).frame = some ((a.labelState l).frame.getD f) := by
    rw [hstate, if_pos rfl]
    rfl
  refine ⟨fun l' g hg => ?_, fun l' p g hp hg => ?_, ⟨_, hframe, ?_⟩⟩
  · by_cases hsame : l' = l
    · subst hsame
      rw [hframe, hg]
      rfl
    · rwa [hstate, if_neg hsame]
  · by_cases hsame : l' = l
    · subst hsame
      rw [hstate, if_pos rfl] at hp
      -- a label that has a position has a frame
      cases hknown : (a.labelState l').frame with
      | none => cases hp.symm.trans (haccepts.unplaced hknown)
      | some g' =>
        rw [hframe, hknown] at hg
        exact ⟨hp, hg⟩
    · rw [hstate, if_neg hsame] at hp hg
      exact ⟨hp, hg⟩
  · cases hknown : (a.labelState l).frame with
    | none => rfl
    | some g => exact haccepts.known g hknown

theorem Traced.jump {op : Operation} {taken : List Nat} (ha : a.Traced q trace)
    (hl : l.index < a.labels.size) (h : a.Jumping q d op l taken)
    (haccepts : (a.labelState l).Accepts (depthOf d.stack)) :
    Traced q { d.withJump op l (d.frameUpTo n) with reachable := Body.goesOn op }
    (trace ++ [a.spot op]) := by
  let b : Assembler := { d.withJump op l (d.frameUpTo n) with reachable := Body.goesOn op }
  have hlabels : b.labels = a.labels.modify l.index fun s => s.target (d.frameUpTo n) := by
    rw [← h.draws.labels]
    rfl
  have haims := targets_target hlabels hl haccepts
  have hoffset : b.offset = a.offset + op.size := by
    show d.offset + op.size = _
    rw [h.draws.offset]
    rfl
  have hoperations : b.operations.toList = a.operations.toList ++ [op] := by
    show (d.operations.push op).toList = _
    rw [Array.toList_push, h.draws.operations, List.append_nil]
  refine ha.emit (b := b) hoperations hoffset ?_ haims.frames haims.labels h.draws.handlers
  obtain ⟨r, hbefore, hafter⟩ := h.draws.depth h.fits
  have hafter : depthOf d.stack = 0 + r := hafter
  refine ⟨_, _, r, h.slots, hbefore, fun hon => .inr ⟨hoffset.symm, hon, hafter⟩, fun l' hl' => ?_⟩
  cases h.target.symm.trans hl'
  exact hafter ▸ haims.knows

theorem Traced.guard {h : HandlerRange} {pool : ConstantPool} {f : Frame} (ha : a.Traced q trace)
    (hl : h.handler.index < a.labels.size) (hf : depthOf f.stack = 1)
    (haccepts : (a.labelState h.handler).Accepts 1) :
    ({ a with pool }.withHandler h f).Traced q trace := by
  rw [← hf] at haccepts
  have haims := targets_target (a := a) (b := { a with pool }.withHandler h f) rfl hl haccepts
  refine ha.still ⟨fun s hs => hs, fun hlive => .inr ⟨rfl, hlive, rfl⟩, haims.frames⟩ rfl rfl
    (fun l p f hp hf => .inl (haims.labels l p f hp hf)) fun h' hh => ?_
  rcases List.mem_append.mp (Array.toList_push ▸ hh) with hold | hnew
  · exact .inl hold
  · cases List.mem_singleton.mp hnew
    exact .inr (hf ▸ haims.knows)

theorem Traced.settle {f : Frame} (ha : a.Traced q trace) (hl : l.index < a.labels.size)
    (hlabels : b.labels = a.labels.modify l.index fun s => s.settle a.offset (some f))
    (hcode : b.operations = a.operations ∧ b.offset = a.offset ∧ b.handlers = a.handlers)
    (hlive : b.reachable = true ∧ depthOf b.stack = depthOf f.stack)
    (hknown : ∀ g, (a.labelState l).frame = some g → g = f)
    (hhere : a.reachable = true → depthOf f.stack = depthOf a.stack) : b.Traced q trace := by
  have hstate := labelState_modify (f := fun s => s.settle a.offset (some f)) hlabels hl
  have harrives : b.Stands trace a.offset (depthOf f.stack) := .inr ⟨hcode.2.1.symm, hlive⟩
  -- a frame that was known stays, and control comes to the label here with that frame
  refine ha.still ⟨fun s hs => hs, fun h => hhere h ▸ harrives, fun l' g hg => ?_⟩ hcode.1 hcode.2.1
    (fun l' p g hp hg => ?_) fun h hh => .inl (hcode.2.2 ▸ hh)
  · by_cases hsame : l' = l
    · subst hsame
      rw [hstate, if_pos rfl, hknown g hg]
      rfl
    · rwa [hstate, if_neg hsame]
  · by_cases hsame : l' = l
    · subst hsame
      rw [hstate, if_pos rfl] at hp hg
      cases hp
      cases hg
      exact .inr harrives
    · rw [hstate, if_neg hsame] at hp hg
      exact .inl ⟨hp, hg⟩

theorem Traced.passBy (ha : a.Traced q trace) (hl : l.index < a.labels.size)
    (hunknown : (a.labelState l).frame = none) : (a.passedBy l).Traced q trace := by
  have hstate := labelState_passedBy hl
  refine ha.still ⟨fun s hs => hs, fun h => .inr ⟨rfl, h, rfl⟩, fun l' g hg => ?_⟩ rfl rfl
    (fun l' p g hp hg => ?_) fun h hh => .inl hh
  · by_cases hsame : l' = l
    · rw [hsame, hunknown] at hg
      cases hg
    · rwa [hstate, if_neg hsame]
  · by_cases hsame : l' = l
    · rw [hstate, if_pos hsame] at hg
      cases hg
    · rw [hstate, if_neg hsame] at hp hg
      exact .inl ⟨hp, hg⟩

theorem Traced.label (ha : a.Traced q trace) : a.labelled.Traced q trace := by
  refine ha.still ⟨fun s hs => hs, fun h => .inr ⟨rfl, h, rfl⟩, fun l g hg => ?_⟩ rfl rfl
    (fun l p g hp hg => ?_) fun h hh => .inl hh
  · rw [labelState_labelled, if_neg fun hl => ?_]
    · exact hg
    · rw [labelState_unmade (Nat.le_of_eq hl.symm)] at hg
      cases hg
  · rw [labelState_labelled] at hp hg
    split at hp
    next => cases hp
    next hl =>
      rw [if_neg hl] at hg
      exact .inl ⟨hp, hg⟩

/-! ## 5. Calls -/

/-- The locals do not matter. -/
theorem Traced.withLocals (ha : a.Traced q trace) (locals : Array VerificationType)
    (maxLocals : UInt16) : Traced q { a with locals, maxLocals } trace :=
  ⟨ha.operations, ha.offset, ha.laid, ha.flows, ha.labels, ha.handlers, ha.start⟩

def Adding (a : Assembler) (trace trace' : List Spot) : Prop :=
  ∀ s ∈ trace', s ∈ trace ∨ (a.reachable = true ∧ s.depth = depthOf a.stack)

theorem adding_spot (hlive : a.reachable = true) (op : Operation) :
    a.Adding trace (trace ++ [a.spot op]) := by
  intro s hs
  refine (List.mem_append.mp hs).imp_right fun hnew => ⟨hlive, ?_⟩
  rw [List.mem_singleton.mp hnew]
  rfl

theorem Traced.step {c : Call} (ha : a.Traced q trace)
    (hl : ∀ l ∈ c.labels, l.index < a.labels.size)
    (haccepts : ∀ l stack, c.edge? a = some (l, stack) → (a.labelState l).Accepts (depthOf stack))
    (h : CallStep q a c b) : ∃ trace', b.Traced q trace' ∧ a.Adding trace trace' := by
  -- a call adds an operation at the current depth, or none
  have hstill (hb : b.Traced q trace) : ∃ trace', b.Traced q trace' ∧ a.Adding trace trace' :=
    ⟨trace, hb, fun s hs => .inl hs⟩
  have hadded {op : Operation} (hlive : a.reachable = true)
      (hb : b.Traced q (trace ++ [a.spot op])) :
      ∃ trace', b.Traced q trace' ∧ a.Adding trace trace' := ⟨_, hb, adding_spot hlive op⟩
  cases h with
  | idle => exact hstill ha
  | crosses h =>
    obtain ⟨op, taken, pushed, hpassage, -⟩ := h
    exact hadded (hpassage.draws.live (List.cons_ne_nil _ _)) (ha.passage hpassage)
  | stores hpassage =>
    exact hadded (hpassage.draws.live (List.cons_ne_nil _ _)) ((ha.passage hpassage).withLocals _ _)
  | allocates | truncates => exact hstill (ha.withLocals _ _)
  | @returns t d hdraws hfits =>
    have htaken : (t.toList.map FieldType.slots).sum =
        kindSlots (t.map ValueKind.ofType).toList := by
      cases t <;> simp [kindSlots]
    exact hadded (hdraws.live (List.cons_ne_nil _ _)) (ha.left hdraws hfits htaken)
  | makes => exact hstill ha.label
  | jumps hjumped hedge hdepth =>
    exact hadded hjumped.live
      (ha.jump (hl _ (Call.mem_labels_of_edge hedge)) hjumped (hdepth ▸ haccepts _ _ hedge))
  -- where control goes on by itself, the depth has to be that of the known frame
  | @resumes l f hunplaced hknown =>
    refine hstill
      (ha.settle (hl l List.mem_cons_self) (f := f) rfl ⟨rfl, rfl, rfl⟩ ⟨rfl, rfl⟩ ?_
        fun hlive => ?_)
    · intro g hg
      exact Option.some.inj (hg.symm.trans hknown)
    · exact (haccepts l a.stack (if_pos ⟨hlive, hunplaced⟩)).known f hknown
  | @marks l n _ hunknown hlive =>
    refine hstill
      (ha.settle (hl l List.mem_cons_self) (f := a.frameUpTo n) rfl ⟨rfl, rfl, rfl⟩ ⟨hlive, rfl⟩ ?_
      fun _ => rfl)
    intro g hg
    rw [hunknown] at hg
    cases hg
  | passesBy _ hunknown _ => exact hstill (ha.passBy (hl _ List.mem_cons_self) hunknown)
  | @guards start stop handler catchType _ _ _ _ hedge =>
    obtain ⟨t, hedge⟩ := hedge
    exact hstill (ha.guard (h := ⟨start, stop, handler, _⟩) (hl handler (by simp [Call.labels])) rfl
      (haccepts handler [.object t] hedge))

theorem counted_step {c : Call} (ha : a.Counted) (h : CallStep q a c b) : b.Counted := by
  cases h with
  | idle | allocates | truncates | makes | marks | passesBy | guards => exact ha
  | crosses h =>
    obtain ⟨op, taken, pushed, hpassage, -⟩ := h
    exact hpassage.draws.counted
  | stores hpassage => exact hpassage.draws.counted
  | returns => exact rfl
  | jumps hjumped => exact hjumped.draws.counted
  | @resumes l f => exact stackWidth_eq f.stack

end Assembler

/-! ## 6. Runs -/

namespace Assembly

open Assembler

variable {q : ConstantPool} {a b : Assembler}

theorem Throughout.imp {H H' : Assembler → Call → Prop} (himp : ∀ a c, H a c → H' a c)
    {calls : List Call} (h : Throughout H a calls) : Throughout H' a calls := by
  induction calls generalizing a with
  | nil => trivial
  | cons c calls ih => exact ⟨himp a c h.1, fun hok => ih (h.2 hok)⟩

/-- What every call preserves that has the property holds all through a run in which all calls have
it, and then the other calls are still to come. -/
theorem runAll_preserves {P : Assembler → Prop} {H : Assembler → Call → Prop}
    (hstep : ∀ a c b, P a → H a c →
      (∀ l ∈ c.labels, l.index < a.labels.size) → c.run.run.run a = (.ok ⟨⟩, b) → b.pool ≤ q →
        P b ∧ b.labels.size = a.labels.size + c.made)
    {calls rest : List Call} (ha : P a) (hl : Named a.labels.size (calls ++ rest))
    (hcalls : Throughout H a (calls ++ rest)) (h : (runAll calls).run.run a = (.ok ⟨⟩, b))
    (hq : b.pool ≤ q) :
    P b ∧ Throughout (fun a _ => P a) a calls ∧ Named b.labels.size rest ∧ Throughout H b rest := by
  -- the hypothesis speaks of the state that the first call leaves
  induction calls generalizing a with
  | nil =>
    cases h
    exact ⟨ha, trivial, hl, hcalls⟩
  | cons c calls ih =>
    obtain ⟨_, t, hrun, h⟩ := run_bind_eq_ok.mp h
    obtain ⟨hc, hcalls⟩ := hcalls
    rw [hrun] at hcalls
    obtain ⟨ht, hsize⟩ :=
      hstep a c t ha hc hl.1 hrun ((pool_le_of_requests (requests_runAll calls) h).trans hq)
    obtain ⟨hb, hmeanwhile, hrest⟩ := ih ht (hsize ▸ hl.2) (hcalls rfl) h
    refine ⟨hb, ⟨ha, fun _ => ?_⟩, hrest⟩
    rw [hrun]
    exact hmeanwhile

structure Tracked (q : ConstantPool) (a : Assembler) (trace : List Spot) : Prop where
  consistent : a.Consistent
  counted : a.Counted
  pool : a.pool.WellFormed
  traced : a.Traced q trace

theorem Tracked.step {c : Call} {trace : List Spot} (ha : Tracked q a trace) (hfits : c.Fits a)
    (hagrees : c.Agrees a) (hl : ∀ l ∈ c.labels, l.index < a.labels.size)
    (h : c.run.run.run a = (.ok ⟨⟩, b)) (hq : b.pool ≤ q) :
    (∃ trace', Tracked q b trace' ∧ a.Adding trace trace') ∧
    b.labels.size = a.labels.size + c.made := by
  obtain ⟨hconsistent, hsize⟩ := c.consistent ha.consistent hl h
  have hstep := c.callStep ha.counted ha.pool hl hfits hq h
  have haccepts (l : Label) (stack : List VerificationType) (hedge : c.edge? a = some (l, stack)) :
      (a.labelState l).Accepts (depthOf stack) :=
    (hagrees _ hedge).accepts fun _ => c.length_of_edge ha.counted hl h hedge
  obtain ⟨trace', htraced, hadding⟩ := ha.traced.step hl haccepts hstep
  have hpool := c.requests.wellFormed ha.pool
  rw [h] at hpool
  exact ⟨⟨trace', ⟨hconsistent, counted_step ha.counted hstep, hpool, htraced⟩, hadding⟩, hsize⟩

/-- The calls fit and agree with what is known. -/
abbrev Sound (a : Assembler) (c : Call) : Prop := c.Fits a ∧ c.Agrees a

theorem tracked_start {pool : ConstantPool} (hpool : pool.WellFormed) (receiver : Option String)
    (params : List FieldType) : Tracked q (start pool receiver params) [] :=
  ⟨consistent_start pool receiver params, rfl, hpool, traced_start pool receiver params⟩

theorem tracked_runAll {calls rest : List Call} {trace : List Spot} (ha : Tracked q a trace)
    (hl : Named a.labels.size (calls ++ rest)) (hcalls : Throughout Sound a (calls ++ rest))
    (h : (runAll calls).run.run a = (.ok ⟨⟩, b)) (hq : b.pool ≤ q) :
    (∃ trace', Tracked q b trace') ∧ Named b.labels.size rest ∧ Throughout Sound b rest := by
  have hrun :=
    runAll_preserves (P := fun a => ∃ trace, Tracked q a trace) (H := Sound) ?_ ⟨trace, ha⟩ hl
    hcalls h hq
  · exact ⟨hrun.1, hrun.2.2⟩
  · rintro a c b ⟨trace, ha⟩ hc hl hrun hq
    obtain ⟨⟨trace', hb, -⟩, hsize⟩ := ha.step hc.1 hc.2 hl hrun hq
    exact ⟨⟨trace', hb⟩, hsize⟩

theorem runAll_append (calls rest : List Call) :
    runAll (calls ++ rest) = runAll calls >>= fun _ => runAll rest :=
  List.forM_append

/-- A call that would bring another depth to a label is refused. -/
theorem fails_runAll {calls rest : List Call} {c : Call} {trace : List Spot}
    (ha : Tracked b.pool a trace) (hl : Named a.labels.size (calls ++ c :: rest))
    (hcalls : Throughout Sound a (calls ++ c :: rest))
    (h : (runAll calls).run.run a = (.ok ⟨⟩, b)) {l : Label} {stack : List VerificationType}
    {f : Frame} (hedge : c.edge? b = some (l, stack)) (hf : (b.labelState l).frame = some f)
    (hne : depthOf f.stack ≠ depthOf stack) :
    Fails (runAll (calls ++ c :: rest)) ⟨.stackMismatch l.index, []⟩ a := by
  obtain ⟨⟨trace', hb⟩, hnamed, hsound, -⟩ := tracked_runAll ha hl hcalls h le_rfl
  have hlength := (hsound.2 _ hedge).length_ne hf hne
  have hfails := c.fails hb.counted (hnamed.1 l (Call.mem_labels_of_edge hedge)) hedge hf hlength
  rw [runAll_append]
  exact .after h hfails.bind

end Assembly

end MethodGraft.Code
