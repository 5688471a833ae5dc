import MethodGraft.Proofs.Assembly.Control
import MethodGraft.Proofs.Assembly.Shapes

/-!
# Proofs.Assembly.Meeting — where control comes together

Several labels may be placed at one position, each with a frame of its own.  These have the same
stack, and those of later labels have the locals of the earlier ones and maybe more.  Control that
passes the position has the locals that are common to them all.
-/

namespace MethodGraft.Code

open ClassFile Verify

variable {f g k : Frame}

/-! ## 1. Frames with fewer locals -/

structure Frame.Narrows (f g : Frame) : Prop where
  locals : kindsOf f.locals.toList <+: kindsOf g.locals.toList
  stack : kindsOf f.stack = kindsOf g.stack

namespace Frame.Narrows

theorem refl (f : Frame) : f.Narrows f where
  locals := List.prefix_rfl
  stack := rfl

theorem trans (hfg : f.Narrows g) (hgk : g.Narrows k) : f.Narrows k where
  locals := hfg.locals.trans hgk.locals
  stack := hfg.stack.trans hgk.stack

theorem ofSameKinds (h : f.SameKinds g) : f.Narrows g where
  locals := h.locals ▸ List.prefix_rfl
  stack := h.stack

/-- Frames that narrow to the same one differ in the number of locals only. -/
theorem antisymm_size (h : f.Narrows g) (hsize : g.locals.size ≤ f.locals.size) : g.Narrows f where
  locals := by
    have hlength : (kindsOf g.locals.toList).length ≤ (kindsOf f.locals.toList).length := by
      rwa [length_kindsOf, length_kindsOf, Array.length_toList, Array.length_toList]
    rewrite [h.locals.eq_of_length_le hlength]
    exact List.prefix_rfl
  stack := h.stack.symm

end Frame.Narrows

namespace Assembler

variable {a b : Assembler} {l l' : Label} {p : Nat} {op : Operation}

/-! ## 2. Labels that give a position its frame -/

/-- A jump or a handler leads to the label, which is at the position and has the frame. -/
structure Settles (a : Assembler) (l : Label) (p : Nat) (f : Frame) : Prop where
  targeted : (a.labelState l).targeted = true
  position : (a.labelState l).position = some p
  frame : (a.labelState l).frame = some f

theorem Settles.later (h : a.Settles l p f) (hab : a.Extends b) : b.Settles l p f := by
  have hsame := hab.placed l p h.position
  exact ⟨hsame ▸ h.targeted, hsame ▸ h.position, hsame ▸ h.frame⟩

/-- A label that gives a position its frame has done so before, or is placed by the step. -/
theorem Step.settles (h : Step a b) (hs : b.Settles l p f) :
    a.Settles l p f ∨ p = a.offset ∧ (a.labelState l).targeted = true ∧ Arrives a b l f := by
  obtain ⟨htargeted, hposition, hframe⟩ := hs
  cases h.label l with
  | kept state =>
    rw [state] at htargeted hposition hframe
    exact .inl ⟨htargeted, hposition, hframe⟩
  | made _ state =>
    rw [state] at htargeted
    cases htargeted
  | aimed unplaced state =>
    rw [state, LabelState.target, unplaced] at hposition
    cases hposition
  | placed state arrives =>
    rw [state] at htargeted hposition hframe
    cases hposition
    cases hframe
    exact .inr ⟨rfl, htargeted, arrives⟩
  | passed _ _ _ _ state =>
    rw [state] at hframe
    cases hframe

/-! ## 3. Steps with and without an instruction -/

structure Grows (op : Operation) (a b : Assembler) : Prop where
  reachable : a.reachable = true
  operations : b.operations = a.operations.push op
  offset : b.offset = a.offset + op.size
  handlers : b.handlers = a.handlers
  locals : op.LocalsFit (kindsOf a.locals.toList) (kindsOf b.locals.toList)
  onward : b.reachable = Body.goesOn op
  effect : ∃ taken left, kindsOf a.stack = taken.map some ∧ op.effect b.pool taken = some left ∧
    (b.reachable = true → kindsOf b.stack = left.map some) ∧
    ∀ l, op.target? = some l →
      ∃ f, (b.labelState l).targeted = true ∧ (b.labelState l).frame = some f ∧
      f.Holds (kindsOf a.locals.toList) left

/-- `b` has the code of `a`.  Control that comes to it keeps its stack and its first locals, or is
that of a jump. -/
structure Stays (a b : Assembler) : Prop where
  offset : b.offset = a.offset
  onward : a.reachable = true → b.reachable = true ∧ b.frame.Narrows a.frame
  revived : a.reachable = false → b.reachable = true → ∃ l f, b.Settles l b.offset f

theorem Passes.grows (h : Passes op a b) : Grows op a b where
  reachable := h.reachable
  operations := h.operations
  offset := h.offset
  handlers := h.handlers
  locals := h.locals
  onward := by
    have hstraight := h.straight
    have hreturn := h.noReturn
    rw [h.onward]
    cases op with
    | goto => cases hstraight
    | ret k => exact absurd rfl (hreturn k)
    | _ => rfl
  effect := by
    obtain ⟨taken, left, htaken, hleft, heffect⟩ := h.carries
    refine ⟨taken, left, htaken, heffect, fun _ => hleft, fun l hl => ?_⟩
    rw [h.straight] at hl
    cases hl

theorem grows_jumped {stack : List VerificationType} {onward : Bool}
    (reachable : a.reachable = true)
    (op_eq : op = .goto l ∧ onward = false ∨ (∃ test, op = .branch test l) ∧ onward = true)
    (carries : op.Carries a.pool a.stack stack) (awaits : a.Awaits l)
    (known : ∀ f, (a.labelState l).frame = some f → f.SameKinds ⟨a.locals, stack⟩) :
    Grows op a (a.jumped op l stack onward) where
  reachable := reachable
  operations := rfl
  offset := rfl
  handlers := rfl
  locals := by rcases op_eq with ⟨rfl, -⟩ | ⟨⟨test, rfl⟩, -⟩ <;> rfl
  onward := by rcases op_eq with ⟨rfl, rfl⟩ | ⟨⟨test, rfl⟩, rfl⟩ <;> rfl
  effect := by
    obtain ⟨taken, left, htaken, hleft, heffect⟩ := carries
    refine ⟨taken, left, htaken, heffect, fun _ => hleft, fun l' hl' => ?_⟩
    have hl : l' = l := by
      rcases op_eq with ⟨rfl, -⟩ | ⟨⟨test, rfl⟩, -⟩ <;> cases hl' <;> rfl
    rw [hl, labelState_jumped awaits.made, if_pos rfl]
    refine ⟨_, rfl, rfl, ?_⟩
    -- a label that was known keeps its frame, which has the same kinds
    cases hframe : (a.labelState l).frame with
    | none => exact ⟨rfl, hleft⟩
    | some f =>
      have hsame := known f hframe
      exact ⟨hsame.locals, hsame.stack.trans hleft⟩

/-- A step adds an instruction or none. -/
theorem Step.grows_or_stays (ha : a.Valid) (h : Step a b) : (∃ op, Grows op a b) ∨ Stays a b := by
  have hkeep (hframe : b.frame.Narrows a.frame) (hreach : b.reachable = a.reachable)
      (hoffset : b.offset = a.offset) : Stays a b :=
    ⟨hoffset, fun hr => ⟨hreach.trans hr, hframe⟩, fun hdead hlive => by
      rw [hreach, hdead] at hlive
      cases hlive⟩
  have hext := h.extends
  cases h with
  | pass h => exact .inl ⟨_, h.grows⟩
  | jump reachable op_eq carries awaits known =>
    exact .inl ⟨_, grows_jumped reachable op_eq carries awaits known⟩
  | @ret k reachable effect =>
    obtain ⟨taken, left, htaken, heffect⟩ := effect
    refine .inl ⟨.ret k, reachable, rfl, rfl, rfl, rfl, rfl, taken, left, htaken, heffect, ?_, ?_⟩
    · intro hlive
      cases hlive
    · intro l hl
      cases hl
  | newLabel | passBy | guard => exact .inr (hkeep (.refl _) rfl rfl)
  | @truncate length => exact .inr (hkeep ⟨kindsOf_take a.locals length, rfl⟩ rfl rfl)
  | @place l f made unplaced length known here live =>
    refine .inr ⟨rfl, fun hr => ⟨rfl, .ofSameKinds (here hr)⟩, fun hdead _ => ⟨l, f, ?_⟩⟩
    -- control does not come from the instruction before, so a jump or a handler must have given the
    -- label its frame
    have hframe : (a.labelState l).frame.isSome := by
      cases hframe : (a.labelState l).frame with
      | none =>
        rw [(live hframe).1] at hdead
        cases hdead
      | some g => rfl
    have hstate : (a.placed l f).labelState l = _ := (labelState_placed made l).trans (if_pos rfl)
    refine ⟨hext.targeted l ((ha.labels l).aimed unplaced hframe), ?_, ?_⟩
    · rw [hstate]
      rfl
    · rw [hstate]
      rfl

theorem Grows.offset_lt (h : Grows op a b) : a.offset < b.offset := by
  rw [h.offset]
  exact Nat.lt_add_of_pos_right op.size_pos

/-- No label is placed yet where new code ends. -/
theorem Grows.not_settles (h : Grows op a b) (hvalid : a.Valid) (hstep : Step a b) :
    ¬b.Settles l b.offset f := by
  intro hs
  rcases hstep.settles hs with hold | ⟨-, -, hnew⟩
  · exact absurd ((hvalid.labels l).position_le _ hold.position) (Nat.not_le_of_lt h.offset_lt)
  · exact absurd hnew.offset (Nat.ne_of_gt h.offset_lt)

/-! ## 4. Labels at one position -/

structure Aligned (a : Assembler) : Prop where
  /-- Control comes to the labels that are placed where the code ends. -/
  met : ∀ l f, a.Settles l a.offset f → a.reachable = true ∧ a.frame.Narrows f
  order : ∀ l l' p f g, a.Settles l p f → a.Settles l' p g → l.index ≤ l'.index → f.Narrows g

theorem Aligned.step_order (ha : a.Aligned) (hvalid : a.Valid) (h : Step a b) {l l' : Label}
    {p : Nat} {f g : Frame} (hf : b.Settles l p f) (hg : b.Settles l' p g)
    (hle : l.index ≤ l'.index) : f.Narrows g := by
  rcases h.settles hf with hold | ⟨rfl, -, hnew⟩ <;>
    rcases h.settles hg with hold' | ⟨hp, htargeted, hnew'⟩
  · exact ha.order l l' p f g hold hold' hle
  · -- the label made first was placed before the other one.  Control came to both with the same
    -- locals, of which the second keeps at least as many, so that neither keeps more than the other
    subst hp
    obtain ⟨hreach, hnarrows⟩ := ha.met l f hold
    have hne : l.index ≠ l'.index := by
      intro heq
      have hposition := hold.position
      rw [show l = l' by cases l; cases l'; exact congrArg Label.mk heq, hnew'.unplaced]
        at hposition
      cases hposition
    have hlength := hnew'.first htargeted l (Nat.lt_of_le_of_ne hle hne) hold.position
    rw [← hnew'.length, ← (hvalid.labels l).length f hold.frame] at hlength
    exact (Frame.Narrows.trans (.ofSameKinds (hnew'.here hreach)) hnarrows).antisymm_size hlength
  · obtain ⟨hreach, hnarrows⟩ := ha.met l' g hold'
    exact (Frame.Narrows.ofSameKinds (hnew.here hreach)).trans hnarrows
  · rw [← hnew.frame, ← hnew'.frame]
    exact .refl _

theorem Aligned.step (ha : a.Aligned) (hvalid : a.Valid) (h : Step a b) : b.Aligned where
  met l f hs := by
    rcases h.grows_or_stays hvalid with ⟨op, hgrows⟩ | hstays
    · exact absurd hs (hgrows.not_settles hvalid h)
    · rcases h.settles hs with hold | ⟨-, -, hnew⟩
      · rw [hstays.offset] at hold
        obtain ⟨hreach, hnarrows⟩ := ha.met l f hold
        obtain ⟨hreach', hnarrows'⟩ := hstays.onward hreach
        exact ⟨hreach', hnarrows'.trans hnarrows⟩
      · rw [hnew.frame]
        exact ⟨hnew.onward, .refl f⟩
  order _ _ _ _ _ hf hg hle := ha.step_order hvalid h hf hg hle

theorem Aligned.builds (ha : a.Aligned) (hvalid : a.Valid) (h : Builds a b) : b.Aligned := by
  induction h with
  | refl => exact ha
  | tail hab hstep ih => exact ih.step (hvalid.builds hab) hstep

end Assembler

end MethodGraft.Code
