import MethodGraft.Proofs.Assembly.Shapes

/-!
# Proofs.Assembly.Depth — how deep the operand stack gets

The slots of the operand stack are counted in sixteen bits.  As long as there are not more of them,
the highest count is at least the depth of every stack that control comes with, and of those that
labels expect.
-/

namespace MethodGraft.Code

open ClassFile Verify

variable {f g : Frame}

/-! ## 1. Depths -/

theorem VerificationType.toNat_width {t : VerificationType} {k : ValueKind} (h : t.kind? = some k) :
    t.width.toNat = k.width := by
  cases t <;> cases h <;> rfl

/-- The count of the slots wraps. -/
theorem toNat_stackWidth_mod : ∀ (stack : List VerificationType) (ks : List ValueKind),
    kindsOf stack = ks.map some → (stackWidth stack).toNat = (ks.map ValueKind.width).sum % 65536
  | [], ks, h => by
    obtain rfl : ks = [] := List.map_eq_nil_iff.mp h.symm
    rfl
  | t :: stack, ks, h => by
    obtain ⟨k, ks, rfl, hk, hks⟩ := List.map_eq_cons_iff.mp h.symm
    have ih := toNat_stackWidth_mod stack ks hks.symm
    show (t.width + stackWidth stack).toNat = _
    rw [UInt16.toNat_add, ih, VerificationType.toNat_width hk.symm, List.map_cons, List.sum_cons]
    exact Nat.add_mod_mod _ _ _

theorem Frame.Filled.toNat_stackWidth (h : f.Filled) (hfits : f.kinds.depth ≤ 65535) :
    (stackWidth f.stack).toNat = f.kinds.depth := by
  obtain ⟨ks, hks⟩ := h
  have hdepth : f.kinds.depth = (ks.map ValueKind.width).sum := by
    unfold KindFrame.depth Frame.kinds
    rw [hks, List.filterMap_map]
    simp
  rw [toNat_stackWidth_mod f.stack ks hks, ← hdepth]
  exact Nat.mod_eq_of_lt (Nat.lt_succ_of_le hfits)

theorem Frame.depth_congr (h : kindsOf f.stack = kindsOf g.stack) :
    f.kinds.depth = g.kinds.depth := by
  unfold KindFrame.depth Frame.kinds
  rw [h]

theorem Frame.depth_suffix (h : kindsOf f.stack <:+ kindsOf g.stack) :
    f.kinds.depth ≤ g.kinds.depth := by
  obtain ⟨above, habove⟩ := h
  unfold KindFrame.depth Frame.kinds
  rw [← habove, List.filterMap_append, List.map_append, List.sum_append]
  exact Nat.le_add_left _ _

/-- A jump takes operands and pushes none. -/
theorem Operation.Carries.suffix_of_jump {op : Operation} {l : Label} {pool : ConstantPool}
    {before after : List VerificationType} (h : op.Carries pool before after)
    (htarget : op.target? = some l) : kindsOf after <:+ kindsOf before := by
  obtain ⟨taken, left, hbefore, hafter, heffect⟩ := h
  rw [hbefore, hafter]
  cases op with
  | goto =>
    cases heffect
    exact List.suffix_rfl
  | branch test =>
    rw [takeKinds_eq_some_iff.mp heffect, List.map_append]
    exact List.suffix_append _ _
  | _ => cases htarget

/-! ## 2. Bodies -/

namespace Assembler

variable {a b : Assembler}

/-- The stack here, if control gets here, and those of all labels are within what has been
counted. -/
structure Bounded (a : Assembler) : Prop where
  here : a.reachable = true → a.frame.kinds.depth ≤ a.maxStack.toNat
  labels : ∀ l f, (a.labelState l).frame = some f → f.kinds.depth ≤ a.maxStack.toNat

theorem Bounded.step_here (ha : a.Bounded) (h : Step a b) (hfilled : b.frame.Filled)
    (hfits : b.reachable = true → b.frame.kinds.depth ≤ 65535)
    (hreach : a.reachable = true ∨ b.reachable = true) :
    b.frame.kinds.depth ≤ b.maxStack.toNat := by
  have hmax : a.maxStack.toNat ≤ b.maxStack.toNat := UInt16.le_iff_toNat_le.mp h.extends.maxStack
  cases h with
  | pass h =>
    -- either the count was compared with the highest one so far, or nothing was pushed
    rcases h.maxStack.2 with hcounted | hsuffix
    · rw [h.stackSlots, UInt16.le_iff_toNat_le] at hcounted
      have hwidth := hfilled.toNat_stackWidth (hfits h.onward)
      exact hwidth ▸ hcounted
    · exact Nat.le_trans (Frame.depth_suffix (f := b.frame) (g := a.frame) hsuffix)
        (Nat.le_trans (ha.here h.reachable) hmax)
  | @jump op l stack onward reachable op_eq carries =>
    have htarget : op.target? = some l := by rcases op_eq with ⟨rfl, -⟩ | ⟨⟨test, rfl⟩, -⟩ <;> rfl
    have hsuffix : kindsOf (a.jumped op l stack onward).frame.stack <:+ kindsOf a.frame.stack :=
      carries.suffix_of_jump htarget
    exact Nat.le_trans (Frame.depth_suffix hsuffix) (ha.here reachable)
  | ret => exact Nat.zero_le _
  | newLabel | passBy | guard | truncate => exact ha.here (hreach.elim id id)
  | @place l f _ _ _ known _ live =>
    -- the frame is that of an earlier jump, or what is there now
    cases hframe : (a.labelState l).frame with
    | none =>
      show f.kinds.depth ≤ a.maxStack.toNat
      rw [(live hframe).2]
      exact ha.here (live hframe).1
    | some g =>
      show f.kinds.depth ≤ a.maxStack.toNat
      rw [← known g hframe]
      exact ha.labels l g hframe

theorem Bounded.step (ha : a.Bounded) (h : Step a b) (hfilled : b.frame.Filled)
    (hfits : b.reachable = true → b.frame.kinds.depth ≤ 65535) : b.Bounded where
  here hb := ha.step_here h hfilled hfits (.inr hb)
  labels l f hf := by
    have hmax : a.maxStack.toNat ≤ b.maxStack.toNat := UInt16.le_iff_toNat_le.mp h.extends.maxStack
    rcases h.frame_cases hf with hold | ⟨rfl, hreach⟩ | ⟨hroom, name, rfl⟩
    · exact Nat.le_trans (ha.labels l f hold) hmax
    · exact ha.step_here h hfilled hfits hreach
    · exact Nat.le_trans (UInt16.le_iff_toNat_le.mp hroom) hmax

end Assembler

end MethodGraft.Code
