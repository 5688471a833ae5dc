import MethodGraft.Proofs.Assembly.Calls
import MethodGraft.Proofs.Assembly.Quiet
import MethodGraft.Proofs.Typed.Assignments
import MethodGraft.Typed.Emit

/-!
# Proofs.Emission.Confinement — which labels code jumps to

Code for an expression jumps to no label that was made before it.  Code for a condition jumps to one
such label, the one that it is given.
-/

namespace MethodGraft

open ClassFile Code Assembly Assembler

/-! ## 1. Jumps to a label -/

namespace Code.Assembler

variable {a b c : Assembler} {op : Operation} {f : Frame} {l : Label}

def jumpsTo (a : Assembler) (l : Label) : Nat :=
  a.operations.toList.countP fun op => op.target? = some l

theorem jumpsTo_append {ops : List Operation} (h : b.operations.toList = a.operations.toList ++ ops)
    (l : Label) : b.jumpsTo l = a.jumpsTo l + ops.countP fun op => op.target? = some l := by
  unfold jumpsTo
  rw [h, List.countP_append]

/-- Operations that lead straight on jump nowhere. -/
theorem Continues.jumpsTo (h : a.Continues b) (l : Label) : b.jumpsTo l = a.jumpsTo l := by
  obtain ⟨ops, hops, -, hall⟩ := h.operations
  rw [jumpsTo_append hops, List.countP_eq_zero.mpr fun op hop => ?_, Nat.add_zero]
  simp [(hall op hop).2]

theorem Continues.offset_le (h : a.Continues b) : a.offset ≤ b.offset := by
  obtain ⟨_, -, hoffset, -⟩ := h.operations
  omega

/-- A jump leads to the label where one did before, or where one has been added. -/
theorem leadsTo_iff_jumpsTo (hab : a.Extends b) (hhandlers : b.handlers = a.handlers) (l : Label) :
    b.LeadsTo l ↔ a.LeadsTo l ∨ a.jumpsTo l < b.jumpsTo l := by
  obtain ⟨ops, hops⟩ := hab.operations
  rw [leadsTo_append ops [] hops.symm (by rw [hhandlers, List.append_nil]),
    jumpsTo_append hops.symm, Nat.lt_add_right_iff_pos, List.countP_pos_iff]
  simp

theorem jumpsTo_le (hab : a.Extends b) (l : Label) : a.jumpsTo l ≤ b.jumpsTo l := by
  obtain ⟨ops, hops⟩ := hab.operations
  rw [jumpsTo_append hops.symm]
  exact Nat.le_add_right _ _

/-- Since it was made, the label has been aimed at if and only if it has been jumped to. -/
theorem targeted_iff_jumpsTo (ha : a.Consistent) (hb : b.Consistent) (hab : a.labelled.Extends b)
    (hhandlers : b.handlers = a.handlers) : (b.labelState ⟨a.labels.size⟩).targeted = true ↔
      a.jumpsTo ⟨a.labels.size⟩ < b.jumpsTo ⟨a.labels.size⟩ := by
  have hunaimed : ¬a.labelled.LeadsTo ⟨a.labels.size⟩ := by
    rw [← (ha.advances (advances_labelled ha)).targeted, labelState_next]
    nofun
  rw [hb.targeted, leadsTo_iff_jumpsTo hab hhandlers, or_iff_right hunaimed]
  rfl

structure Spares (used : List Label) (a b : Assembler) : Prop where
  consistent : b.Consistent
  labels : a.labels.size ≤ b.labels.size
  offset : a.offset ≤ b.offset
  jumpsTo : ∀ l, l.index < a.labels.size → l ∉ used → b.jumpsTo l = a.jumpsTo l

theorem Spares.trans {used used' : List Label} (hab : Spares used a b) (hbc : Spares used' b c) :
    Spares (used ++ used') a c where
  consistent := hbc.consistent
  labels := Nat.le_trans hab.labels hbc.labels
  offset := Nat.le_trans hab.offset hbc.offset
  jumpsTo l hl hunused := by
    rw [List.mem_append, not_or] at hunused
    rw [hbc.jumpsTo l (Nat.lt_of_lt_of_le hl hab.labels) hunused.2, hab.jumpsTo l hl hunused.1]

theorem Spares.mono {used used' : List Label} (h : Spares used a b) (hsub : used ⊆ used') :
    Spares used' a b :=
  { h with jumpsTo := fun l hl hunused => h.jumpsTo l hl fun hmem => hunused (hsub hmem) }

theorem Continues.spares (ha : a.Consistent) (h : a.Continues b) : Spares [] a b where
  consistent := ha.advances h.advances
  labels := Nat.le_of_eq (by rw [h.labels])
  offset := h.offset_le
  jumpsTo l _ _ := h.jumpsTo l

/-- The code between `a` and `b` ends in its one jump to the label, behind which control goes on or
not. -/
structure EndsInJump (a b : Assembler) (l : Label) (onward : Bool) : Prop where
  spares : Spares [l] a b
  jumpsTo : b.jumpsTo l = a.jumpsTo l + 1
  offset : a.offset < b.offset
  reachable : b.reachable = onward

theorem EndsInJump.behind {onward : Bool} (hab : Spares [] a b) (hl : l.index < a.labels.size)
    (h : EndsInJump b c l onward) : EndsInJump a c l onward where
  spares := hab.trans h.spares
  jumpsTo := by rw [h.jumpsTo, hab.jumpsTo l hl List.not_mem_nil]
  offset := Nat.lt_of_le_of_lt hab.offset h.offset
  reachable := h.reachable

theorem endsInJump_withJump (ha : a.Consistent) (hreach : a.reachable = true)
    (hl : l.index < a.labels.size) (hop : op.target? = some l) (hrange : op.InRange)
    (hf : Full f.stack) : EndsInJump a (a.withJump op l f) l true := by
  have hjumps (l' : Label) : (a.withJump op l f).jumpsTo l' = a.jumpsTo l' + if l = l' then 1
      else 0 := by
    have hpush : (a.withJump op l f).operations.toList = a.operations.toList ++ [op] :=
      Array.toList_push
    rw [jumpsTo_append hpush, List.countP_singleton, hop]
    simp
  refine ⟨⟨ha.advances (advances_withJump ha.stack hl hop hrange hf), ?_, Nat.le_add_right _ _,
    fun l' _ hne => ?_⟩, ?_, Nat.lt_add_of_pos_right op.size_pos, hreach⟩
  · exact Nat.le_of_eq Array.size_modify.symm
  · rw [hjumps, if_neg fun h => hne (List.mem_singleton.mpr h.symm), Nat.add_zero]
  · rw [hjumps, if_pos rfl]

theorem endsInJump_branch {test : Test} (ha : a.Consistent) (hl : l.index < a.labels.size)
    (h : (branch test l).run.run a = (.ok ⟨⟩, b)) : EndsInJump a b l true := by
  unfold branch at h
  rw [run_get_bind] at h
  dsimp only at h
  split at h
  next => cases h
  next =>
    obtain ⟨_, t, hpops, h⟩ := run_bind_eq_ok.mp h
    obtain ⟨hstraight, -⟩ := adds_popMany _ a _ t ha.stack hpops
    have hspares := hstraight.spares ha
    have hlt := Nat.lt_of_lt_of_le hl hspares.labels
    obtain ⟨hreach, rfl⟩ := run_jump_eq_ok hlt h
    exact .behind hspares hl
      (endsInJump_withJump hspares.consistent hreach hlt rfl nofun hspares.consistent.stack)

theorem endsInJump_goto (ha : a.Consistent) (hl : l.index < a.labels.size)
    (h : (goto l).run.run a = (.ok ⟨⟩, b)) :
    EndsInJump a b l false ∧ b.operations = a.operations.push (.goto l) ∧
      b.offset = a.offset + Operation.size (.goto l) := by
  unfold goto at h
  obtain ⟨_, t, hrun, h⟩ := run_bind_eq_ok.mp h
  obtain ⟨hreach, rfl⟩ := run_jump_eq_ok hl hrun
  have hjump : EndsInJump a (a.withJump (.goto l) l (a.frameUpTo (a.labelState l).localsLength)) l
      true :=
    endsInJump_withJump ha hreach hl rfl nofun ha.stack
  have hconsistent := hjump.spares.consistent
  cases h
  refine ⟨⟨hjump.spares.trans (Continues.spares hconsistent ?_), hjump.jumpsTo, hjump.offset, rfl⟩,
    rfl, rfl⟩
  exact .ofSame rfl rfl rfl rfl hconsistent.stack

end Code.Assembler

/-! ## 2. Steps -/

namespace Typed

def Sparing {α : Type} (used : List Label) (x : Assembly α) : Prop :=
  ∀ a r b, a.Consistent → (∀ l ∈ used, l.index < a.labels.size) → x.run.run a = (.ok r, b) →
    Spares used a b

variable {α β : Type} {used : List Label} {x : Assembly α}

namespace Sparing

theorem ofAdds (h : Adds x fun _ => True) : Sparing used x := by
  intro a r b ha _ hrun
  exact ((h a r b ha.stack hrun).1.spares ha).mono (List.nil_subset _)

theorem ofPure (r : α) : Sparing used (pure r) := .ofAdds (.ofPure trivial)

theorem ofGet : Sparing used (get : Assembly Assembler) := .ofAdds .ofGet

theorem bind {f : α → Assembly β} (hx : Sparing used x) (hf : ∀ r, Sparing used (f r)) :
    Sparing used (x >>= f) := by
  intro a r b ha hused hrun
  obtain ⟨r', t, hxrun, hfrun⟩ := run_bind_eq_ok.mp hrun
  have ht := hx a r' t ha hused hxrun
  have hb := hf r' t r b ht.consistent (fun l hl => Nat.lt_of_lt_of_le (hused l hl) ht.labels) hfrun
  exact (ht.trans hb).mono (List.append_subset.mpr ⟨List.Subset.refl _, List.Subset.refl _⟩)

theorem ofIf {p : Prop} [Decidable p] {y : Assembly α} (hx : Sparing used x) (hy : Sparing used y) :
    Sparing used (if p then x else y) := by
  split
  · exact hx
  · exact hy

/-- A new label is none of the older ones, so that it may be jumped to. -/
theorem newLabel {f : Label → Assembly β} (hf : ∀ l, Sparing (l :: used) (f l)) :
    Sparing used (newLabel >>= f) := by
  intro a r b ha hused hrun
  obtain ⟨l, t, hnew, hfrun⟩ := run_bind_eq_ok.mp hrun
  cases hnew
  have hsize := size_labelled a
  have hmade : ∀ l ∈ (⟨a.labels.size⟩ :: used : List Label), l.index < a.labelled.labels.size := by
    rw [hsize]
    exact List.forall_mem_cons.mpr ⟨Nat.lt_succ_self _, fun l hl => Nat.lt_succ_of_lt (hused l hl)⟩
  have hb := hf _ a.labelled r b (ha.advances (advances_labelled ha)) hmade hfrun
  refine ⟨hb.consistent, by have := hb.labels; omega, hb.offset, fun l hl hunused => ?_⟩
  refine hb.jumpsTo l (by omega) fun hmem => ?_
  rcases List.mem_cons.mp hmem with rfl | hmem
  · exact Nat.lt_irrefl _ hl
  · exact hunused hmem

end Sparing

theorem sparing_branch {l : Label} (test : Test) (hl : l ∈ used) : Sparing used (branch test l) :=
  fun _ _ _ ha hused hrun => (endsInJump_branch ha (hused l hl) hrun).spares.mono
    (by simpa using hl)

theorem sparing_goto {l : Label} (hl : l ∈ used) : Sparing used (goto l) :=
  fun _ _ _ ha hused hrun => (endsInJump_goto ha (hused l hl) hrun).1.spares.mono
    (by simpa using hl)

theorem sparing_place {l : Label} (hl : l ∈ used) : Sparing used (place l) := by
  intro a r b ha hused hrun
  obtain ⟨hadvances, hsize⟩ := advances_place ha (hused l hl) hrun
  obtain ⟨_, -, ⟨hoperations, hoffset, -⟩, -⟩ := run_place_eq_ok ha hrun
  refine ⟨ha.advances hadvances, Nat.le_of_eq hsize.symm, Nat.le_of_eq hoffset.symm,
    fun l' _ _ => ?_⟩
  unfold jumpsTo
  rw [hoperations]

theorem sparing_whenReachable {x : Assembly Unit} (h : Sparing used x) :
    Sparing used (whenReachable x) :=
  .bind .ofGet fun _ => .ofIf h (.ofPure _)

/-! ## 3. Code for expressions and conditions -/

theorem adds_ldcString (text : String) : Adds (ldcString text) fun _ => True :=
  (adds_intern _).andThen fun _ => (adds_loadConstant _).andThen fun _ => adds_push nofun

theorem adds_newTextBuilder : Adds newTextBuilder fun _ => True :=
  (adds_newObject _).andThen fun _ => adds_dup.andThen fun _ => adds_invoke _ _ _ _ _

theorem sparing_emitFlag {jumpUnless : Label → Assembly Unit}
    (h : ∀ {used : List Label} {l : Label}, l ∈ used → Sparing used (jumpUnless l)) :
    Sparing used (emitFlag jumpUnless) := by
  refine .newLabel fun no => .newLabel fun done => (h (by simp)).bind fun _ => ?_
  refine (sparing_whenReachable ?_).bind fun _ => (sparing_place (by simp)).bind fun _ => ?_
  · exact (Sparing.ofAdds (adds_iconst 1)).bind fun _ => sparing_goto (by simp)
  · exact (sparing_whenReachable (.ofAdds (adds_iconst 0))).bind fun _ => sparing_place (by simp)

-- A condition within an expression jumps to labels that are made for it, so that what an expression
-- may use never grows: any list of labels will do, the empty one too.
mutual

theorem sparing_emitExpr : (e : Expr) → ∀ {used : List Label}, Sparing used (emitExpr e)
  | .int value, _ => by
    unfold emitExpr
    exact .ofAdds (adds_iconst value)
  | .long value, _ => by
    unfold emitExpr
    exact .ofAdds (adds_lconst value)
  | .str text, _ => by
    unfold emitExpr
    exact .ofAdds (adds_ldcString text)
  | .null, _ => by
    unfold emitExpr
    exact .ofAdds (adds_pushing nofun rfl nofun)
  | .local slot t, _ => by
    unfold emitExpr
    exact .ofAdds (adds_load slot t)
  | .getField receiver owner name t, _ => by
    unfold emitExpr
    refine (sparing_emitExpr receiver).bind fun _ => .ofAdds ?_
    exact (adds_intern _).andThen fun _ => adds_replacing nofun rfl (ofType_ne_top t)
  | .getStatic owner name t, _ => by
    unfold emitExpr
    exact .ofAdds ((adds_intern _).andThen fun _ => adds_pushing nofun rfl (ofType_ne_top t))
  | .call callee args, _ => by
    unfold emitExpr
    exact (sparing_emitExprs args).bind fun _ => .ofAdds (adds_invoke _ _ _ _ _)
  | .callOn receiver callee args, used => by
    unfold emitExpr
    -- what follows the receiver is the same whether or not it is dropped
    have hrest : Sparing used (do emitExprs args; invokeCallee callee) :=
      (sparing_emitExprs args).bind fun _ => .ofAdds (adds_invoke _ _ _ _ _)
    exact (sparing_emitExpr receiver).bind fun _ =>
      .ofIf ((Sparing.ofAdds adds_popValue).bind fun _ => hrest) hrest
  | .checkcast name e, _ => by
    unfold emitExpr
    refine (sparing_emitExpr e).bind fun _ => .ofAdds ?_
    exact (adds_intern _).andThen fun _ => adds_replacing nofun rfl nofun
  | .widen source target e, _ => by
    unfold emitExpr
    exact (sparing_emitExpr e).bind fun _ => .ofAdds (adds_widen source target)
  | .add t l r, _ => by
    unfold emitExpr
    exact (sparing_emitExpr l).bind fun _ => (sparing_emitExpr r).bind fun _ => .ofAdds (adds_add t)
  | .concat parts, _ => by
    unfold emitExpr
    refine (Sparing.ofAdds adds_newTextBuilder).bind fun _ => ?_
    exact (sparing_emitParts parts).bind fun _ => .ofAdds (adds_invoke _ _ _ _ _)
  | .condition c, _ => by
    unfold emitExpr
    exact sparing_emitFlag fun hl => sparing_emitJump c false hl

theorem sparing_emitExprs : (es : List Expr) → ∀ {used : List Label}, Sparing used (emitExprs es)
  | [], _ => by
    unfold emitExprs
    exact .ofPure _
  | e :: es, _ => by
    unfold emitExprs
    exact (sparing_emitExpr e).bind fun _ => sparing_emitExprs es

theorem sparing_emitParts : (parts : List (Expr × FieldType)) →
    ∀ {used : List Label}, Sparing used (emitParts parts)
  | [], _ => by
    unfold emitParts
    exact .ofPure _
  | (e, t) :: parts, _ => by
    unfold emitParts
    refine (sparing_emitExpr e).bind fun _ => ?_
    exact (Sparing.ofAdds (adds_invoke _ _ _ _ _)).bind fun _ => sparing_emitParts parts

theorem sparing_emitJump : (c : Cond) →
    ∀ (when : Bool) {used : List Label} {target : Label}, target ∈ used →
    Sparing used (emitJump c when target)
  | .const value, when, _, target, ht => by
    unfold emitJump
    exact .bind .ofGet fun _ => .ofIf (.ofPure _) (.ofIf (sparing_goto ht) (.ofPure _))
  | .value e, when, _, target, ht => by
    unfold emitJump
    exact .bind .ofGet fun _ =>
      .ofIf (.ofPure _) ((sparing_emitExpr e).bind fun _ => sparing_branch _ ht)
  | .not c, when, _, target, ht => by
    unfold emitJump
    exact .bind .ofGet fun _ => .ofIf (.ofPure _) (sparing_emitJump c _ ht)
  | .and a b, when, _, target, ht => by
    unfold emitJump
    refine .bind .ofGet fun _ => .ofIf (.ofPure _) (.ofIf (.newLabel fun skip => ?_) ?_)
    -- a false operand goes past the second one, to the label made here
    · refine (sparing_emitJump a false (by simp)).bind fun _ => ?_
      exact (sparing_emitJump b true (by simp [ht])).bind fun _ => sparing_place (by simp)
    · exact (sparing_emitJump a false ht).bind fun _ => sparing_emitJump b false ht
  | .or a b, when, _, target, ht => by
    unfold emitJump
    refine .bind .ofGet fun _ => .ofIf (.ofPure _) (.ofIf ?_ (.newLabel fun skip => ?_))
    · exact (sparing_emitJump a true ht).bind fun _ => sparing_emitJump b true ht
    · refine (sparing_emitJump a true (by simp)).bind fun _ => ?_
      exact (sparing_emitJump b false (by simp [ht])).bind fun _ => sparing_place (by simp)
  | .ints c l r, when, used, target, ht => by
    unfold emitJump
    -- a comparison with zero has no second operand on the stack
    have hrest : Sparing used (branch (intTest (outcome c when) (isZero r)) target) :=
      sparing_branch _ ht
    refine .bind .ofGet fun _ => .ofIf (.ofPure _) ((sparing_emitExpr l).bind fun _ => ?_)
    exact .ofIf ((sparing_emitExpr r).bind fun _ => hrest) hrest
  | .longs c l r, when, _, target, ht => by
    unfold emitJump
    refine .bind .ofGet fun _ => .ofIf (.ofPure _) ((sparing_emitExpr l).bind fun _ => ?_)
    refine (sparing_emitExpr r).bind fun _ => (Sparing.ofAdds ?_).bind fun _ => sparing_branch _ ht
    exact adds_joining nofun rfl nofun
  | .refs equal l r, when, _, target, ht => by
    unfold emitJump
    refine .bind .ofGet fun _ => .ofIf (.ofPure _) ((sparing_emitExpr l).bind fun _ => ?_)
    exact (sparing_emitExpr r).bind fun _ => sparing_branch _ ht
  | .nullity isNull e, when, _, target, ht => by
    unfold emitJump
    exact .bind .ofGet fun _ =>
      .ofIf (.ofPure _) ((sparing_emitExpr e).bind fun _ => sparing_branch _ ht)

end

/-! ## 4. Tests -/

def EndsInTest (l : Label) (x : Assembly Unit) : Prop :=
  ∀ a b, a.Consistent → l.index < a.labels.size → x.run.run a = (.ok ⟨⟩, b) → EndsInJump a b l true

theorem endsInTest_branch (l : Label) (test : Test) : EndsInTest l (branch test l) :=
  fun _ _ ha hl hrun => endsInJump_branch ha hl hrun

/-- Operands stand in front of a test. -/
theorem Sparing.endsInTest {l : Label} {f : α → Assembly Unit} (hx : Sparing [] x)
    (hf : ∀ r, EndsInTest l (f r)) : EndsInTest l (x >>= f) := by
  intro a b ha hl hrun
  obtain ⟨r, t, hxrun, hfrun⟩ := run_bind_eq_ok.mp hrun
  have ht := hx a r t ha nofun hxrun
  exact .behind ht hl (hf r t b ht.consistent (Nat.lt_of_lt_of_le hl ht.labels) hfrun)

/-- The code of an atom ends in a test. -/
theorem endsInJump_atom {c : Cond} (hc : c.IsAtom) {a b : Assembler} {when : Bool} {target : Label}
    (ha : a.Consistent) (hreach : a.reachable = true) (hl : target.index < a.labels.size)
    (hrun : (emitJump c when target).run.run a = (.ok ⟨⟩, b)) : EndsInJump a b target true := by
  have htest (test : Test) := endsInTest_branch target test
  have hoperand (e : Expr) {x : Unit → Assembly Unit} (hx : ∀ r, EndsInTest target (x r)) :
      EndsInTest target (emitExpr e >>= x) := (sparing_emitExpr e).endsInTest hx
  unfold emitJump at hrun
  rw [run_get_bind, if_neg (by simp [hreach])] at hrun
  cases c with
  | const | not | and | or => cases hc
  | value e | nullity isNull e => exact hoperand e (fun _ => htest _) a b ha hl hrun
  | refs equal l r => exact hoperand l (fun _ => hoperand r fun _ => htest _) a b ha hl hrun
  | longs c l r =>
    have hlcmp : Sparing [] lcmp := .ofAdds (adds_joining nofun rfl nofun)
    exact hoperand l (fun _ => hoperand r fun _ => hlcmp.endsInTest fun _ => htest _) a b ha hl hrun
  | ints c l r =>
    refine hoperand l (fun _ => ?_) a b ha hl hrun
    split
    · exact hoperand r fun _ => htest _
    · exact htest _

end Typed

end MethodGraft
