import MethodGraft.Proofs.Emission.Expressions

/-!
# Proofs.Emission.Conditions — code is generated for every condition

Code for a condition jumps to one label and goes on behind itself otherwise.  Constants may make
either of the two impossible, never both.
-/

namespace MethodGraft.Typed

open ClassFile Code Assembly Assembler Machine Direct

variable {a b c : Assembler} {layout : Layout} {stack : List ValueKind} {target : Label}

/-- The code between `a` and `b` jumps to the label if the condition comes out as `when`. -/
structure EmitsJump (layout : Layout) (stack : List ValueKind) (c : Cond) (when : Bool)
    (target : Label) (a b : Assembler) : Prop where
  quiet : Quiet [target] a b
  handlers : b.handlers = a.handlers
  aims : Aims a b target layout stack
  ready : b.reachable = true → b.Ready layout stack
  live : a.reachable = true → b.reachable = true ∨ (b.labelState target).targeted = true
  jumps : a.reachable = true → ∀ {F P t}, b.Extends F → Laid F P →
    (F.labelState target).position = some t → ∀ env,
      Jumps env P layout a.offset b.offset c when t ((b.labelState target).targeted = true)
        (b.reachable = true)

def CondMeets (c : Cond) : Prop :=
  ∀ {layout stack a}, Packed layout → c.WellFormed layout → a.Valid → a.Closed →
    (a.reachable = true → a.Ready layout stack) → ∀ {when target}, a.Waits target layout stack →
      Meets (emitJump c when target) a fun _ b => EmitsJump layout stack c when target a b

namespace EmitsJump

variable {c₀ : Cond} {when : Bool}

theorem «extends» (h : EmitsJump layout stack c₀ when target a b) : a.Extends b :=
  h.quiet.builds.extends

theorem closed (h : EmitsJump layout stack c₀ when target a b) (ha : a.Closed) : b.Closed :=
  closed_of_handlers ha h.extends h.handlers

theorem valid (h : EmitsJump layout stack c₀ when target a b) (ha : a.Valid) : b.Valid :=
  ha.builds h.quiet.builds

end EmitsJump

/-- What control does not get to is left out. -/
theorem emitsJump_unreachable {c₀ : Cond} {when : Bool} (hl : a.Waits target layout stack)
    (hdead : a.reachable = false) : EmitsJump layout stack c₀ when target a a where
  quiet := (Quiet.refl a).close nofun
  handlers := rfl
  aims := .ofKept hl.expects rfl
  ready h := by
    rw [hdead] at h
    cases h
  live h := by
    rw [hdead] at h
    cases h
  jumps h := by
    rw [hdead] at h
    cases h

/-! ## 1. Tests -/

/-- The test that ends a condition; its operands stand between `a` and `b`. -/
theorem meets_test {c₀ : Cond} {when : Bool} {test : Test}
    (hab : Passed a b layout (test.operandKinds ++ stack)) (hl : a.Waits target layout stack)
    (hjumps : ∀ {F P}, b.Extends F → Laid F P → ∀ t n env,
      P.fetch b.offset = some (.branch test ⟨t⟩, n) →
        Jumps env P layout a.offset (b.offset + n) c₀ when t True True) :
    Meets (branch test target) b fun _ c => EmitsJump layout stack c₀ when target a c := by
  have hlb := hl.quiet hab.quiet (by simp)
  refine (meets_branch hab.ready (hlb.awaits hab.ready.locals) hlb.expects).mono fun _ c hc => ?_
  have haims := hc.aims hlb.made hlb.expects hab.ready.locals
  have hquiet := hab.quiet.trans (hc.quiet hlb.made)
  obtain ⟨hstep, types, htypes, rfl⟩ := hc
  have htargeted : ((b.jumped (.branch test target) target types true).labelState target).targeted =
      true := by
    rw [labelState_jumped hlb.made, if_pos rfl]
    rfl
  refine ⟨hquiet, hab.handlers, ?_,
    fun _ => ⟨hab.ready.valid.step hstep, rfl, hab.ready.locals, htypes⟩,
    fun _ => .inl rfl, fun _ F P t hF hP ht env => ?_⟩
  · exact (Aims.ofKept hl.expects (hab.quiet.kept _ hl.made (by simp))).trans haims
      ⟨hab.extends.offset, hstep.extends.offset⟩
  · obtain ⟨t', hfetch, hposition⟩ := hP.fetch_next hab.ready.valid rfl hF
    have hsame := hposition target rfl
    rw [ht] at hsame
    cases hsame
    exact (hjumps (hstep.extends.trans hF) hP t _ env hfetch).mono (fun _ => htargeted) fun _ => rfl

/-- Only where control is there is anything to be shown. -/
theorem condMeets_of {c₀ : Cond} (h : ∀ {layout stack a when target}, Packed layout →
    c₀.WellFormed layout → a.Closed → a.Ready layout stack → a.Waits target layout stack →
      Meets (emitJump c₀ when target) a fun _ b => EmitsJump layout stack c₀ when target a b) :
    CondMeets c₀ := by
  intro layout stack a hpacked hc ha hclosed hready when target hl
  by_cases hreach : a.reachable = true
  · exact h hpacked hc hclosed (hready hreach) hl
  · have hdead : a.reachable = false := by simpa using hreach
    exact .ofRun (run_emitJump_dead hdead c₀ when target) (emitsJump_unreachable hl hdead)

theorem condMeets_value {e : Expr} (ih : ExprMeets e) : CondMeets (.value e) := by
  refine condMeets_of fun {layout stack a when target} hpacked hc hclosed ha hl => ?_
  obtain ⟨he, hkind⟩ := hc
  unfold emitJump
  refine .bind (.ofGet ?_)
  rw [if_neg (by simp [ha.reachable])]
  refine .bind ((ih hpacked he hclosed ha).mono fun _ b hb => ?_)
  have hpassed := hb.toPassed
  rw [hkind] at hpassed
  refine meets_test hpassed hl fun hF hP t n env hfetch => ?_
  exact .value (hb.computes hF hP env) hkind hfetch

theorem condMeets_nullity {e : Expr} (ih : ExprMeets e) (isNull : Bool) :
    CondMeets (.nullity isNull e) := by
  refine condMeets_of fun {layout stack a when target} hpacked hc hclosed ha hl => ?_
  obtain ⟨he, hkind⟩ := hc
  unfold emitJump
  refine .bind (.ofGet ?_)
  rw [if_neg (by simp [ha.reachable])]
  refine .bind ((ih hpacked he hclosed ha).mono fun _ b hb => ?_)
  have hpassed := hb.toPassed
  rw [hkind] at hpassed
  refine meets_test hpassed hl fun hF hP t n env hfetch => ?_
  exact .nullity (hb.computes hF hP env) hkind hfetch

theorem condMeets_refs {l r : Expr} (ihl : ExprMeets l) (ihr : ExprMeets r) (equal : Bool) :
    CondMeets (.refs equal l r) := by
  refine condMeets_of fun {layout stack a when target} hpacked hc hclosed ha hl => ?_
  obtain ⟨hwl, hlk, hwr, hrk⟩ := hc
  unfold emitJump
  refine .bind (.ofGet ?_)
  rw [if_neg (by simp [ha.reachable])]
  refine .bind ((ihl hpacked hwl hclosed ha).mono fun _ b hb => ?_)
  refine .bind ((ihr hpacked hwr (hb.closed hclosed) hb.ready).mono fun _ c hc => ?_)
  have hpassed := hb.toPassed.trans hc.toPassed
  rw [hlk, hrk] at hpassed
  refine meets_test hpassed hl fun hF hP t n env hfetch => ?_
  exact .refs (hb.computes (hc.extends.trans hF) hP env) hlk (hc.computes hF hP env) hrk hfetch

theorem condMeets_longs {l r : Expr} (ihl : ExprMeets l) (ihr : ExprMeets r) (cmp : Comparison) :
    CondMeets (.longs cmp l r) := by
  refine condMeets_of fun {layout stack a when target} hpacked hc hclosed ha hl => ?_
  obtain ⟨hwl, hlk, hwr, hrk⟩ := hc
  unfold emitJump
  refine .bind (.ofGet ?_)
  rw [if_neg (by simp [ha.reachable])]
  refine .bind ((ihl hpacked hwl hclosed ha).mono fun _ b hb => ?_)
  refine .bind ((ihr hpacked hwr (hb.closed hclosed) hb.ready).mono fun _ c hc => ?_)
  have hready := hc.ready
  rw [hlk, hrk] at hready
  refine .bind ((meets_lcmp hready).mono fun _ d hd => ?_)
  have hpassed := (hb.toPassed.trans hc.toPassed).trans (.ofEmits hd)
  refine meets_test hpassed hl fun hF hP t n env hfetch => ?_
  have hFc := hd.quiet.builds.extends.trans hF
  rw [hd.passes.offset] at hfetch ⊢
  exact .longs (hb.computes (hc.extends.trans hFc) hP env) hlk (hc.computes hFc hP env) hrk
    (hd.fetch hready.valid hP hF fun _ => rfl) hfetch

theorem condMeets_ints {l r : Expr} (ihl : ExprMeets l) (ihr : ExprMeets r) (cmp : Comparison) :
    CondMeets (.ints cmp l r) := by
  refine condMeets_of fun {layout stack a when target} hpacked hc hclosed ha hl => ?_
  obtain ⟨hwl, hlk, hwr, hrk⟩ := hc
  unfold emitJump
  refine .bind (.ofGet ?_)
  rw [if_neg (by simp [ha.reachable])]
  refine .bind ((ihl hpacked hwl hclosed ha).mono fun _ b hb => ?_)
  by_cases hzero : isZero r = true
  · -- the constant is not pushed
    have hr : r = .int 0 := by
      cases r <;> first | cases hzero | skip
      rename_i v
      rw [show v = 0 by simpa [isZero] using hzero]
    subst hr
    rw [if_neg (by decide)]
    have hpassed := hb.toPassed
    rw [hlk] at hpassed
    refine meets_test hpassed hl fun hF hP t n env hfetch => ?_
    exact .intsZero (hb.computes hF hP env) hlk hfetch
  · rw [if_pos (by simpa using hzero)]
    -- both operands are pushed and compared with each other
    refine .bind ((ihr hpacked hwr (hb.closed hclosed) hb.ready).mono fun _ c hc => ?_)
    have htest : intTest (outcome cmp when) (isZero r) = .ints (outcome cmp when) := by
      rw [intTest, if_neg hzero]
    have hpassed := hb.toPassed.trans hc.toPassed
    rw [hlk, hrk] at hpassed
    rw [htest]
    refine meets_test hpassed hl fun hF hP t n env hfetch => ?_
    exact .ints (hb.computes (hc.extends.trans hF) hP env) hlk (hc.computes hF hP env) hrk hfetch

/-! ## 2. Constants, and conditions in conditions -/

theorem condMeets_const (value : Bool) : CondMeets (.const value) := by
  refine condMeets_of fun {layout stack a when target} hpacked hc hclosed ha hl => ?_
  unfold emitJump
  refine .bind (.ofGet ?_)
  rw [if_neg (by simp [ha.reachable])]
  -- the jump is made always or never, so there is either a plain jump or no code at all
  by_cases heq : value = when
  · subst heq
    dsimp only
    rw [if_pos rfl]
    refine (meets_goto ha (hl.awaits ha.locals) hl.expects).mono fun _ b hb => ?_
    have haims := hb.aims hl.made hl.expects ha.locals
    have hquiet := hb.quiet hl.made
    obtain ⟨hstep, types, htypes, rfl⟩ := hb
    have htargeted : ((a.jumped (.goto target) target types false).labelState target).targeted =
        true := by
      rw [labelState_jumped hl.made, if_pos rfl]
      rfl
    refine ⟨hquiet, rfl, haims, fun hreach => (by cases hreach), fun _ => .inr htargeted,
      fun _ F P t hF hP ht env => ?_⟩
    obtain ⟨t', hfetch, hposition⟩ := hP.fetch_next ha.valid rfl hF
    have hsame := hposition target rfl
    rw [ht] at hsame
    cases hsame
    exact (Jumps.always hfetch).mono (fun _ => htargeted) False.elim
  · dsimp only
    rw [if_neg heq]
    have hquiet : Quiet [target] a a := (Quiet.refl a).close fun _ hl => absurd hl List.not_mem_nil
    refine .ofPure ⟨hquiet, rfl, .ofKept hl.expects rfl, fun _ => ha,
      fun _ => .inl ha.reachable, fun _ F P t hF hP ht env => ?_⟩
    have hnever : Jumps env P layout a.offset a.offset (.const value) when t False True :=
      .never heq
    exact hnever.mono False.elim fun _ => ha.reachable

theorem condMeets_not {c₀ : Cond} (ih : CondMeets c₀) : CondMeets (.not c₀) := by
  refine condMeets_of fun {layout stack a when target} hpacked hc hclosed ha hl => ?_
  unfold emitJump
  refine .bind (.ofGet ?_)
  rw [if_neg (by simp [ha.reachable])]
  refine (ih hpacked hc ha.valid hclosed (fun _ => ha) hl).mono fun _ b hb => ?_
  exact ⟨hb.quiet, hb.handlers, hb.aims, hb.ready, hb.live,
    fun hreach F P t hF hP ht env => (hb.jumps hreach hF hP ht env).not⟩

/-- Both conditions jump to the same label. -/
theorem meets_both {c₀ ca cb : Cond} {when : Bool} (iha : CondMeets ca) (ihb : CondMeets cb)
    (heval : ∀ env, Direct.cond env c₀ = do
      let x ← Direct.cond env ca
      if x = when then return when else Direct.cond env cb)
    (hpacked : Packed layout) (hca : ca.WellFormed layout) (hcb : cb.WellFormed layout)
    (hclosed : a.Closed) (ha : a.Ready layout stack) (hl : a.Waits target layout stack) :
    Meets (do emitJump ca when target; emitJump cb when target) a fun _ b =>
      EmitsJump layout stack c₀ when target a b := by
  refine .bind ((iha hpacked hca ha.valid hclosed (fun _ => ha) hl).mono fun _ b hb => ?_)
  -- the first jump leaves the target as the second one needs it
  have hlb := hl.later hb.extends hb.aims
  refine (ihb hpacked hcb (hb.valid ha.valid) (hb.closed hclosed) hb.ready hlb).mono
    fun _ c hc => ?_
  have haway (h : (b.labelState target).targeted = true) : (c.labelState target).targeted = true :=
    hc.extends.targeted _ h
  refine ⟨(hb.quiet.trans hc.quiet).close (by simp), hc.handlers.trans hb.handlers,
    hb.aims.trans hc.aims ⟨hb.extends.offset, hc.extends.offset⟩, hc.ready, fun hreach => ?_,
    fun hreach F P t hF hP ht env => ?_⟩
  · rcases hb.live hreach with hon | htargeted
    · exact hc.live hon
    · exact .inr (haway htargeted)
  · exact .both (heval env) (hb.jumps hreach (hc.extends.trans hF) hP ht env)
      (fun hon => hc.jumps hon hF hP ht env) haway

theorem ready_labelled (ha : a.Ready layout stack) : a.labelled.Ready layout stack :=
  ⟨ha.valid.step .newLabel, ha.reachable, ha.locals, ha.stack⟩

theorem closed_labelled (ha : a.Closed) : a.labelled.Closed :=
  closed_of_handlers ha quiet_newLabel.builds.extends rfl

/-- A label that waits is not the next one to be made. -/
theorem ne_next (hl : a.Waits target layout stack) : target ≠ ⟨a.labels.size⟩ := by
  -- it has been made, and the next one has not
  rintro rfl
  exact Nat.lt_irrefl _ hl.made

/-- Behind two conditions the label that the first one skips to can be placed. -/
theorem placeable_skip {ca cb : Cond} {first when : Bool} (ha : a.Ready layout stack)
    (hclosed : a.Closed) (hl : a.Waits target layout stack)
    (hb : EmitsJump layout stack ca first ⟨a.labels.size⟩ a.labelled b)
    (hc : EmitsJump layout stack cb when target b c) :
    c.Placeable ⟨a.labels.size⟩ layout stack := by
  have hskip : Pending a a.labelled ⟨a.labels.size⟩ layout stack :=
    .labelled (.refl a) ha.size_locals
  have hquiet := (quiet_newLabel (a := a)).trans hb.quiet
  have hlb : b.Waits target layout stack := hl.quiet hquiet (by simpa using ne_next hl)
  have hlc := hlb.later hc.extends hc.aims
  have hskipc := (hskip.aim hb.extends hb.aims).quiet hc.quiet (by simpa using (ne_next hl).symm)
  refine hskipc.placeable ha.valid (hc.closed (hb.closed (closed_labelled hclosed)))
    (fun l' hl' => ?_) fun l' hle hlt => absurd hlt (Nat.not_lt.mpr hle)
  by_cases heq : l' = target
  · rw [heq, hlc.unplaced, hl.unplaced]
  · have hne' : l' ≠ ⟨a.labels.size⟩ := by
      rintro rfl
      exact Nat.lt_irrefl _ hl'
    rw [(hquiet.trans hc.quiet).kept l' hl' (by simp [heq, hne'])]

/-- The first condition skips the second. -/
theorem meets_skipping {c₀ ca cb : Cond} {when : Bool} (iha : CondMeets ca) (ihb : CondMeets cb)
    (heval : ∀ env, Direct.cond env c₀ = do
      let x ← Direct.cond env ca
      if x = !when then return !when else Direct.cond env cb)
    (hpacked : Packed layout) (hca : ca.WellFormed layout) (hcb : cb.WellFormed layout)
    (hclosed : a.Closed) (ha : a.Ready layout stack) (hl : a.Waits target layout stack) :
    Meets (do
      let skip ← newLabel
      emitJump ca (!when) skip
      emitJump cb when target
      place skip) a fun _ b => EmitsJump layout stack c₀ when target a b := by
  let skip : Label := ⟨a.labels.size⟩
  have hne : target ≠ skip := ne_next hl
  -- each condition needs its own label as it waits: the first goes to `skip`, and `target` is kept
  -- meanwhile
  have hnew := quiet_newLabel (a := a)
  have ha₁ := ready_labelled ha
  have hclosed₁ := closed_labelled hclosed
  have hl₁ : a.labelled.Waits target layout stack := hl.quiet hnew List.not_mem_nil
  have hskip : a.labelled.Waits skip layout stack := waits_labelled ha.size_locals
  refine .bind (.ofRun run_newLabel ?_)
  refine .bind ((iha hpacked hca ha₁.valid hclosed₁ (fun _ => ha₁) hskip).mono fun _ b hb => ?_)
  have hlb : b.Waits target layout stack := hl₁.quiet hb.quiet (by simpa using hne)
  refine .bind ((ihb hpacked hcb (hb.valid ha₁.valid) (hb.closed hclosed₁) hb.ready hlb).mono
    fun _ c hc => ?_)
  have hlc := hlb.later hc.extends hc.aims
  have hvalid := hc.valid (hb.valid ha₁.valid)
  have hclosedc := hc.closed (hb.closed hclosed₁)
  have hquiet : Quiet [skip, target] a c := (hnew.trans hb.quiet).trans hc.quiet
  have hplaceable : c.Placeable skip layout stack := placeable_skip ha hclosed hl hb hc
  refine (meets_place hvalid hc.ready hplaceable fun _ => hclosedc).mono fun _ d hd => ?_
  have hkept : d.labelState target = c.labelState target := by rw [hd.labels, if_neg hne]
  have hplaced := hd.position
  have hcd := hd.step.extends
  -- control comes behind the code from above or by the jump to `skip`
  have hon (h : c.reachable = true ∨ (b.labelState skip).targeted = true) : d.reachable = true :=
    (hd.ready (h.imp_right (hc.extends.targeted _))).reachable
  have haims : Aims a d target layout stack := by
    have haims :=
      Aims.ofKept hl.expects ((hnew.trans hb.quiet).kept _ hl.made (by simpa [skip] using hne))
    exact (haims.trans hc.aims ⟨hb.extends.offset, hc.extends.offset⟩).trans
      (.ofKept hlc.expects hkept) ⟨Nat.le_trans hb.extends.offset hc.extends.offset, hcd.offset⟩
  refine ⟨(hquiet.trans hd.quiet).close ?_, hd.code.2.2.1.trans (hc.handlers.trans hb.handlers),
    haims, hd.ready_of, fun _ => ?_, fun _ F P t hF hP ht env => ?_⟩
  · intro l hmem
    by_cases heq : l = target
    · exact .inl (List.mem_singleton.mpr heq)
    · have hl' : l = skip := by simpa [heq] using hmem
      rw [hl', hplaced]
      exact .inr ⟨Nat.le_refl _, rfl⟩
  · rcases hb.live ha₁.reachable with hreach | hskipped
    · rcases hc.live hreach with hreach | htargeted
      · exact .inl (hon (.inl hreach))
      · exact .inr (hcd.targeted _ htargeted)
    · exact .inl (hon (.inr hskipped))
  · have hFc := hcd.trans hF
    have hposition : (F.labelState skip).position = some c.offset := by
      rw [hF.placed _ _ hplaced, hplaced]
    have hfirst := hb.jumps ha₁.reachable (hc.extends.trans hFc) hP hposition env
    have hjumps := Jumps.skipping (heval env) (by simp) hfirst
      fun hon => hc.jumps hon hFc hP ht env
    rw [hd.code.2.1]
    exact hjumps.mono (hcd.targeted _) hon

theorem condMeets_and {ca cb : Cond} (iha : CondMeets ca) (ihb : CondMeets cb) :
    CondMeets (.and ca cb) := by
  refine condMeets_of fun {layout stack a when target} hpacked hc hclosed ha hl => ?_
  unfold emitJump
  refine .bind (.ofGet ?_)
  rw [if_neg (by simp [ha.reachable])]
  cases when with
  | true => exact meets_skipping iha ihb (fun _ => cond_and ca cb) hpacked hc.1 hc.2 hclosed ha hl
  | false => exact meets_both iha ihb (fun _ => cond_and ca cb) hpacked hc.1 hc.2 hclosed ha hl

theorem condMeets_or {ca cb : Cond} (iha : CondMeets ca) (ihb : CondMeets cb) :
    CondMeets (.or ca cb) := by
  refine condMeets_of fun {layout stack a when target} hpacked hc hclosed ha hl => ?_
  unfold emitJump
  refine .bind (.ofGet ?_)
  rw [if_neg (by simp [ha.reachable])]
  cases when with
  | true => exact meets_both iha ihb (fun _ => cond_or ca cb) hpacked hc.1 hc.2 hclosed ha hl
  | false => exact meets_skipping iha ihb (fun _ => cond_or ca cb) hpacked hc.1 hc.2 hclosed ha hl

end MethodGraft.Typed
