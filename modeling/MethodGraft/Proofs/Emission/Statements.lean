import MethodGraft.Proofs.Emission.Flags

/-!
# Proofs.Emission.Statements — code is generated for every statement

The code of a statement goes on only if the statement can complete, which is how the source language
sees it: code generation, which leaves out what constants make unreachable, never gets further.
-/

namespace MethodGraft.Typed

open ClassFile Code Assembly Assembler Machine Direct

variable {a b : Assembler} {layout : Layout} {ret : Option FieldType} {s : Stmt} {ss : List Stmt}
  {c₀ : Cond}

/-! ## 1. What is shown -/

structure EmitsStmt (layout : Layout) (s : Stmt) (a b : Assembler) : Prop where
  quiet : Quiet [] a b
  closed : b.Closed
  ready : b.reachable = true → b.Ready (s.after layout) []
  completes : b.reachable = true → s.completes = true
  executes : ∀ {F P}, b.Extends F → Laid F P → ∀ env,
    Executes env P layout (s.after layout) a.offset b.offset s (b.reachable = true)

/-- The code between `a` and `b` executes the statements of a block, which leaves more locals. -/
structure EmitsStmts (layout : Layout) (ss : List Stmt) (a b : Assembler) : Prop where
  quiet : Quiet [] a b
  closed : b.Closed
  reached : b.reachable = true → a.reachable = true
  ready : b.reachable = true → ∃ layout', layout <+: layout' ∧ b.Ready layout' []
  completes : a.reachable = true → b.reachable = true → Stmt.allComplete ss = true
  executes : a.reachable = true → ∀ {F P}, b.Extends F → Laid F P → ∀ env,
    ExecutesAll env P layout a.offset b.offset ss (b.reachable = true)

def StmtMeets (s : Stmt) : Prop :=
  ∀ {ret layout a}, Packed layout → s.WellFormed ret layout → a.Closed → a.Ready layout [] →
    Meets (emitStmt s) a fun _ b => EmitsStmt layout s a b

def StmtsMeet (ss : List Stmt) : Prop :=
  ∀ {ret layout a}, Packed layout → Stmt.AllWellFormed ret layout ss → a.Valid → a.Closed →
    (a.reachable = true → a.Ready layout []) →
      Meets (emitStmts ss) a fun _ b => EmitsStmts layout ss a b

theorem EmitsStmt.extends (h : EmitsStmt layout s a b) : a.Extends b := h.quiet.builds.extends

theorem EmitsStmts.extends (h : EmitsStmts layout ss a b) : a.Extends b := h.quiet.builds.extends

/-! ## 2. Blocks -/

theorem packed_after (h : Packed layout) (s : Stmt) : Packed (s.after layout) := by
  cases s <;> first | exact h | exact h.append _

theorem prefix_after (layout : Layout) (s : Stmt) : layout <+: s.after layout := by
  cases s <;> first | exact List.prefix_refl _ | exact List.prefix_append _ _

theorem emitsStmts_unreachable (hdead : a.reachable = false) (hclosed : a.Closed) :
    EmitsStmts layout ss a a where
  quiet := .refl a
  closed := hclosed
  reached h := h
  ready h := by
    rw [hdead] at h
    cases h
  completes h := by
    rw [hdead] at h
    cases h
  executes h := by
    rw [hdead] at h
    cases h

theorem stmtsMeet_nil : StmtsMeet [] := by
  intro ret layout a _ _ _ hclosed hready
  unfold emitStmts
  exact .ofPure
    ⟨.refl a, hclosed, id, fun h => ⟨layout, List.prefix_refl _, hready h⟩, fun _ _ => rfl,
    fun hreach _ _ _ _ env => ExecutesAll.nil.mono fun _ => hreach⟩

theorem stmtsMeet_cons (ih : StmtMeets s) (ihs : StmtsMeet ss) : StmtsMeet (s :: ss) := by
  intro ret layout a hpacked hss ha hclosed hready
  by_cases hreach : a.reachable = true
  · unfold emitStmts
    refine .bind (.ofGet ?_)
    rw [if_neg (by simp [hreach])]
    refine .bind ((ih hpacked hss.1 hclosed (hready hreach)).mono fun _ b hb => ?_)
    refine (ihs (packed_after hpacked s) hss.2 (ha.builds hb.quiet.builds) hb.closed hb.ready).mono
      fun _ c hc => ?_
    refine ⟨hb.quiet.trans hc.quiet, hc.closed, fun _ => hreach, fun h => ?_, fun _ h => ?_,
      fun _ F P hF hP env => ?_⟩
    · obtain ⟨layout', hle, hready'⟩ := hc.ready h
      exact ⟨layout', (prefix_after layout s).trans hle, hready'⟩
    · show (s.completes && Stmt.allComplete ss) = true
      rw [hb.completes (hc.reached h), hc.completes (hc.reached h) h]
      rfl
    · refine (ExecutesAll.cons (hb.executes (hc.extends.trans hF) hP env) (prefix_after layout s)
        fun h => hc.executes h hF hP env).mono And.right
  · have hdead : a.reachable = false := by simpa using hreach
    exact .ofRun (run_emitStmts_dead hdead s ss) (emitsStmts_unreachable hdead hclosed)

/-- The code between `a` and `b` executes the statements of a block and forgets its locals. -/
structure EmitsBlock (layout : Layout) (ss : List Stmt) (a b : Assembler) : Prop where
  quiet : Quiet [] a b
  closed : b.Closed
  reached : b.reachable = true → a.reachable = true
  ready : b.reachable = true → b.Ready layout []
  completes : b.reachable = true → Stmt.allComplete ss = true
  executes : a.reachable = true → ∀ {F P}, b.Extends F → Laid F P → ∀ env,
    ExecutesAll env P layout a.offset b.offset ss (b.reachable = true)

theorem EmitsBlock.extends (h : EmitsBlock layout ss a b) : a.Extends b := h.quiet.builds.extends

theorem meets_inBlock (ihs : StmtsMeet ss) (hpacked : Packed layout)
    (hss : Stmt.AllWellFormed ret layout ss) (hclosed : a.Closed) (ha : a.Ready layout []) :
    Meets (inBlock (emitStmts ss)) a fun _ b => EmitsBlock layout ss a b := by
  have hsize := ha.size_locals
  refine .bind
    (.ofGet (.bind ((ihs hpacked hss ha.valid hclosed fun _ => ha).mono fun _ b hb => ?_)))
  refine .ofRun (run_truncateLocals _) ?_
  have hquiet := quiet_truncated hb.closed a.locals.size
  have hext := hquiet.builds.extends
  refine ⟨hb.quiet.trans hquiet, closed_of_handlers hb.closed hext rfl, hb.reached, fun h => ?_,
    hb.completes ha.reachable,
    fun hreach F P hF hP env => hb.executes hreach (hext.trans hF) hP env⟩
  obtain ⟨layout', ⟨more, hmore⟩, hready⟩ := hb.ready h
  refine ⟨hready.valid.builds hquiet.builds, h, ?_, hready.stack⟩
  show kindsOf (b.locals.take a.locals.size).toList = layout
  rw [hsize, toList_take, kindsOf, List.map_take]
  show (kindsOf b.locals.toList).take layout.length = layout
  rw [hready.locals, ← hmore, List.take_left']
  rfl

/-- A block that control may not get to. -/
theorem meets_blockReached (ihs : StmtsMeet ss) (hpacked : Packed layout)
    (hss : Stmt.AllWellFormed ret layout ss) (hclosed : a.Closed)
    (hready : a.reachable = true → a.Ready layout []) :
    Meets (whenReachable (inBlock (emitStmts ss))) a fun _ b => EmitsBlock layout ss a b := by
  refine meets_whenReachable (fun h => meets_inBlock ihs hpacked hss hclosed (hready h))
    fun hdead => ?_
  refine ⟨.refl a, hclosed, id, hready, fun h => ?_, fun h => ?_⟩
  · rw [hdead] at h
    cases h
  · rw [hdead] at h
    cases h

theorem stmtMeets_block (ihs : StmtsMeet ss) : StmtMeets (.block ss) := by
  intro ret layout a hpacked hs hclosed ha
  refine (meets_inBlock ihs hpacked hs hclosed ha).mono fun _ b hb => ?_
  exact ⟨hb.quiet, hb.closed, hb.ready, hb.completes,
    fun hF hP env => .block (hb.executes ha.reachable hF hP env)⟩

/-! ## 3. Simple statements -/

theorem stmtMeets_store (slot : UInt16) (t : FieldType) (e : Expr) :
    StmtMeets (.store slot t e) := by
  intro ret layout a hpacked hs hclosed ha
  obtain ⟨hslot, he, hkind⟩ := hs
  refine .bind ((exprMeets e hpacked he hclosed ha).mono fun _ b hb => ?_)
  have hready := hb.ready
  rw [hkind] at hready
  refine (meets_store_next hready (hb.closed hclosed) hpacked hslot).mono fun _ c hc => ?_
  refine ⟨hb.quiet.trans hc.quiet, hc.closed (hb.closed hclosed), fun _ => hc.ready, fun _ => rfl,
    fun hF hP env => ?_⟩
  rw [hc.passes.offset]
  exact (Executes.store (hb.computes (hc.quiet.builds.extends.trans hF) hP env) hkind hslot.1
    hpacked (hc.fetch hready.valid hP hF fun _ => rfl)).mono fun _ => hc.ready.reachable

theorem stmtMeets_ret : StmtMeets .ret := by
  intro ret layout a _ _ hclosed ha
  refine (meets_return ha).mono ?_
  rintro - b ⟨hstep, rfl⟩
  have hquiet := quiet_returned hstep
  refine ⟨hquiet, closed_of_handlers hclosed hquiet.builds.extends rfl, nofun, nofun,
    fun {F P} hF hP env => ?_⟩
  obtain ⟨t, hfetch, -⟩ := hP.fetch_next ha.valid rfl hF
  exact (Executes.ret hfetch).mono False.elim

theorem stmtMeets_retValue (e : Expr) (t : FieldType) : StmtMeets (.retValue e t) := by
  intro ret layout a hpacked hs hclosed ha
  obtain ⟨-, he, hkind⟩ := hs
  refine .bind ((exprMeets e hpacked he hclosed ha).mono fun _ b hb => ?_)
  have hready := hb.ready
  rw [hkind] at hready
  refine (meets_returnValue hready).mono ?_
  rintro - c ⟨hstep, rfl⟩
  have hquiet := quiet_returned hstep
  refine ⟨hb.quiet.trans hquiet,
    closed_of_handlers (hb.closed hclosed) hquiet.builds.extends rfl, nofun, nofun,
    fun {F P} hF hP env => ?_⟩
  obtain ⟨t', hfetch, -⟩ := hP.fetch_next hready.valid rfl hF
  exact (Executes.retValue (hb.computes (hquiet.builds.extends.trans hF) hP env) hkind hfetch).mono
    False.elim

theorem stmtMeets_discard (e : Expr) (hasValue : Bool) : StmtMeets (.discard e hasValue) := by
  intro ret layout a hpacked hs hclosed ha
  obtain ⟨he, rfl⟩ := hs
  refine .bind ((exprMeets e hpacked he hclosed ha).mono fun _ b hb => ?_)
  cases hkind : e.kind with
  -- a call of a void method leaves nothing to be dropped
  | none =>
    have hready := hb.ready
    rw [hkind] at hready
    refine .ofPure ⟨hb.quiet, hb.closed hclosed, fun _ => hready, fun _ => rfl, fun hF hP env => ?_⟩
    exact (Executes.discard (hb.computes hF hP env) (fun v hv => by rw [hkind] at hv; cases hv)
      fun _ => rfl).mono fun _ => hready.reachable
  | some k =>
    have hready := hb.ready
    rw [hkind] at hready
    refine (meets_popValue hready).mono fun _ c hc => ?_
    refine ⟨hb.quiet.trans hc.quiet, hc.closed (hb.closed hclosed), fun _ => hc.ready, fun _ => rfl,
      fun {F P} hF hP env => ?_⟩
    have hfetch := hc.fetch hready.valid hP hF fun _ => by cases k <;> rfl
    have hdrop (v : Machine.Value) (hv : e.kind = some v.kind) :
        Does P b.offset c.offset [v] [] := by
      rw [hkind] at hv
      cases hv
      rw [hc.passes.offset]
      refine does_of_compute hfetch fun μ => ?_
      cases hwide : v.kind.isWide with
      | true => exact compute?_pop2 hwide
      | false => exact compute?_pop hwide
    exact (Executes.discard (hb.computes (hc.quiet.builds.extends.trans hF) hP env) hdrop
      fun hnone => by rw [hkind] at hnone; cases hnone).mono fun _ => hc.ready.reachable

/-! ## 4. Branches -/

theorem stmtMeets_ifThen (cond : CondMeets c₀) (ihs : StmtsMeet ss) :
    StmtMeets (.ifThen c₀ ss) := by
  intro ret layout a hpacked hs hclosed ha
  let no : Label := ⟨a.labels.size⟩
  have hnew : Quiet [] a a.labelled := quiet_newLabel
  have hnew' : Quiet [] a.labelled a.labelled.labelled := quiet_newLabel
  have hno : Pending a a.labelled.labelled no layout [] :=
    (Pending.labelled (.refl a) ha.size_locals).quiet hnew' (by simp)
  have ha₂ : a.labelled.labelled.Ready layout [] :=
    ⟨(ha.valid.step .newLabel).step .newLabel, ha.reachable, ha.locals, ha.stack⟩
  have hclosed₂ : a.labelled.labelled.Closed :=
    closed_of_handlers hclosed (hnew.trans hnew').builds.extends rfl
  refine .bind (.ofRun run_newLabel (.bind (.ofRun run_newLabel ?_)))
  refine .bind
    ((cond hpacked hs.1 ha₂.valid hclosed₂ (fun _ => ha₂) hno.waits).mono fun _ b hb => ?_)
  refine .bind ((meets_blockReached ihs hpacked hs.2 (hb.closed hclosed₂) hb.ready).mono
    fun _ c hc => ?_)
  have hnoc := (hno.aim hb.extends hb.aims).quiet hc.quiet (by simp)
  have hquiet : Quiet [no] a c := ((hnew.trans hnew').trans hb.quiet).trans hc.quiet
  -- behind the branch `no` is the one label that is left to be placed
  have hplaceable : c.Placeable no layout [] :=
    hnoc.placeable ha.valid hc.closed (hquiet.position (by simp [no])) fun l' hle hlt =>
      absurd hlt (Nat.not_lt.mpr hle)
  refine (meets_place (ha.valid.builds hquiet.builds) hc.ready hplaceable fun _ => hc.closed).mono
    fun _ d hd => ?_
  have hcd := hd.step.extends
  refine ⟨(hquiet.trans hd.quiet).close fun l hl => ?_,
    closed_of_handlers hc.closed hcd hd.code.2.2.1,
    hd.ready_of, fun _ => rfl, fun {F P} hF hP env => ?_⟩
  · have hl' : l = no := by simpa using hl
    rw [hl', hd.position]
    exact .inr ⟨Nat.le_refl _, rfl⟩
  · have hFc := hcd.trans hF
    have hposition : (F.labelState no).position = some c.offset := by
      rw [hF.placed _ _ hd.position, hd.position]
    -- both ways lead to the end: through the branch, or past it by the jump
    have hjumps := hb.jumps ha₂.reachable (hc.extends.trans hFc) hP hposition env
    rw [hd.code.2.1]
    refine (Executes.ifThen hjumps fun hon => hc.executes hon hFc hP env).mono fun hon => ?_
    exact (hd.ready (hon.imp_right (hc.extends.targeted _))).reachable

/-- Control leaves for the label if it is here. -/
theorem meets_leaveReached {l : Label} (hready : a.reachable = true → a.Ready layout [])
    (hl : a.Waits l layout []) (hfresh : (a.labelState l).targeted = false) :
    Meets (whenReachable (goto l)) a fun _ b => Leaves a b l layout [] ∧
      ((b.labelState l).targeted = true → a.reachable = true) ∧
      (a.reachable = true → ∀ {F P t}, b.Extends F → Laid F P → (F.labelState l).position = some t →
        P.fetch a.offset = some (.goto ⟨t⟩, Operation.size (.goto l))) := by
  refine meets_whenReachable (fun hreach => ?_) fun hdead =>
    ⟨leaves_unreachable hl hdead, fun h => ?_, fun h => ?_⟩
  · exact (meets_leave (hready hreach) hl).mono fun _ b hb => ⟨hb.1, fun _ => hreach, fun _ => hb.2⟩
  · rw [hfresh] at h
    cases h
  · rw [hdead] at h
    cases h

/-- The code between `a` and `b` executes the statements of a block and leaves for the label if they
complete. -/
def LeavesBlock (layout : Layout) (ss : List Stmt) (l : Label) (a b : Assembler) : Prop :=
  ∃ m, EmitsBlock layout ss a m ∧ m.Extends b ∧
    ((b.labelState l).targeted = true ↔ m.reachable = true) ∧
    (m.reachable = true → ∀ {F P t}, b.Extends F → Laid F P → (F.labelState l).position = some t →
      P.fetch m.offset = some (.goto ⟨t⟩, Operation.size (.goto l)))

theorem meets_blockAndLeave {l : Label} (ihs : StmtsMeet ss) (hpacked : Packed layout)
    (hss : Stmt.AllWellFormed ret layout ss) (hclosed : a.Closed)
    (hready : a.reachable = true → a.Ready layout []) (hl : a.Waits l layout [])
    (hfresh : (a.labelState l).targeted = false) :
    Meets (do whenReachable (inBlock (emitStmts ss)); whenReachable (goto l)) a fun _ b =>
      Departs a b l layout [] ∧ LeavesBlock layout ss l a b := by
  refine .bind ((meets_blockReached ihs hpacked hss hclosed hready).mono fun _ m hm => ?_)
  have hlm := hl.quiet hm.quiet (by simp)
  have hfreshm : (m.labelState l).targeted = false := by
    rw [hm.quiet.kept l hl.made (by simp), hfresh]
  refine (meets_leaveReached hm.ready hlm hfreshm).mono ?_
  rintro - b ⟨hb, hcame, hgoto⟩
  exact ⟨hb.departs hm.quiet hl hm.closed, m, hm, hb.quiet.builds.extends, ⟨hcame, hb.targeted⟩,
    hgoto⟩

/-- The branches are the two ways that control goes behind the condition. -/
theorem stmtMeets_ifElse {ss' : List Stmt} (cond : CondMeets c₀) (ihs : StmtsMeet ss)
    (ihs' : StmtsMeet ss') : StmtMeets (.ifElse c₀ ss ss') := by
  intro ret layout a hpacked hs hclosed ha
  have hfork : emitStmt (.ifElse c₀ ss ss') = (do
      let no ← newLabel
      let done ← newLabel
      emitJump c₀ false no
      (do whenReachable (inBlock (emitStmts ss)); whenReachable (goto done))
      place no
      whenReachable (inBlock (emitStmts ss'))
      place done) := by
    simp only [emitStmt, bind_assoc]
  rw [hfork]
  refine (meets_fork cond hpacked hs.1 hclosed ha (meets_blockAndLeave ihs hpacked hs.2.1)
    fun _ hclosedd hready => (meets_blockReached ihs' hpacked hs.2.2 hclosedd hready).mono
      fun _ e he => ⟨he.quiet, he.closed, he.ready, he⟩).mono ?_
  rintro - f ⟨no, done, b, c, d, e, h, ⟨m, hm, hmc, hleft, hgoto⟩, he⟩
  refine ⟨h.quiet, h.closed, fun hreach => h.joined (h.came hreach), fun hreach => ?_,
    fun {F P} hF hP env => ?_⟩
  · -- control gets to the end of one of the branches
    show (Stmt.allComplete ss || Stmt.allComplete ss') = true
    rw [Bool.or_eq_true]
    exact (h.came hreach).imp (fun hdone => hm.completes (hleft.mp hdone)) he.completes
  · have hFe := h.joins.step.extends.trans hF
    have hFc := h.turns.step.extends.trans (he.extends.trans hFe)
    have hFm := hmc.trans hFc
    have hjumps := h.jumps.jumps ha.reachable (hm.extends.trans hFm) hP (h.position_no hF) env
    have hno (hoff : (b.labelState no).targeted = true) :
        ExecutesAll env P layout d.offset f.offset ss' (e.reachable = true) := by
      rw [h.joins.code.2.1]
      exact he.executes (h.turned hoff).reachable hFe hP env
    refine (Executes.ifElse hjumps (fun hon => hm.executes hon hFm hP env)
      (fun _ hon => ⟨hgoto hon hFc hP (h.position_done hF), rfl⟩) hno).mono ?_
    rintro (⟨-, hon⟩ | ⟨-, hon⟩)
    · exact (h.joined (.inl (hleft.mpr hon))).reachable
    · exact (h.joined (.inr hon)).reachable

end MethodGraft.Typed
