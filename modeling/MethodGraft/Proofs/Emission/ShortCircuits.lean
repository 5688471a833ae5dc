import MethodGraft.Proofs.Emission.Confinement
import MethodGraft.Proofs.Emission.Flags
import MethodGraft.Proofs.Emission.Method
import MethodGraft.Proofs.Simulation.Outlines

/-!
# Proofs.Emission.ShortCircuits — code for conditions short-circuits

The code that is generated for a condition takes, for every assignment of outcomes to the atoms, the
way that short-circuit evaluation takes.  What is left out because constants decide it is just what
no assignment gets to: control goes on behind the code, and jumps have been emitted, if and only if
some assignment makes it so.
-/

namespace MethodGraft.Typed

open ClassFile Code Assembly Assembler Machine Direct

variable {a b m d : Assembler} {layout : Layout} {stack : List ValueKind} {target : Label}
    {c ca cb : Cond}
  {when first : Bool}

/-! ## 1. Where conditions are generated -/

/-- Code for a condition that jumps to the label can be added.  Code generation adds conditions
nowhere else. -/
structure Prepared (a : Assembler) (target : Label) (layout : Layout) (stack : List ValueKind) :
    Prop where
  valid : a.Valid
  closed : a.Closed
  ready : a.reachable = true → a.Ready layout stack
  waits : a.Waits target layout stack
  consistent : a.Consistent

namespace Prepared

theorem emits (h : Prepared a target layout stack) (hpacked : Packed layout)
    (hc : c.WellFormed layout) (hrun : (emitJump c when target).run.run a = (.ok ⟨⟩, b)) :
    EmitsJump layout stack c when target a b :=
  (condMeets c hpacked hc h.valid h.closed h.ready h.waits).of_ok hrun

theorem spares (h : Prepared a target layout stack)
    (hrun : (emitJump c when target).run.run a = (.ok ⟨⟩, b)) : Spares [target] a b :=
  sparing_emitJump c when (by simp) a ⟨⟩ b h.consistent (by simpa using h.waits.made) hrun

/-- Code for another condition can be added behind that for a first one. -/
theorem behind {l : Label} (h : Prepared a l layout stack)
    (hb : EmitsJump layout stack c when l a b)
    (hspares : Spares [l] a b) (hwaits : b.Waits target layout stack) :
    Prepared b target layout stack where
  valid := hb.valid h.valid
  closed := hb.closed h.closed
  ready := hb.ready
  waits := hwaits
  consistent := hspares.consistent

/-- Code that jumps to a new label can be added. -/
theorem skip (h : Prepared a target layout stack) (hreach : a.reachable = true) :
    Prepared a.labelled ⟨a.labels.size⟩ layout stack where
  valid := h.valid.step .newLabel
  closed := closed_labelled h.closed
  ready _ := ready_labelled (h.ready hreach)
  waits := waits_labelled (h.ready hreach).size_locals
  consistent := h.consistent.advances (advances_labelled h.consistent)

end Prepared

/-! ## 2. Directed code -/

/-- The code from `a` to `b` takes the way of short-circuit evaluation.  Only what no assignment
gets to is left out. -/
structure Directs (layout : Layout) (c : Cond) (when : Bool) (target : Label) (a b : Assembler) :
    Prop where
  onward : ∀ n, b.reachable = true ↔ a.reachable = true ∧ c.CanBe n (!when)
  away : ∀ n, a.jumpsTo target < b.jumpsTo target ↔ a.reachable = true ∧ c.CanBe n when
  outlined : ∀ {F P t}, b.Extends F → Laid F P → (F.labelState target).position = some t → ∀ n,
    ∃ ps, Outlined P layout c n when t (a.reachable = true) a.offset ps b.offset

theorem directs_dead (hdead : a.reachable = false) : Directs layout c when target a a where
  onward _ := by simp [hdead]
  away _ := by simp [hdead]
  outlined _ _ _ _ := ⟨[], .nil _, List.nil_sublist _, by simp [hdead]⟩

theorem directs_const {v : Bool} (ha : Prepared a target layout stack) (hreach : a.reachable = true)
    (hrun : (emitJump (.const v) when target).run.run a = (.ok ⟨⟩, b)) :
    Directs layout (.const v) when target a b := by
  unfold emitJump at hrun
  rw [run_get_bind, if_neg (by simp [hreach])] at hrun
  dsimp only at hrun
  split at hrun
  next hsame =>
    obtain ⟨hend, hpush, hsize⟩ := endsInJump_goto ha.consistent ha.waits.made hrun
    refine ⟨fun _ => ?_, fun _ => ?_, fun {F P t} hF hP ht n => ?_⟩
    · simp [hend.reachable, Cond.canBe_const, hsame]
    · simp [hend.jumpsTo, Cond.canBe_const, hreach, hsame]
    · obtain ⟨t', hfetch, hposition⟩ := hP.fetch_next ha.valid hpush hF
      obtain rfl : t = t' := Option.some.inj (ht.symm.trans (hposition target rfl))
      have hstands : (Piece.jump a.offset b.offset t).Stands P layout := by
        show P.fetch a.offset = some (.goto ⟨t⟩, b.offset - a.offset)
        rw [hfetch, hsize, Nat.add_sub_cancel_left]
        rfl
      refine ⟨_, .single hstands hend.offset, List.nil_sublist _, fun _ σ => ?_⟩
      show Walks _ σ a.offset [] (if v = when then t else b.offset)
      rw [if_pos hsame]
      exact .single _ σ
  -- nothing is emitted, and no way leads to the target
  next hother =>
    cases hrun
    refine ⟨fun _ => ?_, fun _ => ?_, fun {F P t} hF hP ht n => ?_⟩
    · simpa [Cond.canBe_const, hreach, Bool.eq_not] using hother
    · simpa [Cond.canBe_const, hreach] using hother
    · refine ⟨[], .nil _, List.nil_sublist _, fun _ σ => ?_⟩
      show Walks _ σ a.offset [] (if v = when then t else a.offset)
      rw [if_neg hother]
      exact .stay _

theorem directs_atom (hatom : c.IsAtom) (ha : Prepared a target layout stack)
    (hreach : a.reachable = true) (hb : EmitsJump layout stack c when target a b)
    (hrun : (emitJump c when target).run.run a = (.ok ⟨⟩, b)) :
    Directs layout c when target a b := by
  have hend := endsInJump_atom hatom ha.consistent hreach ha.waits.made hrun
  refine ⟨fun n => ?_, fun n => ?_, fun {F P t} hF hP ht n => ?_⟩
  · simp [hend.reachable, hreach, hatom.canBe]
  · simp [hend.jumpsTo, hreach, hatom.canBe]
  · have hstands : (Piece.test a.offset b.offset c n when t).Stands P layout :=
      fun env => (hb.jumps hreach hF hP ht env).mono (fun _ => trivial) fun _ => trivial
    refine ⟨_, .single hstands hend.offset, ?_, fun _ σ => ?_⟩
    · rw [hatom.atoms_eq]
      exact .refl _
    · rw [hatom.asked_eq, hatom.holds_eq]
      exact .single _ σ

theorem Directs.not (h : Directs layout c (!when) target a b) :
    Directs layout (.not c) when target a b where
  onward n := by rw [h.onward n, Cond.canBe_not]
  away n := by rw [h.away n, Cond.canBe_not]
  outlined hF hP ht n := by
    obtain ⟨ps, houtline, htested, hwalks⟩ := h.outlined hF hP ht n
    refine ⟨ps, houtline, htested, fun hreach σ => ?_⟩
    have hflip : ((Cond.not c).holds σ n = when) = (c.holds σ n = !when) :=
      propext Bool.not_eq_eq_eq_not
    simp only [hflip]
    exact hwalks hreach σ

/-- A label that is made adds no code. -/
theorem Directs.ofLabelled (h : Directs layout c when target a.labelled b) :
    Directs layout c when target a b :=
  ⟨h.onward, h.away, h.outlined⟩

/-! ## 3. Two operands -/

/-- Both conditions jump to the same label. -/
theorem Directs.both (hc : c.Joins ca cb when) (hab : a.Extends b) (hbd : b.Extends d)
    (ha : Directs layout ca when target a b) (hb : Directs layout cb when target b d) :
    Directs layout c when target a d where
  -- the atoms of the second condition are numbered from where those of the first end
  onward n := by
    rw [hb.onward (n + ca.atoms.length), ha.onward n, hc.canBe]
    simp [and_assoc]
  away n := by
    have hle := jumpsTo_le hab target
    have hle' := jumpsTo_le hbd target
    have hsplit : a.jumpsTo target < d.jumpsTo target ↔
        a.jumpsTo target < b.jumpsTo target ∨ b.jumpsTo target < d.jumpsTo target := by omega
    rw [hsplit, ha.away n, hb.away (n + ca.atoms.length), ha.onward n, hc.canBe]
    simp [and_or_left, and_assoc]
  outlined hF hP ht n := by
    obtain ⟨ps, hps⟩ := ha.outlined (hbd.trans hF) hP ht n
    obtain ⟨qs, hqs⟩ := hb.outlined hF hP ht (n + ca.atoms.length)
    exact ⟨ps ++ qs, hps.joins hc hqs (fun hreach hother => (ha.onward n).mpr ⟨hreach, hother⟩)
      (if_pos rfl).symm⟩

/-- The first condition skips the second: between `d` and `e` its label is placed. -/
theorem Directs.skipping {e : Assembler} {skip : Label} (hc : c.Joins ca cb (!when))
    (hbd : b.Extends d) (hde : d.Extends e) (hoffset : e.offset = d.offset)
    (hskip : (e.labelState skip).position = some d.offset)
    (hon : e.reachable = true ↔ d.reachable = true ∨ a.jumpsTo skip < b.jumpsTo skip)
    (hfirst : b.jumpsTo target = a.jumpsTo target) (hlast : e.jumpsTo target = d.jumpsTo target)
    (ha : Directs layout ca (!when) skip a b) (hb : Directs layout cb when target b d) :
    Directs layout c when target a e where
  onward n := by
    rw [hon, hb.onward (n + ca.atoms.length), ha.onward n, ha.away n, hc.canBe]
    simp [and_or_left, and_assoc, or_comm]
  away n := by
    rw [hlast, ← hfirst, hb.away (n + ca.atoms.length), ha.onward n, hc.canBe]
    simp [and_assoc]
  outlined hF hP ht n := by
    have hFd := hde.trans hF
    -- the first condition leads to where the second one ends
    have hposition := (congrArg LabelState.position (hF.placed _ _ hskip)).trans hskip
    obtain ⟨ps, hps⟩ := ha.outlined (hbd.trans hFd) hP hposition n
    obtain ⟨qs, hqs⟩ := hb.outlined hFd hP ht (n + ca.atoms.length)
    refine ⟨ps ++ qs, ?_⟩
    rw [hoffset]
    exact hps.joins hc hqs (fun hreach hother => (ha.onward n).mpr ⟨hreach, hother⟩)
      (if_neg (by simp)).symm

def CondDirects (layout : Layout) (c : Cond) : Prop :=
  c.WellFormed layout → ∀ {stack : List ValueKind} {a b : Assembler} {when : Bool} {target : Label},
    Prepared a target layout stack → (emitJump c when target).run.run a = (.ok ⟨⟩, b) →
      Directs layout c when target a b

theorem directs_both (hpacked : Packed layout) (hc : c.Joins ca cb when)
    (iha : CondDirects layout ca) (ihb : CondDirects layout cb) (hca : ca.WellFormed layout)
    (hcb : cb.WellFormed layout) (ha : Prepared a target layout stack)
    (hrun : (do emitJump ca when target; emitJump cb when target : Assembly Unit).run.run a =
      (.ok ⟨⟩, d)) :
    Directs layout c when target a d := by
  obtain ⟨_, b, hruna, hrunb⟩ := run_bind_eq_ok.mp hrun
  have hab := ha.emits hpacked hca hruna
  have hb := ha.behind hab (ha.spares hruna) (ha.waits.later hab.extends hab.aims)
  have hbd := hb.emits hpacked hcb hrunb
  exact .both hc hab.extends hbd.extends (iha hca ha hruna) (ihb hcb hb hrunb)

theorem directs_skipping (hpacked : Packed layout) (hc : c.Joins ca cb (!when))
    (iha : CondDirects layout ca) (ihb : CondDirects layout cb) (hca : ca.WellFormed layout)
    (hcb : cb.WellFormed layout) (ha : Prepared a target layout stack) (hreach : a.reachable = true)
    {e : Assembler} (hrun : (do
      let skip ← newLabel
      emitJump ca (!when) skip
      emitJump cb when target
      place skip : Assembly Unit).run.run a = (.ok ⟨⟩, e)) : Directs layout c when target a e := by
  obtain ⟨_, _, hnew, hrun⟩ := run_bind_eq_ok.mp hrun
  rw [run_newLabel] at hnew
  cases hnew
  obtain ⟨_, b, hruna, hrun⟩ := run_bind_eq_ok.mp hrun
  obtain ⟨_, d, hrunb, hplace⟩ := run_bind_eq_ok.mp hrun
  let skip : Label := ⟨a.labels.size⟩
  have hne : target ≠ skip := ne_next ha.waits
  have ha₁ : Prepared a.labelled skip layout stack := ha.skip hreach
  have hab : EmitsJump layout stack ca (!when) skip a.labelled b := ha₁.emits hpacked hca hruna
  have hspares : Spares [skip] a.labelled b := ha₁.spares hruna
  have hb := ha₁.behind hab hspares
    (ha.waits.quiet (quiet_newLabel.trans hab.quiet) (by simpa using hne))
  have hbd := hb.emits hpacked hcb hrunb
  have hplaceable : d.Placeable skip layout stack :=
    placeable_skip (ha.ready hreach) ha.closed ha.waits hab hbd
  have hde :=
    (meets_place (hbd.valid hb.valid) hbd.ready hplaceable fun _ => hbd.closed hb.closed).of_ok
    hplace
  -- only the code for the first condition jumps to the label, and it jumps nowhere else
  have hkept : d.labelState skip = b.labelState skip :=
    hbd.quiet.kept skip (Nat.lt_of_lt_of_le ha₁.waits.made hab.extends.labels)
      (by simpa using hne.symm)
  have hon : e.reachable = true ↔ d.reachable = true ∨ a.jumpsTo skip < b.jumpsTo skip := by
    rw [hde.reachable_iff, hkept,
      targeted_iff_jumpsTo ha.consistent hspares.consistent hab.extends hab.handlers]
  have hfirst : b.jumpsTo target = a.jumpsTo target :=
    hspares.jumpsTo target (Nat.lt_of_lt_of_le ha.waits.made (quiet_newLabel.builds.extends.labels))
      (by simpa using hne)
  have hlast : e.jumpsTo target = d.jumpsTo target := by
    unfold jumpsTo
    rw [hde.code.1]
  exact .skipping hc hbd.extends hde.step.extends hde.code.2.1 hde.position hon hfirst hlast
    (iha hca ha₁ hruna).ofLabelled (ihb hcb hb hrunb)

/-- Only where control is there is anything to be shown. -/
theorem condDirects_of
    (h : c.WellFormed layout → ∀ {stack : List ValueKind} {a b : Assembler} {when : Bool}
    {target : Label}, Prepared a target layout stack → a.reachable = true →
      (emitJump c when target).run.run a = (.ok ⟨⟩, b) → Directs layout c when target a b) :
      CondDirects layout c := by
  intro hc stack a b when target ha hrun
  by_cases hreach : a.reachable = true
  · exact h hc ha hreach hrun
  · have hdead : a.reachable = false := by simpa using hreach
    rw [run_emitJump_dead hdead] at hrun
    cases hrun
    exact directs_dead hdead

theorem condDirects (hpacked : Packed layout) (c : Cond) : CondDirects layout c := by
  induction c using Cond.shapes with
  | const v => exact condDirects_of fun _ _ _ _ _ _ ha hreach hrun => directs_const ha hreach hrun
  | atom c hatom =>
    refine condDirects_of fun hc _ _ _ _ _ ha hreach hrun => ?_
    exact directs_atom hatom ha hreach (ha.emits hpacked hc hrun) hrun
  | not c ih =>
    refine condDirects_of fun hc _ _ _ _ _ ha hreach hrun => ?_
    unfold emitJump at hrun
    rw [run_get_bind, if_neg (by simp [hreach])] at hrun
    exact (ih hc ha hrun).not
  | and ca cb iha ihb =>
    refine condDirects_of fun hc _ _ _ when _ ha hreach hrun => ?_
    unfold emitJump at hrun
    rw [run_get_bind, if_neg (by simp [hreach])] at hrun
    cases when with
    | true => exact directs_skipping hpacked (Cond.joins_and ca cb) iha ihb hc.1 hc.2 ha hreach hrun
    | false => exact directs_both hpacked (Cond.joins_and ca cb) iha ihb hc.1 hc.2 ha hrun
  | or ca cb iha ihb =>
    refine condDirects_of fun hc _ _ _ when _ ha hreach hrun => ?_
    unfold emitJump at hrun
    rw [run_get_bind, if_neg (by simp [hreach])] at hrun
    cases when with
    | true => exact directs_both hpacked (Cond.joins_or ca cb) iha ihb hc.1 hc.2 ha hrun
    | false => exact directs_skipping hpacked (Cond.joins_or ca cb) iha ihb hc.1 hc.2 ha hreach hrun

/-! ## 4. Short circuits -/

/-- The code from `a` to `b`, once it stands in the finished program, goes to the label if the
condition comes out as `when` and goes on behind itself otherwise, whatever the assignment.  It asks
the atoms that short-circuit evaluation asks, each once and in that order (`cond_eq_ok_iff`,
`Cond.asked_sublist`). -/
structure ShortCircuits (layout : Layout) (stack : List ValueKind) (c : Cond) (when : Bool)
    (target : Label) (a b : Assembler) : Prop where
  /-- There is one way through the code, and nowhere the code for an atom twice. -/
  walks : ∀ {F P t}, b.Extends F → Laid F P → (F.labelState target).position = some t →
    ∃ ps, Outline P layout a.offset ps b.offset ∧ (tested ps).Sublist c.atoms.zipIdx ∧
      ∀ σ is q, b.offset ≤ q →
      (Walks ps σ a.offset is q ↔ is = c.asked σ 0 ∧ q = if c.holds σ 0 = when then t else b.offset)
  /-- The machine takes it where the atoms come out so, and finds the operands below as they
  were. -/
  runs : ∀ {F P t}, b.Extends F → Laid F P → (F.labelState target).position = some t →
    ∀ {env : Environment} {σ : Nat → Bool} {m m' : Memory} {μ : Slots Machine.Value},
      Agree layout m.locals μ →
      Evaluates env c.atoms σ m (c.asked σ 0) m' → ∀ operands : List Machine.Value,
        Reaches env P (.running a.offset operands μ m.past)
          (.running (if c.holds σ 0 = when then t else b.offset) operands μ m'.past)
  /-- Where control goes on, the stack holds values of the same kinds as before. -/
  ready : b.reachable = true → b.Ready layout stack
  /-- Control goes on if the condition can come out the other way. -/
  onward : b.reachable = true ↔ ∃ σ, c.holds σ 0 ≠ when
  /-- Some jump to the label has been added if the condition can come out as `when`. -/
  away : a.jumpsTo target < b.jumpsTo target ↔ ∃ σ, c.holds σ 0 = when

/-- Wherever code generation adds the code of a condition (where control gets to, outside of every
exception range, with a label that waits), it fails only for want of capacity, and what it adds
short-circuits. -/
theorem emitJump_shortCircuits (hpacked : Packed layout) (hc : c.WellFormed layout)
    (ha : a.Ready layout stack) (hclosed : a.Closed) (hconsistent : a.Consistent)
    (hl : a.Waits target layout stack) (when : Bool) :
    Meets (emitJump c when target) a fun _ b => ShortCircuits layout stack c when target a b := by
  have hprepared : Prepared a target layout stack :=
    ⟨ha.valid, hclosed, fun _ => ha, hl, hconsistent⟩
  refine (condMeets c hpacked hc ha.valid hclosed (fun _ => ha) hl).withOk fun _ b hrun hb => ?_
  have hd := condDirects hpacked c hc hprepared hrun
  refine ⟨fun {F P t} hF hP ht => ?_, fun {F P t} hF hP ht env σ m m' μ hagree heval operands => ?_,
    hb.ready, ?_, ?_⟩
  · obtain ⟨ps, hps⟩ := hd.outlined hF hP ht 0
    have hbehind : b.offset ≤ t := hF.later target t (hb.aims.position.trans hl.unplaced) ht
    refine ⟨ps, hps.outline, hps.tested, fun σ is q hq => ⟨fun hwalk => ?_, ?_⟩⟩
    · refine hwalk.unique hps.outline (hps.walks ha.reachable σ) hq ?_
      split
      · exact hbehind
      · exact Nat.le_refl _
    · rintro ⟨rfl, rfl⟩
      exact hps.walks ha.reachable σ
  · obtain ⟨ps, hps⟩ := hd.outlined hF hP ht 0
    refine (hps.walks ha.reachable σ).reaches (fun s hs => hps.outline.stands hs) (fun e he => ?_)
      hagree heval operands
    exact List.mem_zipIdx_iff_getElem?.mp (hps.tested.subset he)
  · rw [hd.onward 0, and_iff_right ha.reachable]
    exact exists_congr fun σ => Bool.eq_not
  · rw [hd.away 0, and_iff_right ha.reachable]
    rfl

def sampleBody : Assembler := (start .empty none [.int, .boolean]).labelled

/-- The `int` is negative, and neither is the boolean true nor a constant that is false. -/
def sampleCond : Cond :=
  .and (.ints .lt (.local 0 .int) (.int 0)) (.not (.or (.value (.local 1 .boolean)) (.const false)))

/-- The sample can come out either way, so that control goes on behind its code and jumps have been
emitted. -/
theorem emitJump_shortCircuits_sample :
    ∃ b, (emitJump sampleCond true ⟨0⟩).run.run sampleBody = (.ok ⟨⟩, b) ∧
    b.reachable = true ∧ sampleBody.jumpsTo ⟨0⟩ < b.jumpsTo ⟨0⟩ := by
  obtain ⟨b, hrun⟩ : ∃ b, (emitJump sampleCond true ⟨0⟩).run.run sampleBody = (.ok ⟨⟩, b) := by
    have hok : ((emitJump sampleCond true ⟨0⟩).run.run sampleBody).1.isOk = true := by
      decide +kernel
    obtain ⟨_, hresult⟩ := exists_of_isOk hok
    exact ⟨_, Prod.ext hresult rfl⟩
  have hconsistent := consistent_start .empty none [.int, .boolean]
  have hready : (start .empty none [.int, .boolean]).Ready ([.int, .boolean].flatMap layoutOf) [] :=
    ⟨valid_start ConstantPool.wellFormed_empty (by decide), rfl, rfl, rfl⟩
  have hwellFormed : sampleCond.WellFormed ([.int, .boolean].flatMap layoutOf) :=
    ⟨⟨rfl, rfl, trivial, rfl⟩, ⟨rfl, rfl⟩, trivial⟩
  have hpacked : Packed ([.int, .boolean].flatMap layoutOf) :=
    packed_flatMap_layoutOf packed_nil [.int, .boolean]
  have hclosed : sampleBody.Closed := by
    intro r hr
    cases hr
  have h := (emitJump_shortCircuits hpacked hwellFormed (ready_labelled hready) hclosed
    (hconsistent.advances (advances_labelled hconsistent)) (waits_labelled hready.size_locals)
    true).of_ok hrun
  exact ⟨b, hrun, h.onward.mpr ⟨fun _ => false, by decide⟩, h.away.mpr ⟨fun i => i = 0, by decide⟩⟩

end MethodGraft.Typed
