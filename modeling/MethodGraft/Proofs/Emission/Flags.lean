import MethodGraft.Proofs.Emission.Conditions

/-!
# Proofs.Emission.Flags — conditions as values

Where a condition is used as a value, 1 and 0 are pushed in two places that control comes together
from.  With this, code generation is covered for all expressions and conditions.
-/

namespace MethodGraft.Typed

open ClassFile Code Assembly Assembler Machine Direct

variable {a b c : Assembler} {layout : Layout} {stack : List ValueKind} {l : Label}

/-! ## 1. Leaving for a label -/

/-- Control does not get behind `b`: where it gets to `a` at all, it leaves for the label from
there. -/
structure Leaves (a b : Assembler) (l : Label) (layout : Layout) (stack : List ValueKind) :
    Prop where
  quiet : Quiet [l] a b
  handlers : b.handlers = a.handlers
  aims : Aims a b l layout stack
  dead : b.reachable = false
  targeted : a.reachable = true → (b.labelState l).targeted = true

theorem meets_leave (ha : a.Ready layout stack) (hl : a.Waits l layout stack) :
    Meets (goto l) a fun _ b => Leaves a b l layout stack ∧
      ∀ {F P t}, b.Extends F → Laid F P → (F.labelState l).position = some t →
        P.fetch a.offset = some (.goto ⟨t⟩, Operation.size (.goto l)) := by
  refine (meets_goto ha (hl.awaits ha.locals) hl.expects).mono fun _ b hb => ?_
  have haims := hb.aims hl.made hl.expects ha.locals
  have hquiet := hb.quiet hl.made
  obtain ⟨hstep, types, htypes, rfl⟩ := hb
  have htargeted : ((a.jumped (.goto l) l types false).labelState l).targeted = true := by
    rw [labelState_jumped hl.made, if_pos rfl]
    rfl
  refine ⟨⟨hquiet, rfl, haims, rfl, fun _ => htargeted⟩, fun {F P t} hF hP ht => ?_⟩
  obtain ⟨t', hfetch, hposition⟩ := hP.fetch_next ha.valid rfl hF
  have hsame := hposition l rfl
  rw [ht] at hsame
  cases hsame
  exact hfetch

theorem leaves_unreachable (hl : a.Waits l layout stack) (hdead : a.reachable = false) :
    Leaves a a l layout stack where
  quiet := (Quiet.refl a).close nofun
  handlers := rfl
  aims := .ofKept hl.expects rfl
  dead := hdead
  targeted h := by
    rw [hdead] at h
    cases h

theorem meets_whenReachable {x : Assembly Unit} {Q : Unit → Assembler → Prop}
    (h : a.reachable = true → Meets x a Q) (h' : a.reachable = false → Q () a) :
    Meets (whenReachable x) a Q := by
  refine .bind (.ofGet ?_)
  by_cases hreach : a.reachable = true
  · rw [if_pos hreach]
    exact h hreach
  · rw [if_neg hreach]
    exact .ofPure (h' (by simpa using hreach))

/-- The value is pushed before control leaves. -/
theorem meets_pushAndLeave (v : Int32) (hready : a.reachable = true → a.Ready layout stack)
    (hl : a.Waits l layout (.int :: stack)) :
    Meets (whenReachable do iconst v; goto l) a fun _ b => Leaves a b l layout (.int :: stack) ∧
      (a.reachable = true → ∀ {F P t}, b.Extends F → Laid F P → (F.labelState l).position = some t →
        ∃ q n, (∀ rest, Does P a.offset q rest (.int v :: rest)) ∧
          P.fetch q = some (.goto ⟨t⟩, n)) := by
  refine meets_whenReachable (fun hreach => ?_) fun hdead =>
    ⟨leaves_unreachable hl hdead, fun h => ?_⟩
  · have ha := hready hreach
    refine .bind ((meets_iconst ha v).mono fun _ b hb => ?_)
    obtain ⟨op, hemits, -⟩ := id hb
    have hpassed := Passed.ofEmits hemits
    have hlb := hl.quiet hpassed.quiet (by simp)
    refine (meets_leave hpassed.ready hlb).mono ?_
    rintro - c ⟨hc, hfetch⟩
    have haims := (Aims.ofKept hl.expects (hpassed.quiet.kept _ hl.made (by simp))).trans hc.aims
      ⟨hpassed.extends.offset, hc.quiet.builds.extends.offset⟩
    refine ⟨⟨hpassed.quiet.trans hc.quiet, hc.handlers.trans hpassed.handlers, haims, hc.dead,
      fun _ => hc.targeted hpassed.ready.reachable⟩, fun _ F P t hF hP ht => ?_⟩
    exact ⟨b.offset, _, hb.does ha.valid hP (hc.quiet.builds.extends.trans hF), hfetch hF hP ht⟩
  · rw [hdead] at h
    cases h

/-- The value is pushed if control is here. -/
theorem meets_pushReached (v : Int32) (ha : a.Valid)
    (hready : a.reachable = true → a.Ready layout stack) :
    Meets (whenReachable (iconst v)) a fun _ b => Quiet [] a b ∧ b.handlers = a.handlers ∧ b.Valid ∧
      (b.reachable = true → b.Ready layout (.int :: stack)) ∧ b.reachable = a.reachable ∧
      (a.reachable = true → ∀ {F P}, b.Extends F → Laid F P → ∀ rest,
        Does P a.offset b.offset rest (.int v :: rest)) := by
  refine meets_whenReachable (fun hreach => ?_) fun hdead =>
    ⟨.refl a, rfl, ha, fun h => ?_, rfl, fun h => ?_⟩
  · have hready := hready hreach
    refine (meets_iconst hready v).mono fun _ b hb => ?_
    obtain ⟨op, hemits, -⟩ := id hb
    have hpassed := Passed.ofEmits hemits
    exact ⟨hpassed.quiet, hpassed.handlers, hpassed.ready.valid, fun _ => hpassed.ready,
      hpassed.ready.reachable.trans hreach.symm, fun _ F P hF hP => hb.does ha hP hF⟩
  · rw [hdead] at h
    cases h
  · rw [hdead] at h
    cases h

/-! ## 2. Two ways -/

/-- Control does not get behind `b`; it may have left for the label before. -/
structure Departs (a b : Assembler) (l : Label) (layout : Layout) (stack : List ValueKind) :
    Prop where
  quiet : Quiet [l] a b
  closed : b.Closed
  aims : Aims a b l layout stack
  dead : b.reachable = false

theorem Leaves.departs (h : Leaves b c l layout stack) (hab : Quiet [] a b)
    (hl : a.Waits l layout stack) (hclosed : b.Closed) : Departs a c l layout stack where
  quiet := hab.trans h.quiet
  closed := closed_of_handlers hclosed h.quiet.builds.extends h.handlers
  aims := (Aims.ofKept hl.expects (hab.kept _ hl.made (by simp))).trans h.aims
    ⟨hab.builds.extends.offset, h.quiet.builds.extends.offset⟩
  dead := h.dead

/-- The code between `a` and `f` goes one of two ways behind a condition.  One is the code between
`b` and `c`, which leaves for the label `done` at the end; the other is the code between `d` and
`e`, which begins at the label `no` and comes to the end by itself. -/
structure Forks (layout : Layout) (stack stack' : List ValueKind) (c₀ : Cond) (no done : Label)
    (a b c d e f : Assembler) : Prop where
  quiet : Quiet [] a f
  closed : f.Closed
  jumps : EmitsJump layout stack c₀ false no a.labelled.labelled b
  departs : Departs b c done layout stack'
  turns : Places c d no layout stack
  falls : Quiet [] d e
  joins : Places e f done layout stack'
  kept : e.labelState done = c.labelState done

namespace Forks

variable {stack' : List ValueKind} {c₀ : Cond} {no done : Label} {d e f F : Assembler}

theorem position_no (h : Forks layout stack stack' c₀ no done a b c d e f) (hF : f.Extends F) :
    (F.labelState no).position = some d.offset := by
  have hdF := (h.falls.builds.extends.trans h.joins.step.extends).trans hF
  rw [hdF.placed _ _ h.turns.position, h.turns.position, h.turns.code.2.1]

theorem position_done (h : Forks layout stack stack' c₀ no done a b c d e f) (hF : f.Extends F) :
    (F.labelState done).position = some f.offset := by
  rw [hF.placed _ _ h.joins.position, h.joins.position, h.joins.code.2.1]

/-- The second way begins where the condition can fail. -/
theorem turned (h : Forks layout stack stack' c₀ no done a b c d e f)
    (ht : (b.labelState no).targeted = true) : d.Ready layout stack :=
  h.turns.ready (.inr (h.departs.quiet.builds.extends.targeted _ ht))

/-- Either way leads to the end. -/
theorem joined (h : Forks layout stack stack' c₀ no done a b c d e f)
    (hon : (c.labelState done).targeted = true ∨ e.reachable = true) : f.Ready layout stack' := by
  rw [← h.kept] at hon
  exact h.joins.ready hon.symm

/-- There is no other way to the end. -/
theorem came (h : Forks layout stack stack' c₀ no done a b c d e f) (hreach : f.reachable = true) :
    (c.labelState done).targeted = true ∨ e.reachable = true := by
  rw [← h.kept]
  refine Decidable.byContradiction fun hnot => ?_
  rw [not_or] at hnot
  rw [h.joins.dead (by simpa using hnot.2) (by simpa using hnot.1)] at hreach
  cases hreach

end Forks

/-- Code is generated for the two ways if it is for each of them. -/
theorem meets_fork {stack' : List ValueKind} {c₀ : Cond} {x : Label → Assembly Unit}
    {y : Assembly Unit} {X : Label → Assembler → Assembler → Prop}
    {Y : Assembler → Assembler → Prop} (ih : CondMeets c₀)
    (hpacked : Packed layout) (hc₀ : c₀.WellFormed layout) (hclosed : a.Closed)
    (ha : a.Ready layout stack)
    (hx : ∀ {b done}, b.Closed → (b.reachable = true → b.Ready layout stack) →
      b.Waits done layout stack' → (b.labelState done).targeted = false →
        Meets (x done) b fun _ c => Departs b c done layout stack' ∧ X done b c)
    (hy : ∀ {d}, d.Valid → d.Closed → (d.reachable = true → d.Ready layout stack) →
      Meets y d fun _ e =>
        Quiet [] d e ∧ e.Closed ∧ (e.reachable = true → e.Ready layout stack') ∧ Y d e) :
    Meets (do
      let no ← newLabel
      let done ← newLabel
      emitJump c₀ false no
      x done
      place no
      y
      place done) a fun _ f => ∃ no done b c d e,
        Forks layout stack stack' c₀ no done a b c d e f ∧ X done b c ∧ Y d e := by
  let no : Label := ⟨a.labels.size⟩
  let done : Label := ⟨a.labelled.labels.size⟩
  have hindex : done.index = no.index + 1 := size_labelled a
  have hne : done ≠ no := fun h => by
    rw [h] at hindex
    omega
  have hnew : Quiet [] a a.labelled.labelled := quiet_newLabel.trans quiet_newLabel
  have hno : Pending a a.labelled.labelled no layout stack :=
    (Pending.labelled (.refl a) ha.size_locals).quiet quiet_newLabel (by simp)
  have hdone : Pending a a.labelled.labelled done layout stack' :=
    .labelled (quiet_newLabel (a := a)).builds.extends ha.size_locals
  have hlater : ∀ l, l = no ∨ l = done → a.labels.size ≤ l.index := by
    rintro l (rfl | rfl)
    · exact hno.later
    · exact hdone.later
  have ha₂ : a.labelled.labelled.Ready layout stack :=
    ⟨ha.valid.builds hnew.builds, ha.reachable, ha.locals, ha.stack⟩
  have hclosed₂ := closed_of_handlers hclosed hnew.builds.extends rfl
  refine .bind (.ofRun run_newLabel (.bind (.ofRun run_newLabel ?_)))
  refine .bind ((ih hpacked hc₀ ha₂.valid hclosed₂ (fun _ => ha₂) hno.waits).mono fun _ b hb => ?_)
  have hdoneb := hdone.quiet hb.quiet (by simpa using hne)
  have hfresh : (b.labelState done).targeted = false := by
    rw [hb.quiet.kept done hdone.waits.made (by simpa using hne), labelState_next]
  refine .bind ((hx (hb.closed hclosed₂) hb.ready hdoneb.waits hfresh).mono ?_)
  rintro - c ⟨hc, hxc⟩
  -- the second way begins
  have hnoc := (hno.aim hb.extends hb.aims).quiet hc.quiet (by simpa using hne.symm)
  have hquietc : Quiet [no, done] a c := (hnew.trans hb.quiet).trans hc.quiet
  have hplaceable : c.Placeable no layout stack :=
    hnoc.placeable ha.valid hc.closed (hquietc.position fun l hl => hlater l (by simpa using hl))
      fun l' hle hlt => absurd hlt (Nat.not_lt.mpr hle)
  have hvalidc := ha.valid.builds hquietc.builds
  refine .bind ((meets_place hvalidc (fun h => by rw [hc.dead] at h; cases h) hplaceable
    fun _ => hc.closed).mono fun _ d hd => ?_)
  have hclosedd := closed_of_handlers hc.closed hd.step.extends hd.code.2.2.1
  refine .bind ((hy (hvalidc.step hd.step) hclosedd hd.ready_of).mono ?_)
  rintro - e ⟨hquiete, hclosede, hready, hye⟩
  -- the two ways come together
  have hdonee := ((hdoneb.aim hc.quiet.builds.extends hc.aims).quiet hd.quiet
    (by simpa using hne)).quiet hquiete (by simp)
  have hde : Quiet [no] c e := hd.quiet.trans hquiete
  have hquiet : Quiet [no, done, no] a e := hquietc.trans hde
  have hplaceable' : e.Placeable done layout stack' := by
    refine hdonee.placeable ha.valid hclosede (hquiet.position fun l hl => hlater l (by
      simpa [or_comm, or_assoc, or_left_comm] using hl)) fun l' hle hlt => ?_
    have hl' : l' = no := by
      obtain ⟨i⟩ := l'
      have : a.labels.size = no.index := rfl
      simp only [no, Label.mk.injEq] at hle hlt ⊢
      omega
    rw [hl', hde.builds.extends.localsLength no hnoc.waits.made, hnoc.waits.length]
  refine (meets_place (ha.valid.builds hquiet.builds) hready hplaceable' fun _ => hclosede).mono
    fun _ f hf => ?_
  have hef := hf.step.extends
  have hplaced : (f.labelState no).position = some c.offset := by
    rw [(hquiete.builds.extends.trans hef).placed _ _ hd.position, hd.position]
  refine ⟨no, done, b, c, d, e, ⟨(hquiet.trans hf.quiet).close fun l hl => .inr ?_,
    closed_of_handlers hclosede hef hf.code.2.2.1, hb, hc, hd, hquiete, hf,
    hde.kept done (Nat.lt_of_lt_of_le hdoneb.waits.made hc.quiet.builds.extends.labels)
      (by simpa using hne)⟩, hxc, hye⟩
  have hl' : l = no ∨ l = done := by simpa [or_comm, or_assoc, or_left_comm] using hl
  refine ⟨hlater l hl', ?_⟩
  rcases hl' with rfl | rfl
  · rw [hplaced]
    rfl
  · rw [hf.position]
    rfl

/-! ## 3. Flags -/

theorem exprMeets_condition {c₀ : Cond} (ih : CondMeets c₀) : ExprMeets (.condition c₀) := by
  intro layout stack a hpacked hc₀ hclosed ha
  -- the two branches push 1 and 0
  have hpush {b : Assembler} {done : Label} (hclosedb : b.Closed)
      (hready : b.reachable = true → b.Ready layout stack)
        (hl : b.Waits done layout (.int :: stack))
      (_ : (b.labelState done).targeted = false) :=
    (meets_pushAndLeave 1 hready hl).mono fun _ c hc =>
      And.intro (hc.1.departs (.refl b) hl hclosedb) hc
  have hpush' {d : Assembler} (hvalid : d.Valid) (hclosedd : d.Closed)
      (hready : d.reachable = true → d.Ready layout stack) :=
    (meets_pushReached 0 hvalid hready).mono fun _ e he =>
      And.intro he.1 (And.intro (closed_of_handlers hclosedd he.1.builds.extends he.2.1)
        (And.intro he.2.2.2.1 he))
  refine (meets_fork ih hpacked hc₀ hclosed ha hpush hpush').mono ?_
  rintro - f ⟨no, done, b, c, d, e, h, ⟨hleaves, hone⟩, -, hhandlers, -, -, hreach, hzero⟩
  refine ⟨⟨h.quiet, ?_, h.joined ?_⟩, fun {F P} hF hP env => ?_⟩
  · exact h.joins.code.2.2.1.trans (hhandlers.trans (h.turns.code.2.2.1.trans
      (hleaves.handlers.trans h.jumps.handlers)))
  · -- the label of the 0 has been reached if the condition can fail
    rcases h.jumps.live ha.reachable with hon | hoff
    · exact .inl (hleaves.targeted hon)
    · exact .inr (hreach.trans (h.turned hoff).reachable)
  · have hFe := h.joins.step.extends.trans hF
    have hFc := h.turns.step.extends.trans (h.falls.builds.extends.trans hFe)
    have hjumps := h.jumps.jumps ha.reachable (hleaves.quiet.builds.extends.trans hFc) hP
      (h.position_no hF) env
    refine .condition hjumps (fun hon => hone hon hFc hP (h.position_done hF)) fun hoff => ?_
    rw [h.joins.code.2.1]
    exact hzero (h.turned hoff).reachable hFe hP

/-! ## 4. All expressions and conditions -/

mutual

theorem exprMeets : ∀ e : Expr, ExprMeets e
  | .int v => exprMeets_int v
  | .long v => exprMeets_long v
  | .str text => exprMeets_str text
  | .null => exprMeets_null
  | .local slot t => exprMeets_local slot t
  | .getField receiver owner name t => exprMeets_getField (exprMeets receiver) owner name t
  | .getStatic owner name t => exprMeets_getStatic owner name t
  | .call callee args => exprMeets_call (exprsMeet args) callee
  | .callOn receiver callee args => exprMeets_callOn (exprMeets receiver) (exprsMeet args) callee
  | .checkcast name e => exprMeets_checkcast (exprMeets e) name
  | .widen source target e => exprMeets_widen (exprMeets e) source target
  | .add t l r => exprMeets_add (exprMeets l) (exprMeets r) t
  | .concat parts => exprMeets_concat (partsMeet parts)
  | .condition c => exprMeets_condition (condMeets c)

theorem exprsMeet : ∀ es : List Expr, ExprsMeet es
  | [] => exprsMeet_nil
  | e :: es => exprsMeet_cons (exprMeets e) (exprsMeet es)

theorem partsMeet : ∀ parts : List (Expr × FieldType), PartsMeet parts
  | [] => partsMeet_nil
  | (e, _) :: parts => partsMeet_cons (exprMeets e) (partsMeet parts)

theorem condMeets : ∀ c : Cond, CondMeets c
  | .const value => condMeets_const value
  | .value e => condMeets_value (exprMeets e)
  | .not c => condMeets_not (condMeets c)
  | .and ca cb => condMeets_and (condMeets ca) (condMeets cb)
  | .or ca cb => condMeets_or (condMeets ca) (condMeets cb)
  | .ints cmp l r => condMeets_ints (exprMeets l) (exprMeets r) cmp
  | .longs cmp l r => condMeets_longs (exprMeets l) (exprMeets r) cmp
  | .refs equal l r => condMeets_refs (exprMeets l) (exprMeets r) equal
  | .nullity isNull e => condMeets_nullity (exprMeets e) isNull

end

end MethodGraft.Typed
