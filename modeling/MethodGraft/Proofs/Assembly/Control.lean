import MethodGraft.Proofs.Assembly.Primitives

/-!
# Proofs.Assembly.Control — jumps, labels and handlers

What jumps, returns and labels do.  Wherever control comes to a label it has the same kinds of
values in the same places, so the depths that are compared there never differ.
-/

namespace MethodGraft.Code

open ClassFile Typed Assembly

def Frame.Holds (f : Frame) (layout : Layout) (stack : List ValueKind) : Prop :=
  kindsOf f.locals.toList = layout ∧ kindsOf f.stack = stack.map some

namespace Assembler

variable {a b : Assembler} {layout : Layout} {before : List ValueKind} {op : Operation} {l : Label}

/-! ## 1. Frames of labels -/

def Expects (a : Assembler) (l : Label) (layout : Layout) (stack : List ValueKind) : Prop :=
  ∀ f, (a.labelState l).frame = some f → f.Holds layout stack

theorem modify_congr {labels : Array LabelState} {i : Nat} {f g : LabelState → LabelState}
    (h : ∀ s, labels[i]? = some s → f s = g s) : labels.modify i f = labels.modify i g := by
  apply Array.ext_getElem?
  intro j
  rw [Array.getElem?_modify, Array.getElem?_modify]
  split
  next hj =>
    subst hj
    cases hs : labels[i]? with
    | none => rfl
    | some s => simp [h s hs]
  next => rfl

theorem modify_modify (labels : Array LabelState) (i : Nat) (f g : LabelState → LabelState) :
    (labels.modify i f).modify i g = labels.modify i (g ∘ f) := by
  apply Array.ext_getElem?
  intro j
  simp only [Array.getElem?_modify]
  split
  next => simp [Option.map_map]
  next => rfl

theorem labelState_of_getElem? {s : LabelState} (h : a.labels[l.index]? = some s) :
    a.labelState l = s := by
  rw [labelState, h]
  rfl

/-- The label is aimed at, and then the frame is compared with the one that is known. -/
theorem run_recordFrame_aimed {f : Frame} (hl : l.index < a.labels.size) :
    (recordFrame l f).run.run a = (match (a.labelState l).frame with
      | some known =>
        if known.stack.length ≠ f.stack.length then refuse (.stackMismatch l.index) else pure ⟨⟩
      | none => modifyLabel l fun s => { s with frame := some f } : Assembly Unit).run.run
      { a with labels := a.labels.modify l.index fun s => { s with targeted := true } } := by
  let aimed : Assembler :=
    { a with labels := a.labels.modify l.index fun s => { s with targeted := true } }
  have hframe : (aimed.labelState l).frame = (a.labelState l).frame := by
    rw [labelState_modify (a := a) (b := aimed) (f := fun s => { s with targeted := true }) rfl hl,
      if_pos rfl]
  have haimed : (modifyLabel l fun s => { s with targeted := true }).run.run a = (.ok (), aimed) :=
    rfl
  unfold recordFrame
  rw [run_bind, haimed]
  dsimp only
  rw [run_get_bind]
  generalize (aimed.labelState l).frame = known at hframe ⊢
  subst hframe
  cases (a.labelState l).frame <;> rfl

theorem run_recordFrame {f : Frame} (hl : l.index < a.labels.size)
    (hknown : ∀ g, (a.labelState l).frame = some g → g.stack.length = f.stack.length) :
    (recordFrame l f).run.run a =
      (.ok (), { a with labels := a.labels.modify l.index fun s => s.target f }) := by
  rw [run_recordFrame_aimed hl]
  cases hg : (a.labelState l).frame with
  | some g =>
    have hsame : a.labels.modify l.index (fun s => { s with targeted := true }) =
        a.labels.modify l.index fun s => s.target f := by
      refine modify_congr fun s hs => ?_
      rw [labelState_of_getElem? hs] at hg
      simp [LabelState.target, hg]
    dsimp only
    rw [if_neg (by simp [hknown g hg]), hsame]
    rfl
  | none =>
    have hsame : (a.labels.modify l.index fun s => { s with targeted := true }).modify l.index
        (fun s => { s with frame := some f }) = a.labels.modify l.index fun s => s.target f := by
      rw [modify_modify]
      refine modify_congr fun s hs => ?_
      rw [labelState_of_getElem? hs] at hg
      simp [LabelState.target, hg]
    rw [← hsame]
    rfl

/-- Only frames with stacks of one depth are recorded. -/
theorem run_recordFrame_eq_ok {f : Frame} (hl : l.index < a.labels.size)
    (h : (recordFrame l f).run.run a = (.ok ⟨⟩, b)) :
    b = { a with labels := a.labels.modify l.index fun s => s.target f } := by
  by_cases hknown : ∀ g, (a.labelState l).frame = some g → g.stack.length = f.stack.length
  · rw [run_recordFrame hl hknown] at h
    cases h
    rfl
  · push Not at hknown
    obtain ⟨g, hg, hne⟩ := hknown
    rw [run_recordFrame_aimed hl, hg] at h
    dsimp only at h
    rw [if_pos hne] at h
    cases h

theorem take_size (xs : Array VerificationType) : xs.take xs.size = xs := by
  rw [Array.take_eq_extract, Array.extract_size]

/-! ## 2. Jumps -/

/-- A jump whose operands have been taken. -/
theorem run_jump (hreach : a.reachable = true) (hslots : a.stackSlots = stackWidth a.stack)
    (hl : a.Awaits l)
    (hknown : ∀ g, (a.labelState l).frame = some g → g.stack.length = a.stack.length) :
    (jump op l).run.run a = (.ok (), a.jumped op l a.stack true) := by
  let emitted : Assembler :=
    { a with operations := a.operations.push op, offset := a.offset + op.size }
  have hframe : (frameFor l).run.run emitted = (.ok a.frame, emitted) := by
    show (Except.ok (⟨a.locals.take (a.labelState l).localsLength, a.stack⟩ : Frame), emitted) = _
    rw [hl.length, take_size]
    rfl
  have hrecord := run_recordFrame (a := emitted) (f := a.frame) hl.made hknown
  unfold jump
  rw [run_bind, run_emit hreach]
  show ((frameFor l) >>= fun f => recordFrame l f).run.run emitted = _
  rw [run_bind, hframe]
  refine hrecord.trans ?_
  unfold jumped
  rw [← hslots, ← hreach]
  rfl

def JumpsTo (a : Assembler) (op : Operation) (l : Label) (stack : List ValueKind) (onward : Bool)
    (b : Assembler) : Prop :=
  Step a b ∧ ∃ types, kindsOf types = stack.map some ∧ b = a.jumped op l types onward

theorem meets_branch {test : Test} (ha : a.Ready layout (test.operandKinds ++ before))
    (hl : a.Awaits l) (hexpects : a.Expects l layout before) :
    Meets (branch test l) a fun _ b => a.JumpsTo (.branch test l) l before true b := by
  obtain ⟨taken, rest, hrest, hlength, hbefore⟩ := kindsOf_eq_append _ ha.stack
  have hcount : test.operands = taken.length := by
    rw [hlength]
    cases test <;> rfl
  have hdepth (g : Frame) (hg : (a.labelState l).frame = some g) :
      g.stack.length = rest.length := by
    have hsame := congrArg List.length ((hexpects g hg).2.trans hbefore.symm)
    rwa [length_kindsOf, length_kindsOf] at hsame
  have heffect : (Operation.branch test l).effect a.pool (test.operandKinds ++ before) =
      some before :=
    takeKinds_eq_some_iff.mpr rfl
  have hstep : Step a (a.jumped (.branch test l) l rest true) :=
    .jump ha.reachable (.inr ⟨⟨test, rfl⟩, rfl⟩) ⟨_, before, ha.stack, hbefore, heffect⟩ hl
      fun f hf => ⟨(hexpects f hf).1.trans ha.locals.symm, (hexpects f hf).2.trans hbefore.symm⟩
  unfold branch
  refine .bind (.ofGet ?_)
  rw [if_neg (by simp [ha.reachable]), hcount]
  refine .bind (.ofRun (run_popMany hrest ha.valid.slots) ?_)
  exact .ofRun (run_jump (a := a.withStack rest a.maxStack) ha.reachable rfl ⟨hl.made, hl.unplaced,
    hl.length⟩ hdepth) ⟨hstep, rest, hbefore, rfl⟩

theorem meets_goto (ha : a.Ready layout before) (hl : a.Awaits l)
    (hexpects : a.Expects l layout before) :
    Meets (goto l) a fun _ b => a.JumpsTo (.goto l) l before false b := by
  have hdepth (g : Frame) (hg : (a.labelState l).frame = some g) :
      g.stack.length = a.stack.length := by
    have hsame := congrArg List.length ((hexpects g hg).2.trans ha.stack.symm)
    rwa [length_kindsOf, length_kindsOf] at hsame
  have hstep : Step a (a.jumped (.goto l) l a.stack false) :=
    .jump ha.reachable (.inl ⟨rfl, rfl⟩) ⟨before, before, ha.stack, ha.stack, rfl⟩ hl
      fun f hf => ⟨(hexpects f hf).1.trans ha.locals.symm, (hexpects f hf).2.trans ha.stack.symm⟩
  refine .bind (.ofRun (run_jump ha.reachable ha.valid.slots hl hdepth) (.ofModify ?_))
  exact ⟨hstep, a.stack, ha.stack, rfl⟩

theorem meets_return (ha : a.Ready layout before) :
    Meets (returnValue none) a fun _ b => Step a b ∧ b = a.returned (.ret none) := by
  refine .bind (.ofRun (run_emit ha.reachable) (.ofModify ⟨.ret ha.reachable ?_, rfl⟩))
  exact ⟨before, before, ha.stack, takeKinds_eq_some_iff.mpr rfl⟩

theorem meets_returnValue {type : FieldType} (ha : a.Ready layout (.ofType type :: before)) :
    Meets (returnValue (some type)) a fun _ b =>
      Step a b ∧ b = a.returned (.ret (some (.ofType type))) := by
  obtain ⟨t, rest, hrest, -, -⟩ := kindsOf_eq_cons ha.stack
  refine .bind (.ofRun (run_emit ha.reachable) (.bind (.ofRun (run_pop hrest ha.valid.slots)
    (.ofModify ⟨.ret ha.reachable ?_, rfl⟩))))
  exact ⟨_, before, ha.stack, takeKinds_eq_some_iff.mpr rfl⟩

/-! ## 3. Labels -/

theorem run_newLabel : newLabel.run.run a = (.ok ⟨a.labels.size⟩, a.labelled) := rfl

theorem run_truncateLocals (length : Nat) :
    (truncateLocals length).run.run a = (.ok (), a.truncated length) := rfl

/-- A label that is given a position keeps its frame. -/
theorem modify_position {f : Option Frame} {p : Nat} (hf : (a.labelState l).frame = f) :
    (a.labels.modify l.index fun s => { s with position := some p }) =
      a.labels.modify l.index fun s => s.settle p f := by
  refine modify_congr fun s hs => ?_
  rw [labelState_of_getElem? hs] at hf
  rw [LabelState.settle, ← hf]

def located (a : Assembler) (l : Label) : Assembler :=
  { a with labels := a.labels.modify l.index fun s => { s with position := some a.offset } }

def begun (a : Assembler) (l : Label) : Assembler :=
  let frame : Frame := ⟨a.locals.take (a.labelState l).localsLength, a.stack⟩
  { a with
    labels := a.labels.modify l.index fun s => s.settle a.offset (some frame)
    locals := frame.locals }

theorem located_localsLength (a : Assembler) (l : Label) :
    ((a.located l).labelState l).localsLength = (a.labelState l).localsLength := by
  unfold labelState located
  rw [Array.getElem?_modify, if_pos rfl]
  cases a.labels[l.index]? <;> rfl

/-- Going on with the frame that the label keeps. -/
theorem placed_eq {g : Frame} (hg : (a.labelState l).frame = some g) : a.placed l g =
    { a.located l with
      locals := g.locals, stack := g.stack, stackSlots := stackWidth g.stack
      reachable := true } := by
  unfold located
  rw [modify_position hg]
  rfl

theorem passedBy_eq (hg : (a.labelState l).frame = none) : a.passedBy l = a.located l := by
  unfold located
  rw [modify_position hg]
  rfl

theorem begun_eq (a : Assembler) (l : Label) : a.begun l =
    let frame : Frame := ⟨a.locals.take (a.labelState l).localsLength, a.stack⟩
    { a.located l with
      labels := (a.located l).labels.modify l.index fun s => { s with frame := some frame }
      locals := frame.locals } := by
  unfold located
  dsimp only
  rw [modify_modify]
  rfl

/-- What placing a label comes to, by the frame that is known and by whether control gets there from
before. -/
theorem run_place (hl : (a.labelState l).position = none) : (place l).run.run a =
    match (a.labelState l).frame with
    | some g =>
      if a.reachable = true ∧ g.stack.length ≠ a.stack.length then
        (.error ⟨.stackMismatch l.index, []⟩,
          { a.located l with locals := a.locals.take (a.labelState l).localsLength })
      else (.ok ⟨⟩, a.placed l g)
    | none => (.ok ⟨⟩, if a.reachable = true then a.begun l else a.passedBy l) := by
  have hlocated : (modifyLabel l fun s => { s with position := some a.offset }).run.run a =
    (.ok ⟨⟩, a.located l) := rfl
  have hframe : (frameFor l).run.run (a.located l) =
      (.ok ⟨a.locals.take (a.labelState l).localsLength, a.stack⟩, a.located l) := by
    rw [← located_localsLength a l]
    rfl
  unfold place
  rw [run_get_bind]
  dsimp only
  rw [if_neg (by simp [hl]), run_get_bind, run_bind, hlocated]
  dsimp only
  rw [run_get_bind]
  -- control comes from before: its depth has to be that of the known frame, or its frame becomes
  -- the first
  by_cases hreach : a.reachable = true
  · rw [if_pos (show (a.located l).reachable = true from hreach), run_bind, hframe, if_pos hreach]
    cases hg : (a.labelState l).frame with
    | none =>
      rw [begun_eq]
      rfl
    | some g =>
      have hon : { a.located l with
          locals := g.locals, stack := g.stack, stackSlots := stackWidth g.stack } =
          a.placed l g := by
        rw [placed_eq hg, ← hreach]
        rfl
      dsimp only
      by_cases hdepth : g.stack.length = a.stack.length
      · rw [if_neg (not_not_intro hdepth), if_neg fun h => h.2 hdepth, ← hon]
        rfl
      · rw [if_pos hdepth, if_pos ⟨hreach, hdepth⟩]
        rfl
  · rw [if_neg (show ¬(a.located l).reachable = true from hreach), if_neg hreach]
    cases hg : (a.labelState l).frame with
    | none =>
      rw [passedBy_eq hg]
      rfl
    | some g =>
      dsimp only
      rw [if_neg (by simp [hreach]), placed_eq hg]
      rfl

/-- The label has been placed at the end of `a`, where control goes on if it gets there. -/
structure Places (a b : Assembler) (l : Label) (layout : Layout) (stack : List ValueKind) :
    Prop where
  step : Step a b
  labels : ∀ l', b.labelState l' =
    if l' = l then (a.labelState l).settle a.offset (b.labelState l).frame else a.labelState l'
  size : b.labels.size = a.labels.size
  code : b.operations = a.operations ∧ b.offset = a.offset ∧ b.handlers = a.handlers ∧
    b.pool = a.pool
  ready : a.reachable = true ∨ (a.labelState l).targeted = true → b.Ready layout stack
  dead : a.reachable = false → (a.labelState l).targeted = false → b.reachable = false

structure Placeable (a : Assembler) (l : Label) (layout : Layout) (stack : List ValueKind) :
    Prop where
  made : l.index < a.labels.size
  unplaced : (a.labelState l).position = none
  length : (a.labelState l).localsLength = layout.length
  expects : a.Expects l layout stack
  first : (a.labelState l).targeted = true → ∀ l', l'.index < l.index →
    (a.labelState l').position = some a.offset →
      (a.labelState l').localsLength ≤ (a.labelState l).localsLength
  closes : ∀ h ∈ a.handlers.toList, h.stop = l ∨ (a.labelState h.stop).position.isSome
  nonempty : ∀ h ∈ a.handlers.toList, h.stop = l → ∀ p,
    (a.labelState h.start).position = some p → p < a.offset

theorem places_of_placed {f : Frame} {stack : List ValueKind} (ha : a.Valid)
    (hreach : a.reachable = true → a.Ready layout stack) (hl : a.Placeable l layout stack)
    (hf : f.Holds layout stack) (hknown : ∀ g, (a.labelState l).frame = some g → g = f)
    (hlive : (a.labelState l).frame = none → a.reachable = true ∧ f = a.frame) :
    Places a (a.placed l f) l layout stack := by
  have hlength : f.locals.size = (a.labelState l).localsLength := by
    rw [hl.length, ← hf.1, length_kindsOf, Array.length_toList]
  have hstep : Step a (a.placed l f) :=
    .place hl.made hl.unplaced hlength hknown
      (fun h => ⟨hf.1.trans (hreach h).locals.symm, hf.2.trans (hreach h).stack.symm⟩) hlive
        hl.first
      hl.closes hl.nonempty
  have hlabels (l' : Label) := labelState_placed (f := f) hl.made l'
  refine ⟨hstep, fun l' => ?_, by simp [placed], ⟨rfl, rfl, rfl, rfl⟩,
    fun _ => ⟨ha.step hstep, rfl, hf.1, hf.2⟩, fun hdead hnot => ?_⟩
  · rw [hlabels l', hlabels l, if_pos rfl]
    rfl
  · -- the label has a frame, so control gets to it
    cases hframe : (a.labelState l).frame with
    | none =>
      rw [(hlive hframe).1] at hdead
      cases hdead
    | some g =>
      have haimed := (ha.labels l).aimed hl.unplaced (by rw [hframe]; rfl)
      rw [hnot] at haimed
      cases haimed

theorem places_of_passedBy {stack : List ValueKind} (ha : a.Valid) (hdead : a.reachable = false)
    (hl : a.Placeable l layout stack) (hunknown : (a.labelState l).frame = none)
    (hclosed : a.Closed) : Places a (a.passedBy l) l layout stack := by
  have hlabels (l' : Label) := labelState_passedBy hl.made l'
  refine ⟨.passBy hdead hl.made hl.unplaced hunknown hclosed, fun l' => ?_, by simp [passedBy],
    ⟨rfl, rfl, rfl, rfl⟩, fun h => ?_, fun _ _ => hdead⟩
  · rw [hlabels l', hlabels l, if_pos rfl]
    rfl
  · rcases h with h | h
    · rw [hdead] at h
      cases h
    · have hframed := (ha.labels l).framed h
      rw [hunknown] at hframed
      cases hframed

/-- The label knows all locals, so that control goes on with the frame that it comes with. -/
theorem begun_eq_placed {stack : List ValueKind} (hl : a.Placeable l layout stack)
    (ha : a.Ready layout stack) : a.begun l = a.placed l a.frame := by
  have hsize : (a.labelState l).localsLength = a.locals.size := by
    rw [hl.length, ← ha.locals, length_kindsOf, Array.length_toList]
  have hslots : stackWidth a.frame.stack = a.stackSlots := ha.valid.slots.symm
  unfold begun placed
  rw [hsize, take_size, hslots, ← ha.reachable]
  rfl

theorem meets_place {stack : List ValueKind} (ha : a.Valid)
    (hreach : a.reachable = true → a.Ready layout stack) (hl : a.Placeable l layout stack)
    (hclosed : a.reachable = false → a.Closed) :
    Meets (place l) a fun _ b => Places a b l layout stack := by
  have hrun := run_place hl.unplaced
  cases hframe : (a.labelState l).frame with
  | some g =>
    rw [hframe] at hrun
    dsimp only at hrun
    -- both the frame and the stack are as the layout says, so they have the same depth
    have hdepth (hready : a.Ready layout stack) : g.stack.length = a.stack.length := by
      have hsame := congrArg List.length ((hl.expects g hframe).2.trans hready.stack.symm)
      rwa [length_kindsOf, length_kindsOf] at hsame
    rw [if_neg fun h => h.2 (hdepth (hreach h.1))] at hrun
    refine .ofRun hrun
      (places_of_placed ha hreach hl (hl.expects g hframe) (fun f hf => ?_) fun hnone => ?_)
    · rw [hframe] at hf
      cases hf
      rfl
    · rw [hframe] at hnone
      cases hnone
  | none =>
    rw [hframe] at hrun
    dsimp only at hrun
    by_cases hreachable : a.reachable = true
    · rw [if_pos hreachable] at hrun
      have hready := hreach hreachable
      refine .ofRun hrun ?_
      rw [begun_eq_placed hl hready]
      refine places_of_placed ha hreach hl ⟨hready.locals, hready.stack⟩ (fun g hg => ?_)
        fun _ => ⟨hreachable, rfl⟩
      rw [hframe] at hg
      cases hg
    · rw [if_neg hreachable] at hrun
      have hdead : a.reachable = false := by simpa using hreachable
      exact .ofRun hrun (places_of_passedBy ha hdead hl hframe (hclosed hdead))

/-! ## 4. Handlers -/

theorem meets_addHandler {stop handler start : Label} {name : String} (ha : a.Ready layout before)
    (hstart : (a.labelState start).position = some a.offset)
    (hstop : stop.index < a.labels.size ∧ (a.labelState stop).position = none)
    (hhandler : a.Awaits handler) (hunknown : (a.labelState handler).frame = none)
    (hother : handler ≠ stop) (hclosed : a.Closed) (hroom : 1 ≤ a.maxStack ∧ 1 ≤ a.offset) :
    Meets (addHandler start stop handler (some name)) a fun _ b => Step a b ∧ ∃ i,
      b.pool.class? i = some name ∧
        b = a.guarding ⟨start, stop, handler, i⟩ name b.pool := by
  unfold addHandler
  refine .bind ((meets_intern (Interning.meets_classRef name ha.valid.pool)).mono ?_)
  rintro i b ⟨⟨hle, hq, hget⟩, hb⟩
  have hclass := ConstantPool.class?_eq_some_iff.mpr hget
  have hframeFor : (frameFor handler).run.run b = (.ok a.frame, b) := by
    rw [hb]
    show (Except.ok (⟨a.locals.take (a.labelState handler).localsLength, a.stack⟩ : Frame), _) = _
    rw [hhandler.length, take_size]
    rfl
  refine .bind (.ofRun hframeFor ?_)
  have hrecord := run_recordFrame (a := { a with pool := b.pool }) (l := handler)
    (f := ⟨a.locals, [.object name]⟩) hhandler.made fun g hg => by
      have hnone : (a.labelState handler).frame = some g := hg
      rw [hunknown] at hnone
      cases hnone
  rw [hb]
  refine .bind (.ofRun hrecord (.ofModify ⟨?_, i, hclass, rfl⟩))
  exact .guard (h := ⟨start, stop, handler, i⟩) ha.reachable hstart hstop hhandler hunknown hother
    hle hq hclass hclosed hroom

end Assembler

end MethodGraft.Code
