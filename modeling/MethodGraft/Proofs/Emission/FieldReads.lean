import MethodGraft.Proofs.Emission.Statements

/-!
# Proofs.Emission.FieldReads — code is generated for reading fields by name

The code that reads a field is guarded by a handler that drops the exception.  With this, code
generation is covered for all statements.
-/

namespace MethodGraft.Typed

open ClassFile Code Assembly Assembler Machine Direct

variable {a b c : Assembler} {layout : Layout} {stack : List ValueKind} {l : Label} {e₀ : Expr}

/-! ## 1. Between the labels -/

theorem Passed.ofLoads {v : Machine.Value} (h : Loads a layout stack v b) :
    Passed a b layout (v.kind :: stack) := by
  obtain ⟨op, hemits, -⟩ := h
  exact .ofEmits hemits

/-- The two references on top of the stack change places. -/
theorem meets_exchange (ha : a.Ready layout (.reference :: .reference :: stack)) :
    Meets swap a fun _ b => Passed a b layout (.reference :: .reference :: stack) ∧
      ∀ {F P}, b.Extends F → Laid F P → ∀ v w rest, v.kind = .reference → w.kind = .reference →
        Does P a.offset b.offset (v :: w :: rest) (w :: v :: rest) := by
  refine (meets_swap ha rfl rfl).mono fun _ b hb => ⟨.ofEmits hb, fun hF hP v w rest hv hw => ?_⟩
  rw [hb.passes.offset]
  exact does_of_compute (hb.fetch ha.valid hP hF fun _ => rfl) fun _ =>
    compute?_swap (by rw [hv]; rfl) (by rw [hw]; rfl)

theorem callMethod_eq (kind : InvokeKind) (owner name : String) (params : List FieldType)
    (ret : Option FieldType) : callMethod kind owner name params ret =
      invokeCallee ⟨kind, owner, false, name, ⟨params, ret⟩⟩ := by
  unfold callMethod invokeCallee
  rfl

/-- A method of the reflection library is called. -/
theorem meets_callMethod {owner name : String} {params : List FieldType} {ret : Option FieldType}
    {kinds : List ValueKind} (ha : a.Ready layout kinds)
    (hkinds : kinds = (params.map ValueKind.ofType).reverse ++ .reference :: stack)
    (hreadable : MethodDescriptor.Readable ⟨params, ret⟩) :
    Meets (callMethod .virtual owner name params ret) a fun _ b =>
      EmitsCall layout stack ⟨.virtual, owner, false, name, ⟨params, ret⟩⟩ a b := by
  have hcallee : Callee.WellFormed ⟨.virtual, owner, false, name, ⟨params, ret⟩⟩ :=
    ⟨hreadable, nofun, fun _ => rfl⟩
  have hoperands : kinds = operandKinds ⟨.virtual, owner, false, name, ⟨params, ret⟩⟩ ++ stack := by
    rw [hkinds, operandKinds, if_neg (by simp), List.append_assoc]
    rfl
  rw [hoperands] at ha
  rw [callMethod_eq]
  exact meets_call hcallee ha

theorem meets_readReflected (field : String) (ha : a.Ready layout (.reference :: stack)) :
    Meets (readReflected field) a fun _ b => Passed a b layout (.reference :: stack) ∧
      ∀ {F P}, b.Extends F → Laid F P → Reflects P a.offset b.offset field := by
  unfold readReflected
  dsimp only
  refine .bind ((meets_double ha).mono ?_)
  rintro - b₁ ⟨hb₁, hdup⟩
  refine .bind ((meets_callMethod hb₁.ready (by rfl)
    (by unfold MethodDescriptor.Readable; decide +kernel)).mono fun _ b₂ hb₂ => ?_)
  refine .bind ((meets_ldcString hb₂.ready field).mono fun _ b₃ hb₃ => ?_)
  have hpassed₃ := Passed.ofLoads hb₃
  refine .bind ((meets_callMethod hpassed₃.ready (by rfl)
    (by unfold MethodDescriptor.Readable; decide +kernel)).mono fun _ b₄ hb₄ => ?_)
  refine .bind ((meets_double hb₄.ready).mono ?_)
  rintro - b₅ ⟨hb₅, hdup'⟩
  refine .bind ((meets_iconst hb₅.ready 1).mono fun _ b₆ hb₆ => ?_)
  have hpassed₆ := Passed.ofLoads hb₆
  refine .bind ((meets_callMethod hpassed₆.ready (by rfl)
    (by unfold MethodDescriptor.Readable; decide +kernel)).mono fun _ b₇ hb₇ => ?_)
  refine .bind ((meets_exchange hb₇.ready).mono ?_)
  rintro - b₈ ⟨hb₈, hswap⟩
  refine (meets_callMethod hb₈.ready (by rfl)
    (by unfold MethodDescriptor.Readable; decide +kernel)).mono fun _ b₉ hb₉ => ?_
  refine ⟨((((hb₁.trans hb₂.toPassed).trans hpassed₃).trans hb₄.toPassed).trans hb₅).trans
    (((hpassed₆.trans hb₇.toPassed).trans hb₈).trans hb₉.toPassed), fun hF hP => ?_⟩
  -- the program is the same for all pieces: each piece ends before the final code does
  have hF₈ := hb₉.extends.trans hF
  have hF₇ := hb₈.extends.trans hF₈
  have hF₆ := hb₇.extends.trans hF₇
  have hF₅ := hpassed₆.extends.trans hF₆
  have hF₄ := hb₅.extends.trans hF₅
  have hF₃ := hb₄.extends.trans hF₄
  have hF₂ := hpassed₃.extends.trans hF₃
  have hF₁ := hb₂.extends.trans hF₂
  exact ⟨b₁.offset, b₂.offset, b₃.offset, b₄.offset, b₅.offset, b₆.offset, b₇.offset, b₈.offset,
    hdup hF₁ hP, hb₂.calls hF₂ hP, hb₃.does hb₂.ready.valid hP hF₃, hb₄.calls hF₄ hP, hdup' hF₅ hP,
    hb₆.does hb₅.ready.valid hP hF₆, hb₇.calls hF₇ hP, hswap hF₈ hP, hb₉.calls hF hP,
    hb₁.extends.offset, hpassed₃.extends.offset,
    Nat.le_trans hb₅.extends.offset hpassed₆.extends.offset, hb₈.extends.offset⟩

/-- The class of the value is checked if it is to be cast, and the code goes on with `f`. -/
theorem meets_cast (cast : Option String) (ha : a.Ready layout (.reference :: stack))
    {f : Unit → Assembly Unit} {Q : Unit → Assembler → Prop}
    (h : ∀ b, Passed a b layout (.reference :: stack) →
      (∀ {F P}, b.Extends F → Laid F P → Casts P a.offset b.offset cast) → Meets (f ()) b Q) :
    Meets (match cast with
      | some name => checkcast name >>= f
      | none => f ()) a Q := by
  cases cast with
  | none => exact h a (.refl ha) fun _ _ => rfl
  | some name =>
    refine .bind ((meets_checkcast ha).mono ?_)
    rintro - b ⟨i, hb, hi⟩
    refine h b (.ofEmits hb) fun hF hP => ?_
    exact ⟨i, _, Operation.size_pos _, hb.passes.offset, hb.fetch ha.valid hP hF fun _ => rfl,
      ConstantPool.class?_mono (hP.pool_le hF) hi⟩

/-! ## 2. The handler -/

/-- Reads the field of the object on the stack into the slot, or drops the exception that this
throws. -/
def guardedRead (slot : UInt16) (type : FieldType) (field : String) (cast : Option String) :
    Assembly Unit := do
  let start ← newLabel
  let stop ← newLabel
  let handler ← newLabel
  let after ← newLabel
  place start
  addHandler start stop handler (some "java/lang/Exception")
  readReflected field
  match cast with
  | some name => checkcast name
  | none => pure ()
  store slot type
  place stop
  goto after
  place handler
  popValue
  place after

structure EmitsRead (layout : Layout) (slot : UInt16) (field : String) (cast : Option String)
    (a b : Assembler) : Prop where
  quiet : Quiet [] a b
  closed : b.Closed
  ready : b.Ready layout []
  reads : ∀ {F P}, b.Extends F → Laid F P → ∃ p q n n' n'' h,
    Reflects P a.offset p field ∧ Casts P p q cast ∧ P.fetch q = some (.store .reference slot, n) ∧
      P.fetch (q + n) = some (.goto ⟨b.offset⟩, n') ∧ Guards P a.offset q h ∧
      P.fetch h.handlerPc.toNat = some (.pop, n'') ∧ h.handlerPc.toNat + n'' = b.offset

structure ReadLabels (a b : Assembler) (start stop handler after : Label) : Prop where
  builds : Quiet [] a b
  same : b.locals = a.locals ∧ b.stack = a.stack ∧ b.reachable = a.reachable ∧
    b.handlers = a.handlers ∧ b.offset = a.offset ∧ b.maxStack = a.maxStack
  states : ∀ l : Label, a.labels.size ≤ l.index → l.index < b.labels.size →
    b.labelState l = { localsLength := a.locals.size }
  indices : start.index = a.labels.size ∧ stop.index = a.labels.size + 1 ∧
    handler.index = a.labels.size + 2 ∧ after.index = a.labels.size + 3 ∧
      b.labels.size = a.labels.size + 4

theorem readLabels (a : Assembler) :
    ReadLabels a a.labelled.labelled.labelled.labelled ⟨a.labels.size⟩ ⟨a.labelled.labels.size⟩
      ⟨a.labelled.labelled.labels.size⟩ ⟨a.labelled.labelled.labelled.labels.size⟩ where
  builds := ((quiet_newLabel.trans quiet_newLabel).trans quiet_newLabel).trans quiet_newLabel
  same := ⟨rfl, rfl, rfl, rfl, rfl, rfl⟩
  states l hle hlt := by
    have hnew (b : Assembler) (h : b.locals.size = a.locals.size)
        (hb : l.index < b.labels.size → b.labelState l = { localsLength := a.locals.size })
        (hl : l.index < b.labelled.labels.size) :
        b.labelled.labelState l = { localsLength := a.locals.size } := by
      rw [labelState_labelled]
      rw [size_labelled] at hl
      split
      next => rw [h]
      next hne => exact hb (by omega)
    refine hnew _ rfl (hnew _ rfl (hnew _ rfl (hnew a rfl fun h => absurd h (by omega)))) hlt
  indices := by simp only [size_labelled, and_self]

structure Opened (layout : Layout) (a b : Assembler) (start stop handler after : Label) : Prop where
  quiet : Quiet [start, handler] a b
  ready : b.Ready layout [.reference]
  offset : b.offset = a.offset
  indices : start.index = a.labels.size ∧ stop.index = a.labels.size + 1 ∧
    handler.index = a.labels.size + 2 ∧ after.index = a.labels.size + 3 ∧
      b.labels.size = a.labels.size + 4
  lengths : ∀ l : Label, a.labels.size ≤ l.index → l.index < b.labels.size →
    (b.labelState l).localsLength = layout.length
  placed : (b.labelState start).position = some a.offset
  fresh : ∀ l, l = stop ∨ l = after → b.labelState l = { localsLength := layout.length }
  waits : b.Waits handler layout [.reference]
  targeted : (b.labelState handler).targeted = true
  handlers : ∃ i, b.handlers = a.handlers.push ⟨start, stop, handler, i⟩ ∧
    b.pool.class? i = some "java/lang/Exception"

theorem Label.ne_of_index {l l' : Label} (h : l.index ≠ l'.index) : l ≠ l' := fun he => h (he ▸ rfl)

/-- A label that nothing has been done with can be placed. -/
theorem placeable_fresh (hl : l.index < b.labels.size)
    (hfresh : b.labelState l = { localsLength := layout.length }) (hclosed : b.Closed) :
    b.Placeable l layout stack := by
  have hunplaced : (b.labelState l).position = none := by rw [hfresh]
  refine ⟨hl, hunplaced, by rw [hfresh], fun f hf => ?_, fun ht => ?_,
    fun r hr => .inr (hclosed r hr), fun r hr hstop => ?_⟩
  · rw [hfresh] at hf
    cases hf
  · rw [hfresh] at ht
    cases ht
  · have hsome := hclosed r hr
    rw [hstop, hunplaced] at hsome
    cases hsome

theorem ReadLabels.opened {start stop handler after : Label} {i : UInt16} {d : Assembler}
    (h : ReadLabels a b start stop handler after) (ha : a.Ready layout [.reference])
    (hc : Places b c start layout [.reference]) (hcready : c.Ready layout [.reference])
    (hstep : Step c d) (hi : d.pool.class? i = some "java/lang/Exception")
    (hd : d = c.guarding ⟨start, stop, handler, i⟩ "java/lang/Exception" d.pool) :
    Opened layout a d start stop handler after := by
  have hind := h.indices
  have hstate (l : Label) (hle : a.labels.size < l.index) (hlt : l.index < b.labels.size) :
      c.labelState l = { localsLength := layout.length } := by
    rw [hc.labels, if_neg (Label.ne_of_index (by omega)), h.states l (by omega) hlt, ha.size_locals]
  have hmade : handler.index < c.labels.size := by
    rw [hc.size]
    omega
  have hlabels (l : Label) : d.labelState l =
      if l = handler then (c.labelState handler).target ⟨c.locals, [.object "java/lang/Exception"]⟩
      else c.labelState l := by
    rw [hd]
    exact labelState_guarding hmade l
  have hsize : d.labels.size = b.labels.size := by
    rw [hd, ← hc.size]
    exact Array.size_modify
  have hhandler : d.labelState handler =
      ⟨none, layout.length, some ⟨c.locals, [.object "java/lang/Exception"]⟩, true⟩ := by
    rw [hlabels, if_pos rfl, hstate handler (by omega) (by omega)]
    rfl
  have hquiet : Quiet [handler] c d := by
    refine .ofStep hstep fun l hne => ?_
    rw [hlabels, if_neg (by simpa using hne)]
  constructor
  case quiet => exact (h.builds.trans hc.quiet).trans hquiet
  case ready =>
    refine ⟨hcready.valid.step hstep, ?_, ?_, ?_⟩ <;> rw [hd]
    · exact hcready.reachable
    · exact hcready.locals
    · exact hcready.stack
  case offset =>
    rw [hd, ← h.same.2.2.2.2.1, ← hc.code.2.1]
    rfl
  case indices => omega
  case lengths =>
    intro l hle hlt
    rw [(hc.step.extends.trans hstep.extends).localsLength l (by omega), h.states l hle (by omega),
      ha.size_locals]
  case placed => rw [hlabels, if_neg (Label.ne_of_index (by omega)), hc.position, h.same.2.2.2.2.1]
  case fresh =>
    intro l hl
    have hindex : l.index = a.labels.size + 1 ∨ l.index = a.labels.size + 3 := by
      rcases hl with rfl | rfl <;> omega
    rw [hlabels, if_neg (Label.ne_of_index (by omega)), hstate l (by omega) (by omega)]
  case waits =>
    -- the exception alone is on the stack where the handler begins
    refine ⟨by omega, by rw [hhandler], by rw [hhandler], fun f hf => ?_⟩
    rw [hhandler] at hf
    cases hf
    exact ⟨hcready.locals, rfl⟩
  case targeted => rw [hhandler]
  case handlers =>
    refine ⟨i, ?_, hi⟩
    rw [hd]
    show c.handlers.push _ = _
    rw [hc.code.2.2.1, h.same.2.2.2.1]

/-- A label whose jumps come after some code. -/
theorem pending_of_lt (hw : b.Waits l layout stack) (hlater : a.labels.size ≤ l.index)
    (hab : a.Extends b) (hlt : a.offset < b.offset) : Pending a b l layout stack where
  waits := hw
  aims := ⟨by rw [hw.unplaced, labelState_unmade hlater], hw.expects, fun _ => .inr hlt⟩
  later := hlater
  built := hab

section Labels

variable {start stop handler after : Label}

theorem ReadLabels.meets_open (h : ReadLabels a b start stop handler after)
    (ha : a.Ready layout [.reference]) (hclosed : a.Closed)
    (hroom : 1 ≤ a.maxStack ∧ 1 ≤ a.offset) :
    Meets (do place start; addHandler start stop handler (some "java/lang/Exception")) b fun _ d =>
      Opened layout a d start stop handler after := by
  have hbuilds := h.builds.builds
  have hclosedb := closed_of_handlers hclosed hbuilds.extends h.same.2.2.2.1
  have hb : b.Ready layout [.reference] := by
    refine ⟨ha.valid.builds hbuilds, h.same.2.2.1.trans ha.reachable, ?_, ?_⟩
    · rw [h.same.1, ha.locals]
    · rw [h.same.2.1, ha.stack]
  have hind := h.indices
  have hstate (l : Label) (hle : a.labels.size ≤ l.index) (hlt : l.index < b.labels.size) :
      b.labelState l = { localsLength := layout.length } := by
    rw [h.states l hle hlt, ha.size_locals]
  refine .bind ((meets_place hb.valid (fun _ => hb) (placeable_fresh (by omega)
    (hstate start (by omega) (by omega)) hclosedb) fun _ => hclosedb).mono fun _ c hc => ?_)
  have hcready := hc.ready (.inl hb.reachable)
  have hclosedc := closed_of_handlers hclosedb hc.step.extends hc.code.2.2.1
  have hstatec (l : Label) (hle : a.labels.size < l.index) (hlt : l.index < b.labels.size) :
      c.labelState l = { localsLength := layout.length } := by
    rw [hc.labels, if_neg (Label.ne_of_index (by omega)), hstate l (by omega) hlt]
  have hstop := hstatec stop (by omega) (by omega)
  have hhandler := hstatec handler (by omega) (by omega)
  have hac := hbuilds.extends.trans hc.step.extends
  have hroomc : 1 ≤ c.maxStack ∧ 1 ≤ c.offset :=
    ⟨UInt16.le_trans hroom.1 hac.maxStack, Nat.le_trans hroom.2 hac.offset⟩
  refine (meets_addHandler hcready (by rw [hc.position, hc.code.2.1])
    ⟨by rw [hc.size]; omega, by rw [hstop]⟩ ⟨by rw [hc.size]; omega, by rw [hhandler], by
      rw [hhandler, hcready.size_locals]⟩ (by rw [hhandler]) (Label.ne_of_index (by omega)) hclosedc
      hroomc).mono ?_
  rintro - d ⟨hstep, i, hi, hd⟩
  exact h.opened ha hc hcready hstep hi hd

/-- All ranges have ended but the one that has begun. -/
theorem Opened.ranges (ho : Opened layout a b start stop handler after) (hclosed : a.Closed)
    (hbc : Quiet [] b c) (hsame : c.handlers = b.handlers) : ∀ r ∈ c.handlers.toList,
      (r.start = start ∧ r.stop = stop) ∨ (c.labelState r.stop).position.isSome := by
  obtain ⟨i, hhandlers, -⟩ := ho.handlers
  intro r hr
  rw [hsame, hhandlers, Array.toList_push] at hr
  rcases List.mem_append.mp hr with hr | hr
  · obtain ⟨p, hp⟩ := Option.isSome_iff_exists.mp (hclosed r hr)
    rw [(ho.quiet.trans hbc).builds.extends.placed _ p hp, hp]
    exact .inr rfl
  · rw [List.mem_singleton.mp hr]
    exact .inl ⟨rfl, rfl⟩

theorem Opened.fresh_later (ho : Opened layout a b start stop handler after) (hbc : Quiet [] b c)
    (hl : l = stop ∨ l = after) : c.labelState l = { localsLength := layout.length } := by
  have hind := ho.indices
  have hmade : l.index < b.labels.size := by rcases hl with rfl | rfl <;> omega
  rw [hbc.kept l hmade (by simp), ho.fresh l hl]

/-- The range can end as soon as there is code in it. -/
theorem Opened.placeable_stop (ho : Opened layout a b start stop handler after) (hclosed : a.Closed)
    (hbc : Quiet [] b c) (hsame : c.handlers = b.handlers) (hlt : b.offset < c.offset) :
    c.Placeable stop layout [] := by
  have hind := ho.indices
  have hsize := hbc.builds.extends.labels
  have hstop := ho.fresh_later hbc (.inl rfl)
  refine ⟨by omega, by rw [hstop], by rw [hstop], fun f hf => ?_, fun ht => ?_,
    fun r hr => (ho.ranges hclosed hbc hsame r hr).imp_left fun h => h.2, fun r hr heq p hp => ?_⟩
  · rw [hstop] at hf
    cases hf
  · rw [hstop] at ht
    cases ht
  · rcases ho.ranges hclosed hbc hsame r hr with ⟨hstart, -⟩ | hsome
    · rw [hstart, hbc.builds.extends.placed _ _ ho.placed, ho.placed] at hp
      cases hp
      rwa [← ho.offset]
    · rw [heq, hstop] at hsome
      cases hsome

/-- The range that began in `a` has ended in `c`, and in `b` control has left for the label behind
the handler.  The handler itself is still to come. -/
structure Stopped (layout : Layout) (a c b : Assembler) (start stop handler after : Label) :
    Prop where
  quiet : Quiet [start, handler, stop, after] a b
  builds : Builds c b
  closed : b.Closed
  dead : b.reachable = false
  handlers : b.handlers = c.handlers
  indices : start.index = a.labels.size ∧ stop.index = a.labels.size + 1 ∧
    handler.index = a.labels.size + 2 ∧ after.index = a.labels.size + 3
  lengths : ∀ l : Label, a.labels.size ≤ l.index → l.index ≤ after.index →
    (b.labelState l).localsLength = layout.length
  range : (b.labelState start).position = some a.offset ∧
    (b.labelState stop).position = some c.offset
  catches : Pending a b handler layout [.reference]
  targeted : (b.labelState handler).targeted = true
  ends : Pending a b after layout []
  leaves : ∀ {F P t}, b.Extends F → Laid F P → (F.labelState after).position = some t →
    P.fetch c.offset = some (.goto ⟨t⟩, Operation.size (.goto after))

theorem Opened.meets_stop (ho : Opened layout a b start stop handler after) (hclosed : a.Closed)
    (hbc : Quiet [] b c) (hc : c.Ready layout []) (hsame : c.handlers = b.handlers)
    (hlt : b.offset < c.offset) :
    Meets (do place stop; goto after) c fun _ e =>
    Stopped layout a c e start stop handler after := by
  have hind := ho.indices
  have hsize := hbc.builds.extends.labels
  refine .bind
    ((meets_place hc.valid (fun _ => hc) (ho.placeable_stop hclosed hbc hsame hlt) fun h => by
    rw [hc.reachable] at h; cases h).mono fun _ d hd => ?_)
  -- the range that was open ends here; the others ended before and keep their places
  have hclosedd : d.Closed := by
    intro r hr
    rw [hd.code.2.2.1] at hr
    rcases ho.ranges hclosed hbc hsame r hr with ⟨-, hstop⟩ | hsome
    · rw [hstop, hd.position]
      rfl
    · obtain ⟨p, hp⟩ := Option.isSome_iff_exists.mp hsome
      rw [hd.step.extends.placed _ p hp, hp]
      rfl
  -- nothing has led to `after` so far
  have hafter : d.labelState after = { localsLength := layout.length } := by
    rw [hd.labels, if_neg (Label.ne_of_index (by omega)), ho.fresh_later hbc (.inr rfl)]
  have hwaits : d.Waits after layout [] := by
    refine ⟨by rw [hd.size]; omega, by rw [hafter], by rw [hafter], fun f hf => ?_⟩
    rw [hafter] at hf
    cases hf
  refine (meets_leave (hd.ready (.inl hc.reachable)) hwaits).mono ?_
  rintro - e ⟨he, hgoto⟩
  have hde := he.quiet.builds.extends
  have hbe := (hbc.builds.extends.trans hd.step.extends).trans hde
  have hae : Quiet [start, handler, stop, after] a e :=
    ((ho.quiet.trans hbc).trans hd.quiet).trans he.quiet
  have hgrown : a.offset < e.offset := by
    have hoffset := hde.offset
    rw [hd.code.2.1] at hoffset
    have := ho.offset
    omega
  have hcatches : e.Waits handler layout [.reference] := by
    refine ((ho.waits.quiet hbc (by simp)).quiet hd.quiet ?_).quiet he.quiet ?_
    · simpa using Label.ne_of_index (by omega)
    · simpa using Label.ne_of_index (by omega)
  constructor
  case quiet => exact hae
  case builds => exact hd.quiet.builds.trans he.quiet.builds
  case closed => exact closed_of_handlers hclosedd hde he.handlers
  case dead => exact he.dead
  case handlers => exact he.handlers.trans hd.code.2.2.1
  case indices => exact ⟨hind.1, hind.2.1, hind.2.2.1, hind.2.2.2.1⟩
  case lengths =>
    intro l hle hl
    rw [hbe.localsLength l (by omega), ho.lengths l hle (by omega)]
  case range =>
    refine ⟨?_, ?_⟩
    · rw [hbe.placed _ _ ho.placed, ho.placed]
    · rw [hde.placed _ _ hd.position, hd.position]
  case catches => exact pending_of_lt hcatches (by omega) hae.builds.extends hgrown
  case targeted => exact hbe.targeted _ ho.targeted
  case ends => exact pending_of_lt (hwaits.later hde he.aims) (by omega) hae.builds.extends hgrown
  case leaves =>
    intro F P t hF hP ht
    rw [← hd.code.2.1]
    exact hgoto hF hP ht

structure Ended (layout : Layout) (stop handler : Label) (a b : Assembler) : Prop where
  builds : Builds a b
  ready : b.Ready layout []
  handlers : b.handlers = a.handlers
  stopped : (b.labelState stop).position = some a.offset
  caught : ∃ t, (b.labelState handler).position = some t ∧
    ∀ {F P}, b.Extends F → Laid F P → ∃ n n', P.fetch a.offset = some (.goto ⟨b.offset⟩, n) ∧
      P.fetch t = some (.pop, n') ∧ t + n' = b.offset

theorem Stopped.meets_catch (h : Stopped layout a c b start stop handler after) (ha : a.Valid) :
    Meets (do place handler; popValue; place after) b fun _ z =>
      Quiet [] a z ∧ z.Closed ∧ Ended layout stop handler c z := by
  have hind := h.indices
  have hnew : ∀ l ∈ [start, handler, stop, after], a.labels.size ≤ l.index := by
    simp only [List.mem_cons, List.not_mem_nil, or_false]
    rintro l (rfl | rfl | rfl | rfl) <;> omega
  have hcatch : b.Placeable handler layout [.reference] :=
    h.catches.placeable ha h.closed (h.quiet.position hnew) fun l hle hlt =>
      h.lengths l hle (by omega)
  refine .bind
    ((meets_place (ha.builds h.quiet.builds) (fun hon => by rw [h.dead] at hon; cases hon)
    hcatch fun _ => h.closed).mono fun _ f hf => ?_)
  -- control comes to the handler by the exceptions that are thrown in the range
  have hready := hf.ready (.inr h.targeted)
  refine .bind ((meets_popValue hready).mono fun _ g hg => ?_)
  have hfg := hg.quiet.builds.extends
  have hbg := hf.step.extends.trans hfg
  have hag : Quiet [start, handler, stop, after, handler] a g :=
    (h.quiet.trans hf.quiet).trans hg.quiet
  have hclosed := hg.closed (closed_of_handlers h.closed hf.step.extends hf.code.2.2.1)
  have hends : Pending a g after layout [] :=
    (h.ends.quiet hf.quiet (by simpa using Label.ne_of_index (by omega))).quiet hg.quiet (by simp)
  -- `after` is reached by the jump behind the range and from the handler, with an empty stack both
  -- times
  have hjoin : g.Placeable after layout [] := by
    refine hends.placeable ha hclosed (hag.position fun l hl => hnew l ?_) fun l hle hlt => ?_
    · simp only [List.mem_cons, List.not_mem_nil, or_false] at hl ⊢
      tauto
    · rw [hbg.localsLength l (Nat.lt_trans hlt h.ends.waits.made),
        h.lengths l hle (Nat.le_of_lt hlt)]
  refine (meets_place hg.ready.valid (fun _ => hg.ready) hjoin fun _ => hclosed).mono
    fun _ z hz => ?_
  have hgz := hz.step.extends
  have hbz := hbg.trans hgz
  have hstart : (z.labelState start).position = some a.offset := by
    rw [hbz.placed _ _ h.range.1, h.range.1]
  have hstop : (z.labelState stop).position = some c.offset := by
    rw [hbz.placed _ _ h.range.2, h.range.2]
  have hhandler : (z.labelState handler).position = some b.offset := by
    rw [(hfg.trans hgz).placed _ _ hf.position, hf.position]
  have haz : Quiet [start, handler, stop, after, handler, after] a z := hag.trans hz.quiet
  -- all four labels are new and placed by now, so none of them is open for what follows
  refine ⟨haz.close fun l hl => .inr ?_, closed_of_handlers hclosed hgz hz.code.2.2.1,
    ⟨((h.builds.trans hf.quiet.builds).trans hg.quiet.builds).trans hz.quiet.builds,
      hz.ready (.inl hg.ready.reachable), ?_, hstop, b.offset, hhandler, fun {F P} hF hP => ?_⟩⟩
  · have hl' : l = start ∨ l = handler ∨ l = stop ∨ l = after := by
      simp only [List.mem_cons, List.not_mem_nil, or_false] at hl
      tauto
    rcases hl' with rfl | rfl | rfl | rfl
    · exact ⟨by omega, by rw [hstart]; rfl⟩
    · exact ⟨by omega, by rw [hhandler]; rfl⟩
    · exact ⟨by omega, by rw [hstop]; rfl⟩
    · exact ⟨by omega, by rw [hz.position]; rfl⟩
  · rw [hz.code.2.2.1, hg.passes.handlers, hf.code.2.2.1, h.handlers]
  · have hafter : (F.labelState after).position = some z.offset := by
      rw [hF.placed _ _ hz.position, hz.position, hz.code.2.1]
    have hpop := hg.fetch hready.valid hP (hgz.trans hF) fun _ => rfl
    rw [hf.code.2.1] at hpop
    refine ⟨_, _, h.leaves (hbz.trans hF) hP hafter, hpop, ?_⟩
    rw [hz.code.2.1, hg.passes.offset, hf.code.2.1]

theorem meets_end (ho : Opened layout a b start stop handler after) (ha : a.Valid)
    (hclosed : a.Closed) (hbc : Quiet [] b c) (hc : c.Ready layout [])
    (hsame : c.handlers = b.handlers) (hlt : b.offset < c.offset) :
    Meets (do place stop; goto after; place handler; popValue; place after) c fun _ d =>
      Quiet [] a d ∧ d.Closed ∧ Ended layout stop handler c d := by
  rw [← bind_assoc]
  exact .bind ((ho.meets_stop hclosed hbc hc hsame hlt).mono fun _ e he => he.meets_catch ha)

end Labels

theorem meets_guardedRead {slot : UInt16} {t : FieldType} (field : String) (cast : Option String)
    (ha : a.Ready layout [.reference]) (hclosed : a.Closed) (hpacked : Packed layout)
    (ht : ValueKind.ofType t = .reference) (hslot : layout[slot.toNat]? = some (some .reference))
    (hle : layout.length ≤ 65535) (hroom : 1 ≤ a.maxStack ∧ 1 ≤ a.offset) :
    Meets (guardedRead slot t field cast) a fun _ b => EmitsRead layout slot field cast a b := by
  have hlabels := readLabels a
  refine .bind (.ofRun run_newLabel (.bind (.ofRun run_newLabel (.bind (.ofRun run_newLabel
    (.bind (.ofRun run_newLabel ?_)))))))
  -- from here on only what `readLabels` says of the four labels matters
  generalize (⟨a.labels.size⟩ : Label) = start at hlabels ⊢
  generalize (⟨a.labelled.labels.size⟩ : Label) = stop at hlabels ⊢
  generalize (⟨a.labelled.labelled.labels.size⟩ : Label) = handler at hlabels ⊢
  generalize (⟨a.labelled.labelled.labelled.labels.size⟩ : Label) = after at hlabels ⊢
  generalize a.labelled.labelled.labelled.labelled = b at hlabels ⊢
  rw [← bind_assoc]
  refine .bind ((hlabels.meets_open ha hclosed hroom).mono fun _ d hopened => ?_)
  refine .bind ((meets_readReflected field hopened.ready).mono ?_)
  rintro - e ⟨he, hreflects⟩
  refine meets_cast cast he.ready fun f hf hcasts => ?_
  have hfready := hf.ready
  rw [← ht] at hfready
  refine .bind ((meets_store_again hfready hpacked ht hslot hle).mono fun _ g hg => ?_)
  have hdg := (he.trans hf).trans (.ofEmits hg)
  -- the range is not empty: the store alone takes place in it
  have hlt : d.offset < g.offset := by
    have := (he.trans hf).extends.offset
    have := Operation.size_pos (.store (.ofType t) slot)
    rw [hg.passes.offset]
    omega
  refine (meets_end hopened ha.valid hclosed hdg.quiet hdg.ready hdg.handlers hlt).mono ?_
  rintro - z ⟨hquiet, hclosedz, hend⟩
  refine ⟨hquiet, hclosedz, hend.ready, fun {F P} hF hP => ?_⟩
  obtain ⟨i, hhandlers, hi⟩ := hopened.handlers
  obtain ⟨p, hp, hcaught⟩ := hend.caught
  obtain ⟨n, n', hgoto, hpop, hsum⟩ := hcaught hF hP
  have hFg := hend.builds.extends.trans hF
  have hFf := hg.quiet.builds.extends.trans hFg
  have hFe := hf.extends.trans hFf
  have hFd := he.extends.trans hFe
  have hstart : (F.labelState start).position = some a.offset := by
    rw [hFd.placed _ _ hopened.placed, hopened.placed]
  have hstop : (F.labelState stop).position = some g.offset := by
    rw [hF.placed _ _ hend.stopped, hend.stopped]
  have hhandler : (F.labelState handler).position = some p := by rw [hF.placed _ _ hp, hp]
  have hstore := hg.fetch hf.ready.valid hP hFg fun _ => rfl
  rw [ht] at hstore
  rw [hg.passes.offset, ht] at hgoto
  have hle' : f.offset ≤ g.offset := hg.quiet.builds.extends.offset
  obtain ⟨h, hguards, rfl⟩ := hP.guards ha.valid hclosed
    (hopened.quiet.builds.extends.trans hdg.extends) hg.ready.valid (hdg.handlers.trans hhandlers)
    (ConstantPool.class?_mono hdg.extends.pool hi) hFg hstart ⟨_, hstop, hle'⟩ hle' hhandler
  have hread := hreflects hFe hP
  rw [hopened.offset] at hread
  exact ⟨e.offset, f.offset, _, n, n', h, hread, hcasts hFf hP, hstore, hgoto, hguards, hpop, hsum⟩

/-! ## 3. All statements -/

theorem one_le_maxStack {op : Operation} (ha : a.stack = [])
    (h : Emits a b op layout [.reference]) : 1 ≤ b.maxStack := by
  obtain ⟨t, rest, hstack, ht, hrest⟩ := kindsOf_eq_cons h.ready.stack
  have hnil : rest = [] := by
    cases rest with
    | nil => rfl
    | cons => cases hrest
  rcases h.passes.maxStack.2 with hle | hsuffix
  · rw [h.ready.valid.slots, hstack, hnil] at hle
    cases t <;> first | exact hle | cases ht
  · have hlength := hsuffix.length_le
    rw [ha, hstack] at hlength
    exact absurd hlength (by simp [kindsOf])

theorem stmtMeets_readField (ih : ExprMeets e₀) (slot : UInt16) (t : FieldType) (field : String)
    (cast : Option String) : StmtMeets (.readField slot t e₀ field cast) := by
  intro ret layout a hpacked hs hclosed ha
  obtain ⟨hslot, ht, he, hkind⟩ := hs
  -- a statement begins with an empty stack, so pushing null shows that there is room for a
  -- reference
  have hempty : a.stack = [] := List.map_eq_nil_iff.mp ha.stack
  refine .bind ((meets_aconstNull ha).mono fun _ b hb => ?_)
  obtain ⟨op, hemits, -⟩ := id hb
  have hpassed := Passed.ofEmits hemits
  have hclosedb := hpassed.closed hclosed
  have hready := hpassed.ready
  rw [show (Machine.Value.reference .null).kind = .ofType t from ht.symm] at hready
  refine .bind ((meets_store_next hready hclosedb hpacked hslot).mono fun _ c hc => ?_)
  have hclosedc := hc.closed hclosedb
  have hpacked' : Packed (layout ++ layoutOf t) := hpacked.append _
  have he' := Expr.WellFormed.mono (List.prefix_append layout (layoutOf t)) _ he
  refine .bind ((ih hpacked' he' hclosedc hc.ready).mono fun _ d hd => ?_)
  have hreadyd := hd.ready
  rw [hkind] at hreadyd
  have hbd := hc.quiet.builds.extends.trans hd.extends
  have hsize := op.size_pos
  have hroom : 1 ≤ d.maxStack ∧ 1 ≤ d.offset := by
    refine ⟨UInt16.le_trans (one_le_maxStack hempty hemits) hbd.maxStack, ?_⟩
    have := hbd.offset
    rw [hemits.passes.offset] at this
    omega
  have hlast : (layout ++ layoutOf t)[slot.toNat]? = some (some .reference) := by
    rw [hslot.1, List.getElem?_append_right (Nat.le_refl _), Nat.sub_self, ← ht]
    cases t <;> rfl
  have hle : (layout ++ layoutOf t).length ≤ 65535 := by
    rw [List.length_append]
    exact hslot.2
  refine (meets_guardedRead field cast hreadyd (hd.closed hclosedc) hpacked' ht hlast hle
    hroom).mono fun _ z hz => ?_
  refine ⟨((hpassed.quiet.trans hc.quiet).trans hd.quiet).trans hz.quiet, hz.closed,
    fun _ => hz.ready, fun _ => rfl, fun {F P} hF hP env => ?_⟩
  obtain ⟨p, q, n, n', n'', h, hreflect, hcast, hstore', hgoto, hguards, hpop, hsum⟩ :=
    hz.reads hF hP
  have hFd := hz.quiet.builds.extends.trans hF
  have hFc := hd.extends.trans hFd
  have hFb := hc.quiet.builds.extends.trans hFc
  have hstore := hc.fetch hready.valid hP hFc fun _ => rfl
  have htarget := hd.computes hFd hP env
  rw [hc.passes.offset] at htarget
  rw [ht] at hstore
  have hexecutes := Executes.readField ht hslot.1 hpacked hpacked' (hb.does ha.valid hP hFb) hstore
    (by rwa [ht] at htarget) hkind hreflect hcast hstore' hgoto rfl hguards hpop hsum
  exact hexecutes.mono fun _ => hz.ready.reachable

mutual

theorem stmtMeets : ∀ s : Stmt, StmtMeets s
  | .store slot t e => stmtMeets_store slot t e
  | .readField slot t target field cast =>
    stmtMeets_readField (exprMeets target) slot t field cast
  | .ifThen c yes => stmtMeets_ifThen (condMeets c) (stmtsMeet yes)
  | .ifElse c yes no => stmtMeets_ifElse (condMeets c) (stmtsMeet yes) (stmtsMeet no)
  | .ret => stmtMeets_ret
  | .retValue e t => stmtMeets_retValue e t
  | .discard e hasValue => stmtMeets_discard e hasValue
  | .block stmts => stmtMeets_block (stmtsMeet stmts)

theorem stmtsMeet : ∀ ss : List Stmt, StmtsMeet ss
  | [] => stmtsMeet_nil
  | s :: ss => stmtsMeet_cons (stmtMeets s) (stmtsMeet ss)

end

end MethodGraft.Typed
