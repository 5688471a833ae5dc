import MethodGraft.Proofs.Emission.Laid

/-!
# Proofs.Emission.Expressions — code is generated for every expression

Where a tree is well formed, code generation for it fails only when a capacity is exceeded, and the
code that it adds evaluates the tree, in whatever program it ends up.
-/

namespace MethodGraft.Typed

open ClassFile Code Assembly Assembler Machine Direct

variable {a b c : Assembler} {layout : Layout} {stack stack' : List ValueKind} {op : Operation}

/-! ## 1. What is shown -/

/-- The code between `a` and `b` ends with this stack and leaves labels and handlers alone. -/
structure Passed (a b : Assembler) (layout : Layout) (stack : List ValueKind) : Prop where
  quiet : Quiet [] a b
  handlers : b.handlers = a.handlers
  ready : b.Ready layout stack

structure EmitsExpr (layout : Layout) (stack : List ValueKind) (e : Expr) (a b : Assembler) : Prop
    extends Passed a b layout (e.kind.toList ++ stack) where
  computes : ∀ {F P}, b.Extends F → Laid F P → ∀ env, Computes env P layout a.offset b.offset e

structure EmitsExprs (layout : Layout) (stack : List ValueKind) (es : List Expr)
    (kinds : List ValueKind) (a b : Assembler) : Prop
    extends Passed a b layout (kinds.reverse ++ stack) where
  computes : ∀ {F P}, b.Extends F → Laid F P → ∀ env, ComputesAll env P layout a.offset b.offset es

structure EmitsParts (layout : Layout) (stack : List ValueKind) (parts : List (Expr × FieldType))
    (a b : Assembler) : Prop extends Passed a b layout (.reference :: stack) where
  appends : ∀ {F P}, b.Extends F → Laid F P → ∀ env, Appends env P layout a.offset b.offset parts

def ExprMeets (e : Expr) : Prop :=
  ∀ {layout stack a}, Packed layout → e.WellFormed layout → a.Closed → a.Ready layout stack →
    Meets (emitExpr e) a fun _ b => EmitsExpr layout stack e a b

def ExprsMeet (es : List Expr) : Prop :=
  ∀ {layout stack kinds a}, Packed layout → Expr.AllWellFormed layout es → a.Closed →
    a.Ready layout stack → es.map Expr.kind = kinds.map some →
      Meets (emitExprs es) a fun _ b => EmitsExprs layout stack es kinds a b

def PartsMeet (parts : List (Expr × FieldType)) : Prop :=
  ∀ {layout stack a}, Packed layout → Expr.PartsWellFormed layout parts → a.Closed →
    a.Ready layout (.reference :: stack) →
      Meets (emitParts parts) a fun _ b => EmitsParts layout stack parts a b

theorem closed_of_handlers (ha : a.Closed) (hab : a.Extends b) (hsame : b.handlers = a.handlers) :
    b.Closed := by
  intro r hr
  rw [hsame] at hr
  obtain ⟨p, hp⟩ := Option.isSome_iff_exists.mp (ha r hr)
  rw [hab.placed _ p hp, hp]
  rfl

namespace Passed

theorem refl (ha : a.Ready layout stack) : Passed a a layout stack := ⟨.refl a, rfl, ha⟩

theorem trans (hab : Passed a b layout stack) (hbc : Passed b c layout stack') :
    Passed a c layout stack' :=
  ⟨hab.quiet.trans hbc.quiet, hbc.handlers.trans hab.handlers, hbc.ready⟩

theorem ofEmits (h : Emits a b op layout stack) : Passed a b layout stack :=
  ⟨h.quiet, h.passes.handlers, h.ready⟩

theorem closed (h : Passed a b layout stack) (ha : a.Closed) : b.Closed :=
  closed_of_handlers ha h.quiet.builds.extends h.handlers

theorem «extends» (h : Passed a b layout stack) : a.Extends b := h.quiet.builds.extends

theorem uncovered (h : Passed a b layout stack) (ha : a.Valid) (hclosed : a.Closed)
    {F : Assembler} {P : Program} (hF : b.Extends F) (hP : Laid F P) :
    Uncovered P a.offset b.offset := hP.uncovered ha hclosed h.extends h.handlers hF

end Passed

/-! ## 2. Constants, locals and members -/

/-- An instruction that pushes a constant. -/
theorem emitsExpr_of_loads {e : Expr} {v : Machine.Value} (ha : a.Valid)
    (h : Loads a layout stack v b) (he : ∀ env, expr env e = pure v)
    (hkind : e.kind = some v.kind) : EmitsExpr layout stack e a b where
  toPassed := by
    obtain ⟨op, hemits, -⟩ := h
    rw [hkind]
    exact .ofEmits hemits
  computes hF hP env := .ofConstant (he env) hkind fun stack => h.does ha hP hF stack

theorem exprMeets_int (v : Int32) : ExprMeets (.int v) := fun _ _ _ ha =>
  (meets_iconst ha v).mono fun _ _ h => emitsExpr_of_loads ha.valid h (fun _ => rfl) rfl

theorem exprMeets_long (v : Int64) : ExprMeets (.long v) := fun _ _ _ ha =>
  (meets_lconst ha v).mono fun _ _ h => emitsExpr_of_loads ha.valid h (fun _ => rfl) rfl

theorem exprMeets_str (text : String) : ExprMeets (.str text) := fun _ _ _ ha =>
  (meets_ldcString ha text).mono fun _ _ h => emitsExpr_of_loads ha.valid h (fun _ => rfl) rfl

theorem exprMeets_null : ExprMeets .null := fun _ _ _ ha =>
  (meets_aconstNull ha).mono fun _ _ h => emitsExpr_of_loads ha.valid h (fun _ => rfl) rfl

theorem exprMeets_local (slot : UInt16) (t : FieldType) : ExprMeets (.local slot t) := by
  intro layout stack a hpacked he _ ha
  refine (meets_load ha hpacked he).mono fun _ b h => ⟨.ofEmits h, fun hF hP env => ?_⟩
  rw [h.passes.offset]
  exact .local (h.fetch ha.valid hP hF fun _ => rfl) he

theorem exprMeets_getField {receiver : Expr} (ih : ExprMeets receiver) (owner name : String)
    (t : FieldType) : ExprMeets (.getField receiver owner name t) := by
  intro layout stack a hpacked he hclosed ha
  obtain ⟨hreceiver, hkind, hreadable⟩ := he
  refine .bind ((ih hpacked hreceiver hclosed ha).mono fun _ b hb => ?_)
  have hready := hb.ready
  rw [hkind] at hready
  refine (meets_getField hready hreadable).mono ?_
  rintro - c ⟨i, hc, hi⟩
  refine ⟨hb.toPassed.trans (.ofEmits hc), fun hF hP env => ?_⟩
  have hun := (Passed.ofEmits hc).uncovered hready.valid (hb.closed hclosed) hF hP
  rw [hc.passes.offset] at hun ⊢
  exact .getField (hb.computes (hc.quiet.builds.extends.trans hF) hP env) hkind
    (hc.fetch hready.valid hP hF fun _ => rfl) (Operation.size_pos _) hun
    (ConstantPool.field?_mono (hP.pool_le hF) hi)

theorem exprMeets_getStatic (owner name : String) (t : FieldType) :
    ExprMeets (.getStatic owner name t) := by
  intro layout stack a _ hreadable hclosed ha
  refine (meets_getStatic ha hreadable).mono ?_
  rintro - b ⟨i, hb, hi⟩
  refine ⟨.ofEmits hb, fun hF hP env => ?_⟩
  have hun := (Passed.ofEmits hb).uncovered ha.valid hclosed hF hP
  rw [hb.passes.offset] at hun ⊢
  exact .getStatic (hb.fetch ha.valid hP hF fun _ => rfl) (Operation.size_pos _) hun
    (ConstantPool.field?_mono (hP.pool_le hF) hi)

theorem exprMeets_checkcast {e : Expr} (ih : ExprMeets e) (name : String) :
    ExprMeets (.checkcast name e) := by
  intro layout stack a hpacked he hclosed ha
  obtain ⟨he, hkind⟩ := he
  refine .bind ((ih hpacked he hclosed ha).mono fun _ b hb => ?_)
  have hready := hb.ready
  rw [hkind] at hready
  refine (meets_checkcast hready).mono ?_
  rintro - c ⟨i, hc, hi⟩
  refine ⟨hb.toPassed.trans (.ofEmits hc), fun hF hP env => ?_⟩
  have hun := (Passed.ofEmits hc).uncovered hready.valid (hb.closed hclosed) hF hP
  rw [hc.passes.offset] at hun ⊢
  exact .checkcast (hb.computes (hc.quiet.builds.extends.trans hF) hP env) hkind
    (hc.fetch hready.valid hP hF fun _ => rfl) (Operation.size_pos _) hun
    (ConstantPool.class?_mono (hP.pool_le hF) hi)

/-! ## 3. Arithmetic -/

theorem exprMeets_widen {e : Expr} (ih : ExprMeets e) (source target : FieldType) :
    ExprMeets (.widen source target e) := by
  intro layout stack a hpacked he hclosed ha
  obtain ⟨he, hkind, hconverts⟩ := he
  refine .bind ((ih hpacked he hclosed ha).mono fun _ b hb => ?_)
  have hready := hb.ready
  rw [hkind] at hready
  by_cases halike : source = target ∨ (source.isIntLike ∧ target.isIntLike)
  · have hsame : ValueKind.ofType source = .ofType target := ofType_eq_of_alike halike
    unfold Assembly.widen
    rw [if_pos halike]
    refine .ofPure ⟨⟨hb.quiet, hb.handlers, ?_⟩, fun hF hP env => ?_⟩
    · show b.Ready layout (.ofType target :: stack)
      rw [← hsame]
      exact hready
    · exact (hb.computes hF hP env).widenAlike hkind halike
  · obtain ⟨c, hc⟩ := Option.isSome_iff_exists.mp (hconverts.resolve_left halike)
    refine (meets_convert hready halike hc).mono fun _ d hd => ?_
    refine ⟨hb.toPassed.trans (.ofEmits hd), fun hF hP env => ?_⟩
    rw [hd.passes.offset]
    exact (hb.computes (hd.quiet.builds.extends.trans hF) hP env).widen hkind halike hc
      (hd.fetch hready.valid hP hF fun _ => rfl)

theorem exprMeets_add {l r : Expr} (ihl : ExprMeets l) (ihr : ExprMeets r) (t : FieldType) :
    ExprMeets (.add t l r) := by
  intro layout stack a hpacked he hclosed ha
  obtain ⟨hl, hlk, hr, hrk, ht⟩ := he
  refine .bind ((ihl hpacked hl hclosed ha).mono fun _ b hb => ?_)
  refine .bind ((ihr hpacked hr (hb.closed hclosed) hb.ready).mono fun _ c hc => ?_)
  have hready := hc.ready
  rw [hlk, hrk] at hready
  refine (meets_add hready ht).mono ?_
  rintro - d ⟨op, hop, hd⟩
  refine ⟨(hb.toPassed.trans hc.toPassed).trans (.ofEmits hd), fun hF hP env => ?_⟩
  have hFc := hd.quiet.builds.extends.trans hF
  have hstraight (n : Nat) : op.resolve n = op := by
    rcases hop with ⟨-, rfl⟩ | ⟨-, rfl⟩ <;> rfl
  rw [hd.passes.offset]
  exact (hb.computes (hc.extends.trans hFc) hP env).add hlk (hc.computes hFc hP env) hrk hop
    (hd.fetch hready.valid hP hF hstraight)

/-! ## 4. Calls -/

theorem exprsMeet_nil : ExprsMeet [] := by
  intro layout stack kinds a _ _ _ ha hkinds
  cases kinds with
  | nil => exact .ofPure ⟨.refl ha, fun _ _ _ => .nil⟩
  | cons => cases hkinds

theorem exprsMeet_cons {e : Expr} {es : List Expr} (ih : ExprMeets e) (ihs : ExprsMeet es) :
    ExprsMeet (e :: es) := by
  intro layout stack kinds a hpacked hes hclosed ha hkinds
  cases kinds with
  | nil => cases hkinds
  | cons k kinds =>
    obtain ⟨hk, hks⟩ := List.cons_eq_cons.mp hkinds
    refine .bind ((ih hpacked hes.1 hclosed ha).mono fun _ b hb => ?_)
    have hready := hb.ready
    rw [hk] at hready
    refine (ihs hpacked hes.2 (hb.closed hclosed) hready hks).mono fun _ c hc => ?_
    refine ⟨hb.toPassed.trans ⟨hc.quiet, hc.handlers, ?_⟩, fun hF hP env => ?_⟩
    · rw [List.reverse_cons, List.append_assoc]
      exact hc.ready
    · exact .cons (hb.computes (hc.extends.trans hF) hP env) (hc.computes hF hP env)

theorem map_kind_params {es : List Expr} {callee : Callee} (h : es.map Expr.kind = callee.params) :
    es.map Expr.kind = (callee.type.params.map ValueKind.ofType).map some := by
  rw [h, Callee.params, List.map_map]
  rfl

structure EmitsCall (layout : Layout) (stack : List ValueKind) (callee : Callee) (a b : Assembler) :
    Prop extends Passed a b layout ((callee.type.ret.map ValueKind.ofType).toList ++ stack) where
  calls : ∀ {F P}, b.Extends F → Laid F P → Calls P a.offset b.offset callee

theorem meets_call {callee : Callee} (hcallee : callee.WellFormed)
    (ha : a.Ready layout (operandKinds callee ++ stack)) :
    Meets (invokeCallee callee) a fun _ b => EmitsCall layout stack callee a b := by
  refine (meets_invoke hcallee ha).mono ?_
  rintro - b ⟨i, slots, hb, hi⟩
  exact ⟨.ofEmits hb, fun hF hP => calls_of_emits hb ha.valid hP hF hi⟩

theorem exprMeets_call {args : List Expr} (ih : ExprsMeet args) (callee : Callee) :
    ExprMeets (.call callee args) := by
  intro layout stack a hpacked he hclosed ha
  obtain ⟨hcallee, hstatic, hargs, hkinds⟩ := he
  refine .bind ((ih hpacked hargs hclosed ha (map_kind_params hkinds)).mono fun _ b hb => ?_)
  have hready := hb.ready
  have hoperands : operandKinds callee = (callee.type.params.map ValueKind.ofType).reverse := by
    rw [operandKinds, if_pos hstatic, List.append_nil]
  rw [← hoperands] at hready
  refine (meets_call hcallee hready).mono fun _ c hc => ?_
  refine ⟨hb.toPassed.trans hc.toPassed, fun hF hP env => ?_⟩
  exact .call (hb.computes (hc.extends.trans hF) hP env) hkinds hstatic (hc.calls hF hP)
    (hc.uncovered hready.valid (hb.closed hclosed) hF hP)

/-- The receiver of a static call is dropped again, that of another stays. -/
theorem meets_dropStatic {kind : InvokeKind} (ha : a.Ready layout (.reference :: stack)) :
    Meets (if kind = .static then popValue else pure ()) a fun _ b =>
      Passed a b layout ((if kind = .static then [] else [.reference]) ++ stack) ∧
      ∀ {F P}, b.Extends F → Laid F P → ∀ v rest, v.kind = .reference →
        Does P a.offset b.offset (v :: rest) (if kind = .static then rest else v :: rest) := by
  by_cases hstatic : kind = .static
  · rw [if_pos hstatic]
    refine (meets_popValue ha).mono fun _ b hb => ?_
    rw [if_pos hstatic]
    refine ⟨.ofEmits hb, fun hF hP v rest hv => ?_⟩
    rw [if_pos hstatic, hb.passes.offset]
    exact does_of_compute (hb.fetch ha.valid hP hF fun _ => rfl) fun _ =>
      compute?_pop (by rw [hv]; rfl)
  · rw [if_neg hstatic, if_neg hstatic]
    refine .ofPure ⟨.refl ha, fun _ _ v rest _ => ?_⟩
    rw [if_neg hstatic]
    exact fun env μ past => .refl _

theorem exprMeets_callOn {receiver : Expr} {args : List Expr} (ih : ExprMeets receiver)
    (ihs : ExprsMeet args) (callee : Callee) : ExprMeets (.callOn receiver callee args) := by
  intro layout stack a hpacked he hclosed ha
  obtain ⟨hcallee, hreceiver, hkind, hargs, hkinds⟩ := he
  refine .bind ((ih hpacked hreceiver hclosed ha).mono fun _ b hb => ?_)
  have hready := hb.ready
  rw [hkind] at hready
  refine .bindIf ((meets_dropStatic hready).mono ?_)
  rintro - c ⟨hc, hdrop⟩
  have hclosed' := hc.closed (hb.closed hclosed)
  refine .bind
    ((ihs hpacked hargs hclosed' hc.ready (map_kind_params hkinds)).mono fun _ d hd => ?_)
  have hready' := hd.ready
  rw [← List.append_assoc] at hready'
  refine (meets_call hcallee hready').mono fun _ f hf => ?_
  refine ⟨((hb.toPassed.trans hc).trans hd.toPassed).trans hf.toPassed, fun hF hP env => ?_⟩
  have hFd := hf.extends.trans hF
  have hFc := hd.extends.trans hFd
  exact (hb.computes (hc.extends.trans hFc) hP env).callOn hkind (hdrop hFc hP)
    (hd.computes hFd hP env) hkinds (hf.calls hF hP)
    (hf.uncovered hready'.valid (hd.closed hclosed') hF hP)

/-! ## 5. Texts -/

theorem partsMeet_nil : PartsMeet [] := fun _ _ _ ha => .ofPure ⟨.refl ha, fun _ _ _ => .nil⟩

theorem partsMeet_cons {e : Expr} {t : FieldType} {parts : List (Expr × FieldType)}
    (ih : ExprMeets e) (ihs : PartsMeet parts) : PartsMeet ((e, t) :: parts) := by
  intro layout stack a hpacked hparts hclosed ha
  obtain ⟨⟨he, hkind, happend⟩, hparts⟩ := hparts
  refine .bind ((ih hpacked he hclosed ha).mono fun _ b hb => ?_)
  have hready := hb.ready
  rw [hkind] at hready
  refine .bind ((meets_call happend hready).mono fun _ c hc => ?_)
  have hclosed' := hc.closed (hb.closed hclosed)
  refine (ihs hpacked hparts hclosed' hc.ready).mono fun _ d hd => ?_
  refine ⟨(hb.toPassed.trans hc.toPassed).trans hd.toPassed, fun hF hP env => ?_⟩
  have hFc := hd.extends.trans hF
  exact .cons (hb.computes (hc.extends.trans hFc) hP env) hkind (hc.calls hFc hP)
    (hc.uncovered hready.valid (hb.closed hclosed) hFc hP) (hd.appends hF hP env)

theorem builderCallee_wellFormed {kind : InvokeKind} {name : String} {ret : Option FieldType}
    (hkind : kind ≠ .interface) (hreadable : MethodDescriptor.Readable ⟨[], ret⟩) :
    (builderCallee kind name ret).WellFormed := ⟨hreadable, fun h => absurd h hkind, fun _ => rfl⟩

/-- A reference is doubled. -/
theorem meets_double (ha : a.Ready layout (.reference :: stack)) :
    Meets dup a fun _ b => Passed a b layout (.reference :: .reference :: stack) ∧
      ∀ {F P}, b.Extends F → Laid F P → Doubles P a.offset b.offset := by
  refine (meets_dup ha rfl).mono fun _ b hb => ⟨.ofEmits hb, fun hF hP v rest hv => ?_⟩
  rw [hb.passes.offset]
  exact does_of_compute (hb.fetch ha.valid hP hF fun _ => rfl) fun _ =>
    compute?_dup (by rw [hv]; rfl)

theorem exprMeets_concat {parts : List (Expr × FieldType)} (ih : PartsMeet parts) :
    ExprMeets (.concat parts) := by
  intro layout stack a hpacked hparts hclosed ha
  have hinit : (builderCallee .special "<init>" none).WellFormed :=
    builderCallee_wellFormed (by decide) (by unfold MethodDescriptor.Readable; decide +kernel)
  have htext : (builderCallee .virtual "toString" (some .string)).WellFormed :=
    builderCallee_wellFormed (by decide) (by unfold MethodDescriptor.Readable; decide +kernel)
  -- the new builder is doubled, since its constructor takes one and leaves nothing
  have hbuilder : Meets newTextBuilder a fun _ b => ∃ i b₁ b₂,
      Emits a b₁ (.new i) layout (.reference :: stack) ∧ b₁.pool.class? i = some textBuilder ∧
        (Passed b₁ b₂ layout (.reference :: .reference :: stack) ∧
          ∀ {F P}, b₂.Extends F → Laid F P → Doubles P b₁.offset b₂.offset) ∧
        EmitsCall layout (.reference :: stack) (builderCallee .special "<init>" none) b₂ b := by
    refine .bind ((meets_newObject ha).mono ?_)
    rintro - b₁ ⟨i, hb₁, hi⟩
    refine .bind ((meets_double hb₁.ready).mono fun _ b₂ hb₂ => ?_)
    exact (meets_call hinit hb₂.1.ready).mono fun _ b hb => ⟨i, b₁, b₂, hb₁, hi, hb₂, hb⟩
  refine .bind (hbuilder.mono ?_)
  rintro - b ⟨i, b₁, b₂, hb₁, hi, ⟨hb₂, hdup⟩, hb⟩
  have hclosed₁ := hb₁.closed hclosed
  have hclosed₂ := hb₂.closed hclosed₁
  have hclosed' := hb.closed hclosed₂
  refine .bind ((ih hpacked hparts hclosed' hb.ready).mono fun _ c hc => ?_)
  refine (meets_call htext hc.ready).mono fun _ d hd => ?_
  refine ⟨(((Passed.ofEmits hb₁).trans hb₂).trans hb.toPassed).trans
    (hc.toPassed.trans hd.toPassed), fun hF hP env => ?_⟩
  have hFc := hd.extends.trans hF
  have hFb := hc.extends.trans hFc
  have hF₂ := hb.extends.trans hFb
  have hF₁ := hb₂.extends.trans hF₂
  have hun := (Passed.ofEmits hb₁).uncovered ha.valid hclosed hF₁ hP
  have hdup := hdup hF₂ hP
  rw [hb₁.passes.offset] at hun hdup
  exact .concat (hb₁.fetch ha.valid hP hF₁ fun _ => rfl) (Operation.size_pos _)
    (ConstantPool.class?_mono (hP.pool_le hF₁) hi) hdup (hb.calls hFb hP)
    (hc.appends hFc hP env) (hd.calls hF hP) hun
    (hb.uncovered hb₂.ready.valid hclosed₂ hFb hP)
    (hd.uncovered hc.ready.valid (hc.closed hclosed') hF hP)

end MethodGraft.Typed
