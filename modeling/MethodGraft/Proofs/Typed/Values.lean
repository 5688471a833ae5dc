import MethodGraft.Proofs.Classpath.Meaning
import MethodGraft.Proofs.Typed.WellFormed
import MethodGraft.Typed.Call

/-!
# Proofs.Typed.Values — conversions and operators fit

A bound value fits a layout if its expression is well formed there and is held as its type says.
Every conversion and every operator of the binder keeps values fitting.
-/

namespace MethodGraft.Typed

open ClassFile Code Classpath

def ValueType.kind : ValueType → Option ValueKind
  | .void => none
  | .null => some .reference
  | .of t => some (.ofType t)

structure Value.Fits (layout : Layout) (v : Value) : Prop where
  wellFormed : v.expr.WellFormed layout
  kind : v.expr.kind = v.type.kind

/-- The scope knows the slots of the layout, and the receiver of an instance method is in slot 0. -/
structure Scope.Fits (layout : Layout) (s : Scope) : Prop where
  next : s.nextSlot = layout.length
  le : layout.length ≤ 65535
  locals : ∀ v ∈ s.locals, layout[v.slot.toNat]? = some (some (.ofType v.type))
  receiver : s.isStatic = false → layout[0]? = some (some .reference)

/-! ## 1. Types -/

theorem ofType_eq_reference_iff {t : FieldType} :
    ValueKind.ofType t = .reference ↔ t.isReference = true := by
  cases t <;> simp [ValueKind.ofType, FieldType.isReference]

theorem ofType_eq_int_iff {t : FieldType} : ValueKind.ofType t = .int ↔ t.isIntLike = true := by
  cases t <;> simp [ValueKind.ofType, FieldType.isIntLike]

/-- Looking classes up fails where the look-up does, with the fault wrapped. -/
theorem run_look {α : Type} (x : Resolve α) (r : Resolver) :
    (look x).run.run r = ((x.run.run r).1.mapError .resolve, (x.run.run r).2) := by
  unfold look ExceptT.adapt ExceptT.run StateT.run
  simp only [ExceptT.mk, Functor.map, StateT.map]
  cases x r with
  | mk result t => cases result <;> rfl

theorem run_look_eq_ok {α : Type} {x : Resolve α} {r r' : Resolver} {a : α}
    (h : (look x).run.run r = (.ok a, r')) : x.run.run r = (.ok a, r') := by
  rw [run_look] at h
  obtain ⟨hresult, hstate⟩ := Prod.mk.inj h
  exact Prod.ext (mapError_eq_ok_iff.mp hresult) hstate

theorem yields_look {α : Type} {m : Dictionary} {x : Resolve α} {result : Except Classpath.Error α}
    (h : Yields m x result) : Yields m (look x) (result.mapError .resolve) := by
  intro r hr
  obtain ⟨r', hrun, hlearns⟩ := h r hr
  refine ⟨r', ?_, hlearns⟩
  rw [run_look, hrun]

theorem ensures_look {α : Type} {x : Resolve α} {Q : α → Prop} (h : Ensures x Q) :
    Ensures (look x) Q :=
  fun r a r' hrun => h r a r' (run_look_eq_ok hrun)

theorem ensures_ofDescriptor {α : Type} {r : Except ClassFile.Error α} :
    Ensures (ofDescriptor r) fun a => r = .ok a := by
  refine .ofMk fun a h => ?_
  cases r <;> simp_all [Except.mapError]

structure Assignable (source target : FieldType) : Prop where
  isReference : source.isReference = target.isReference
  widens : source.isReference = false → source = target ∨ widens source target = true

theorem Assignable.refl (t : FieldType) : Assignable t t := ⟨rfl, fun _ => .inl rfl⟩

theorem ensures_isAssignable (source target : FieldType) :
    Ensures (isAssignable source target) fun b => b = true → Assignable source target := by
  induction source generalizing target with
  -- `ih` is not needed: that both are references is all that is asked of arrays
  | array component ih =>
    unfold isAssignable
    split
    next he => exact .ofPure fun _ => he ▸ .refl _
    next he =>
      cases target with
      | array => exact Ensures.any.mono fun _ _ _ => ⟨rfl, by simp [FieldType.isReference]⟩
      | object => exact .ofPure fun _ => ⟨rfl, by simp [FieldType.isReference]⟩
      | _ => exact .ofPure (by simp [FieldType.isReference])
  | object name =>
    unfold isAssignable
    split
    next he => exact .ofPure fun _ => he ▸ .refl _
    next he =>
      cases target with
      | object => exact Ensures.any.mono fun _ _ _ => ⟨rfl, by simp [FieldType.isReference]⟩
      | _ => exact .ofPure (by simp [FieldType.isReference])
  | _ =>
    unfold isAssignable
    split
    next he => exact .ofPure fun _ => he ▸ .refl _
    next he =>
      cases target <;>
        exact .ofPure fun h => ⟨by simp_all [FieldType.isReference], fun _ => .inr (by simp_all)⟩

theorem ensures_look_isAssignable (source target : FieldType) :
    Ensures (look (isAssignable source target)) fun b => b = true → Assignable source target :=
  ensures_look (ensures_isAssignable source target)

/-- What can be assigned is held alike or can be converted. -/
theorem Assignable.converts {source target : FieldType} (h : Assignable source target)
    (href : source.isReference = false) : Converts source target := by
  rcases h.widens href with rfl | hw
  · exact .inl (.inl rfl)
  · cases source <;> cases target <;> simp [Classpath.widens] at hw <;>
      simp [Converts, FieldType.isIntLike, Conversion.ofKinds?, ValueKind.ofType]

/-! ## 2. Values -/

variable {layout : Layout}

theorem widen_fits {e : Expr} {source target : FieldType} (he : e.WellFormed layout)
    (hkind : e.kind = some (.ofType source)) (h : Assignable source target) :
    (widen e source target).WellFormed layout ∧
      (widen e source target).kind = some (.ofType target) := by
  unfold widen
  split
  next hsame =>
    refine ⟨he, ?_⟩
    rcases hsame with rfl | href | ⟨hs, ht⟩
    · exact hkind
    · rw [hkind, ofType_eq_reference_iff.mpr href,
        ofType_eq_reference_iff.mpr (h.isReference.trans href)]
    · rw [hkind, ofType_eq_int_iff.mpr hs, ofType_eq_int_iff.mpr ht]
  next hother =>
    have href : source.isReference = false := by
      rw [h.isReference]
      simpa using fun ht => hother (.inr (.inl ht))
    exact ⟨⟨he, hkind, h.converts href⟩, rfl⟩

/-- The promoted type is `int` or `long`, and both types can be widened to it. -/
theorem promotion?_spec {a b t : FieldType} (ha : isNumber a = true) (hb : isNumber b = true)
    (h : promotion? a b = some t) :
    (t = .int ∨ t = .long) ∧ (t = .int → a.isIntLike ∧ b.isIntLike) ∧
      (t = .long → Assignable a .long ∧ Assignable b .long) := by
  cases a <;> simp [isNumber, FieldType.isReference] at ha <;>
    cases b <;> simp [isNumber, FieldType.isReference] at hb <;>
    simp [promotion?, isFloating] at h <;> subst h <;>
    simp only [FieldType.isIntLike, reduceCtorEq, or_true, true_or, and_true, true_and,
      forall_const, false_implies] <;>
    exact ⟨⟨rfl, by simp [widens]⟩, ⟨rfl, by simp [widens]⟩⟩

theorem ensures_assign {v : Value} (hv : v.Fits layout) (target : FieldType) (line : Nat) :
    Ensures (assign v target line) fun e =>
      e.WellFormed layout ∧ e.kind = some (.ofType target) := by
  unfold assign
  cases ht : v.type with
  | void => exact .ofThrow
  | null =>
    dsimp only
    split
    next href =>
      exact .ofPure ⟨trivial, by rw [ofType_eq_reference_iff.mpr href]; rfl⟩
    next => exact .ofThrow
  | of source =>
    have hkind : v.expr.kind = some (.ofType source) := by rw [hv.kind, ht]; rfl
    dsimp only
    split
    next hsame =>
      refine .ofPure ⟨hv.wellFormed, ?_⟩
      rcases hsame with rfl | hconst
      · exact hkind
      · -- a constant is an int, and so are the types it fits
        unfold isFittingConstant at hconst
        split at hconst
        next value he =>
          rw [he]
          cases target <;> simp [fits] at hconst <;> rfl
        next => simp at hconst
    next =>
      refine (ensures_look_isAssignable source target).bind fun b hb => ?_
      split
      next hb' => exact .ofPure (widen_fits hv.wellFormed hkind (hb hb'))
      next =>
        split
        next => exact .after fun _ => .ofThrow
        next => exact .ofThrow

/-- A parameter takes values of the type. -/
def Passes (t : ValueType) (param : FieldType) : Prop :=
  (t = .null ∧ param.isReference = true) ∨ ∃ u, t = .of u ∧ Assignable u param

theorem ensures_accepts (t : ValueType) (param : FieldType) :
    Ensures (accepts t param) fun b => b = true → Passes t param := by
  cases t with
  | void => exact .ofPure (by simp)
  | null => exact .ofPure fun h => .inl ⟨rfl, h⟩
  | of u => exact (ensures_look_isAssignable u param).mono fun b h hb => .inr ⟨u, rfl, h hb⟩

theorem passArgument_fits {arg : Value} {param : FieldType} (harg : arg.Fits layout)
    (h : Passes arg.type param) :
    (passArgument arg param).WellFormed layout ∧
      (passArgument arg param).kind = some (.ofType param) := by
  unfold passArgument
  rcases h with ⟨hnull, href⟩ | ⟨u, hu, hassign⟩
  · rw [hnull]
    refine ⟨harg.wellFormed, ?_⟩
    rw [harg.kind, hnull, ofType_eq_reference_iff.mpr href]
    rfl
  · have hkind : arg.expr.kind = some (.ofType u) := by rw [harg.kind, hu]; rfl
    rw [hu]
    dsimp only
    split
    next href =>
      refine ⟨harg.wellFormed, ?_⟩
      rw [hkind, ofType_eq_reference_iff.mpr href,
        ofType_eq_reference_iff.mpr (hassign.isReference ▸ href)]
    next => exact widen_fits harg.wellFormed hkind hassign

theorem ensures_castTo {v : Value} (hv : v.Fits layout) (target : FieldType) (line : Nat) :
    Ensures (castTo v target line) (Value.Fits layout) := by
  unfold castTo
  cases ht : v.type with
  | void => exact .ofThrow
  | null =>
    dsimp only
    split
    next href =>
      refine .ofPure ⟨trivial, ?_⟩
      rw [Value.of, ValueType.kind, ofType_eq_reference_iff.mpr href]
      rfl
    next => exact .ofThrow
  | of source =>
    have hkind : v.expr.kind = some (.ofType source) := by rw [hv.kind, ht]; rfl
    dsimp only
    split
    next hs href =>
      -- between references the value stays as it is, or a check is added that leaves the target's
      -- type
      have hsource := ofType_eq_reference_iff.mpr hs
      have htarget := ofType_eq_reference_iff.mpr href
      refine (ensures_look_isAssignable source target).bind fun b hb => ?_
      split
      next =>
        exact .ofPure ⟨hv.wellFormed, by rw [Value.of, ValueType.kind, hkind, hsource, htarget]⟩
      next =>
        exact .ofPure ⟨⟨hv.wellFormed, hsource ▸ hkind⟩,
          by rw [Value.of, ValueType.kind, htarget]; rfl⟩
    next =>
      refine (ensures_look_isAssignable source target).bind fun b hb => ?_
      split
      next hb' =>
        -- between primitives a cast only widens
        obtain ⟨hwf, hk⟩ := widen_fits hv.wellFormed hkind (hb hb')
        exact .ofPure ⟨hwf, hk⟩
      next =>
        split
        next => exact .after fun _ => .ofThrow
        next => exact .ofThrow
    next => exact .ofThrow
    next => exact .ofThrow

/-! ## 3. Operators -/

theorem readable_append {t : ValueType} (ht : t ≠ .void) :
    (appendCallee (appendType t)).WellFormed ∧ t.kind = some (.ofType (appendType t)) := by
  have hwf (u : FieldType) (hu : (appendCallee u).type.Readable) : (appendCallee u).WellFormed :=
    ⟨hu, by simp [appendCallee], by simp [appendCallee]⟩
  have hobject : (appendCallee (.object FieldType.rootClass)).type.Readable := by
    unfold MethodDescriptor.Readable
    decide +kernel
  cases t with
  | void => exact absurd rfl ht
  | null => exact ⟨hwf _ hobject, rfl⟩
  | of u =>
    have hprimitive : ∀ u ∈ [FieldType.string, .boolean, .char, .long, .float, .double, .int],
        (appendCallee u).type.Readable := by
      unfold MethodDescriptor.Readable
      decide +kernel
    by_cases hs : u.isString = true
    · have hu : u = .string := by simpa [FieldType.isString] using hs
      subst hu
      exact ⟨hwf .string (hprimitive .string (by decide)), rfl⟩
    · cases u <;> simp [appendType, hs, isFloating, FieldType.isIntLike, ValueType.kind,
        ValueKind.ofType]
      all_goals first
        | exact hwf _ hobject
        | exact hwf _ (hprimitive _ (by decide))

theorem partsWellFormed_append {as bs : List (Expr × FieldType)}
    (ha : Expr.PartsWellFormed layout as) (hb : Expr.PartsWellFormed layout bs) :
    Expr.PartsWellFormed layout (as ++ bs) := by
  induction as with
  | nil => exact hb
  | cons a as ih => exact ⟨ha.1, ih ha.2⟩

theorem partsOf_wellFormed {v : Value} (hv : v.Fits layout) (ht : v.type ≠ .void) :
    Expr.PartsWellFormed layout (partsOf v) := by
  unfold partsOf
  split
  next parts he =>
    have hwf := hv.wellFormed
    rw [he] at hwf
    exact hwf
  next =>
    obtain ⟨hcallee, hkind⟩ := readable_append ht
    exact ⟨⟨hv.wellFormed, hv.kind.trans hkind, hcallee⟩, trivial⟩

/-- Two numbers fit their promoted type: as they are where it is `int`, widened where it is
`long`. -/
theorem promoted_fits {l r : Value} {a b t : FieldType} (hl : l.Fits layout) (hr : r.Fits layout)
    (ha : l.type = .of a) (hb : r.type = .of b) (hna : isNumber a = true) (hnb : isNumber b = true)
    (h : promotion? a b = some t) :
    (t = .int ∧ (l.expr.kind = some .int ∧ widen l.expr a .int = l.expr) ∧
        r.expr.kind = some .int ∧ widen r.expr b .int = r.expr) ∨
      (t = .long ∧
        ((widen l.expr a .long).WellFormed layout ∧ (widen l.expr a .long).kind = some .long) ∧
        (widen r.expr b .long).WellFormed layout ∧ (widen r.expr b .long).kind = some .long) := by
  have hla : l.expr.kind = some (.ofType a) := by rw [hl.kind, ha]; rfl
  have hrb : r.expr.kind = some (.ofType b) := by rw [hr.kind, hb]; rfl
  have hheld (e : Expr) {u : FieldType} (hu : u.isIntLike = true) (hk : e.kind = some (.ofType u)) :
      e.kind = some .int ∧ widen e u .int = e :=
    ⟨by rw [hk, ofType_eq_int_iff.mpr hu], if_pos (.inr (.inr ⟨hu, rfl⟩))⟩
  obtain ⟨rfl | rfl, hint, hlong⟩ := promotion?_spec hna hnb h
  · obtain ⟨haint, hbint⟩ := hint rfl
    exact .inl ⟨rfl, hheld l.expr haint hla, hheld r.expr hbint hrb⟩
  · obtain ⟨halong, hblong⟩ := hlong rfl
    exact .inr ⟨rfl, widen_fits hl.wellFormed hla halong, widen_fits hr.wellFormed hrb hblong⟩

theorem exists_of_isNumeric {t : ValueType} (h : t.isNumeric = true) :
    ∃ a, t = .of a ∧ isNumber a = true := by
  cases t with
  | of a => exact ⟨a, rfl, h⟩
  | void | null => cases h

theorem ensures_addValues {l r : Value} (hl : l.Fits layout) (hr : r.Fits layout) (line : Nat) :
    Ensures (addValues l r line) (Value.Fits layout) := by
  unfold addValues
  refine .refusing fun hvoid => ?_
  simp only [not_or] at hvoid
  split
  next =>
    -- a text: each part is appended as it is
    refine .after fun _ => .ofPure ⟨?_, rfl⟩
    exact partsWellFormed_append (partsOf_wellFormed hl hvoid.1) (partsOf_wellFormed hr hvoid.2)
  next =>
    split
    next a b ha hb =>
      refine .refusing fun hnum => ?_
      simp only [Bool.not_eq_true', Bool.not_eq_false, Bool.and_eq_true] at hnum
      split
      next t ht =>
        refine .ofPure ⟨?_, rfl⟩
        rcases promoted_fits hl hr ha hb hnum.1 hnum.2 ht with
          ⟨rfl, ⟨hlk, hlw⟩, hrk, hrw⟩ | ⟨rfl, ⟨hlwf, hlk⟩, hrwf, hrk⟩
        · simp only [Value.of, Expr.WellFormed, hlw, hrw]
          exact ⟨hl.wellFormed, hlk, hr.wellFormed, hrk, .inl rfl⟩
        · exact ⟨hlwf, hlk, hrwf, hrk, .inr rfl⟩
      next => exact .ofThrow
    next => exact .ofThrow

theorem kind_of_isReference {t : ValueType} (h : t.isReference = true) :
    t.kind = some .reference := by
  cases t with
  | void => simp [ValueType.isReference] at h
  | null => rfl
  | of u => exact congrArg some (ofType_eq_reference_iff.mpr h)

theorem ensures_compareReferences {l r : Value} (hl : l.Fits layout) (hr : r.Fits layout)
    (hlref : l.type.isReference = true) (hrref : r.type.isReference = true) (equal : Bool)
    (line : Nat) : Ensures (compareReferences equal l r line) (Cond.WellFormed layout) := by
  have hlk := hl.kind.trans (kind_of_isReference hlref)
  have hrk := hr.kind.trans (kind_of_isReference hrref)
  unfold compareReferences
  split
  next =>
    refine .after fun b => ?_
    split
    next => exact .ofPure ⟨hl.wellFormed, hlk, hr.wellFormed, hrk⟩
    next => exact .ofThrow
  next => exact .ofPure ⟨hl.wellFormed, hlk⟩
  next => exact .ofPure ⟨hr.wellFormed, hrk⟩
  next => exact .ofPure trivial

theorem ensures_compareValues {l r : Value} (hl : l.Fits layout) (hr : r.Fits layout)
    (op : Source.BinaryOp) (c : Comparison) (line : Nat) :
    Ensures (compareValues op c l r line) (Cond.WellFormed layout) := by
  unfold compareValues
  dsimp only
  split
  next hbool =>
    simp only [Bool.and_eq_true, ValueType.isBoolean, beq_iff_eq] at hbool
    split
    next =>
      refine .ofPure ⟨hl.wellFormed, ?_, hr.wellFormed, ?_⟩
      · rw [hl.kind, hbool.1]; rfl
      · rw [hr.kind, hbool.2]; rfl
    next => exact .ofThrow
  next =>
    split
    next hnum =>
      rw [Bool.and_eq_true] at hnum
      obtain ⟨a, ha, hna⟩ := exists_of_isNumeric hnum.1
      obtain ⟨b, hb, hnb⟩ := exists_of_isNumeric hnum.2
      rw [ha, hb]
      dsimp only [ValueType.type?, Option.getD_some]
      split
      next hp =>
        rcases promoted_fits hl hr ha hb hna hnb hp with ⟨hint, -⟩ | ⟨-, ⟨hlwf, hlk⟩, hrwf, hrk⟩
        · cases hint
        · exact .ofPure ⟨hlwf, hlk, hrwf, hrk⟩
      next t hne hp =>
        rcases promoted_fits hl hr ha hb hna hnb hp with ⟨-, ⟨hlk, -⟩, hrk, -⟩ | ⟨hlong, -⟩
        · exact .ofPure ⟨hl.wellFormed, hlk, hr.wellFormed, hrk⟩
        · exact absurd hlong hne
      next => exact .ofThrow
    next =>
      split
      next href =>
        simp only [Bool.and_eq_true] at href
        split
        next => exact ensures_compareReferences hl hr href.1 href.2 _ _
        next => exact .ofThrow
      next =>
        split
        next => exact .ofThrow
        next => exact .ofThrow

end MethodGraft.Typed
