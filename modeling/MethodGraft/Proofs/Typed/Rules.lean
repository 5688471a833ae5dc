import MethodGraft.Proofs.Typed.Determinacy
import MethodGraft.Proofs.Typed.Resolution

/-!
# Proofs.Typed.Rules — what binding makes of a source

The rules tell for each form of an expression what it can mean, and for each form of a statement
what it is bound to, by what its parts are bound to.  They say which locals a tree reads and where a
value is converted; which members are found is left open.  Whatever the binder makes follows them.
-/

namespace MethodGraft.Typed

open ClassFile Classpath

variable {m : Dictionary} {s : Scope}

/-! ## 1. Values, conditions and conversions -/

def Meaning.value? : Meaning → Option Value
  | .value v => some v
  | .flag b => some (.of (.int (if b then 1 else 0)) .boolean)
  | .condition c => some (.of (.condition c) .boolean)
  | .ofClass _ | .ofPackage _ => none

def Meaning.cond? : Meaning → Option Cond
  | .value v => some (.value v.expr)
  | .flag b => some (.const b)
  | .condition c => some c
  | .ofClass _ | .ofPackage _ => none

inductive Recast : Expr → Expr → Prop
  | same (e : Expr) : Recast e e
  | widen (source target : FieldType) (e : Expr) : Recast e (.widen source target e)
  | checkcast (name : String) (e : Expr) : Recast e (.checkcast name e)

/-- The condition compares the two values; `null` leaves no operand where a reference is compared to
it. -/
inductive Compares (l r : Value) : Cond → Prop
  | ints (c : Code.Comparison) : Compares l r (.ints c l.expr r.expr)
  | longs (c : Code.Comparison) {x y : Expr} (hx : Recast l.expr x) (hy : Recast r.expr y) :
      Compares l r (.longs c x y)
  | refs (equal : Bool) : Compares l r (.refs equal l.expr r.expr)
  | toNull (equal : Bool) (hr : r.type = .null) : Compares l r (.nullity equal l.expr)
  | ofNull (equal : Bool) (hl : l.type = .null) : Compares l r (.nullity equal r.expr)
  | nulls (equal : Bool) (hl : l.type = .null) (hr : r.type = .null) : Compares l r (.const equal)

def Scope.this (s : Scope) : Value := .of (.local 0 (.object s.self.name)) (.object s.self.name)

theorem under_toValue_value? (n : Meaning) (e : Source.Expr) :
    Under m (n.toValue e) fun v => n.value? = some v := by
  cases n with
  | ofClass | ofPackage => exact .ofThrow
  | value | flag | condition => exact .ofPure rfl

theorem under_toCond_cond? (n : Meaning) (e : Source.Expr) :
    Under m (n.toCond e) fun c => n.cond? = some c := by
  unfold Meaning.toCond
  split
  next => exact .ofPure rfl
  next => exact .ofPure rfl
  next hflag hcondition =>
    refine (under_toValue_value? _ e).bind fun v hv => ?_
    split
    next =>
      refine .ofPure ?_
      cases n with
      | value w => rw [Option.some.inj hv]; rfl
      | flag b => exact absurd rfl (hflag b)
      | condition c => exact absurd rfl (hcondition c)
      | ofClass | ofPackage => cases hv
    next => exact .ofThrow

theorem recast_widen (e : Expr) (source target : FieldType) : Recast e (widen e source target) := by
  unfold widen
  split
  next => exact .same e
  next => exact .widen source target e

def Value.NullOnly (v : Value) : Prop := v.type = .null → v.expr = .null

theorem recast_passArgument (arg : Value) (param : FieldType) :
    Recast arg.expr (passArgument arg param) := by
  unfold passArgument
  split
  next t _ =>
    split
    next => exact .same _
    next => exact recast_widen _ _ _
  next => exact .same _

theorem under_assign_recast (hm : m.Keyed) {v : Value} (hv : v.NullOnly) (target : FieldType)
    (line : Nat) : Under m (assign v target line) (Recast v.expr) := by
  unfold assign
  split
  next => exact .ofThrow
  next hnull =>
    split
    next =>
      rw [hv hnull]
      exact .ofPure (.same _)
    next => exact .ofThrow
  next source _ =>
    split
    next => exact .ofPure (.same _)
    next =>
      refine (steady_isAssignable hm source target).bind fun fits _ => ?_
      split
      next => exact .ofPure (recast_widen _ _ _)
      next => exact .refusing fun _ => .ofThrow

theorem under_castTo_recast (hm : m.Keyed) {v : Value} (hv : v.NullOnly) (target : FieldType)
    (line : Nat) :
    Under m (castTo v target line) fun w => ∃ e, Recast v.expr e ∧ w = .of e target := by
  unfold castTo
  split
  next => exact .ofThrow
  next hnull =>
    split
    next => exact .ofPure ⟨.null, hv hnull ▸ .same _, rfl⟩
    next => exact .ofThrow
  next source _ =>
    have htest := steady_isAssignable hm source target
    split
    next =>
      refine htest.bind fun fits _ => ?_
      split
      next => exact .ofPure ⟨_, .same _, rfl⟩
      next => exact .ofPure ⟨_, .checkcast _ _, rfl⟩
    next =>
      refine htest.bind fun fits _ => ?_
      split
      next => exact .ofPure ⟨_, recast_widen _ _ _, rfl⟩
      next => exact .refusing fun _ => .ofThrow
    next => exact .ofThrow
    next => exact .ofThrow

theorem isNull_of_isReference {t : ValueType} (h : t.isReference = true)
    (hof : ∀ u, t = .of u → False) : t = .null := by
  cases t with
  | void => cases h
  | null => rfl
  | of t => exact absurd rfl (hof t)

theorem under_compareReferences_compares (hm : m.Keyed) (equal : Bool) {l r : Value}
    (hl : l.type.isReference = true) (hr : r.type.isReference = true) (line : Nat) :
    Under m (compareReferences equal l r line) (Compares l r) := by
  unfold compareReferences
  split
  next a b _ _ =>
    refine (steady_areComparable hm a b).bind fun _ _ => ?_
    split
    next => exact .ofPure (.refs equal)
    next => exact .ofThrow
  next hother => exact .ofPure (.toNull equal (isNull_of_isReference hr hother))
  next hother => exact .ofPure (.ofNull equal (isNull_of_isReference hl hother))
  next hleft hright _ =>
    exact .ofPure (.nulls equal (isNull_of_isReference hl hleft) (isNull_of_isReference hr hright))

theorem under_compareValues_compares (hm : m.Keyed) (op : Source.BinaryOp) (c : Code.Comparison)
    (l r : Value) (line : Nat) : Under m (compareValues op c l r line) (Compares l r) := by
  unfold compareValues
  dsimp only
  split
  next =>
    split
    next => exact .ofPure (.ints c)
    next => exact .ofThrow
  next =>
    split
    next =>
      split
      next => exact .ofPure (.longs c (recast_widen _ _ _) (recast_widen _ _ _))
      next => exact .ofPure (.ints c)
      next => exact .ofThrow
    next =>
      split
      next href =>
        rw [Bool.and_eq_true] at href
        split
        next => exact under_compareReferences_compares hm _ href.1 href.2 line
        next => exact .ofThrow
      next => split <;> exact .ofThrow

/-! ## 2. Calls -/

def Meaning.callTarget? : Meaning → Option CallTarget
  | .ofClass c => some (.ofClass c)
  | n => n.value?.map .value

/-- The call of a method with these arguments.  A static method does without a receiver, unless a
value is written there; an instance method of the enclosing class has the receiver. -/
inductive CallTarget.Makes (s : Scope) (callee : Callee) (passed : List Expr) :
    CallTarget → Value → Prop
  | static {target : CallTarget} (htarget : ∀ v, target ≠ .value v) :
      Makes s callee passed target ⟨.call callee passed, resultType callee.type⟩
  | onValue (v : Value) :
      Makes s callee passed (.value v) ⟨.callOn v.expr callee passed, resultType callee.type⟩
  | onSelf (hinstance : s.isStatic = false) :
      Makes s callee passed .self ⟨.callOn s.this.expr callee passed, resultType callee.type⟩

theorem under_receiver_this (line : Nat) :
    Under m (s.receiver line) fun p => s.isStatic = false ∧ Value.of p.1 p.2 = s.this := by
  unfold Scope.receiver
  exact .refusing fun hstatic => .ofPure ⟨by simpa using hstatic, rfl⟩

theorem under_callTarget_callTarget? (n : Meaning) (e : Source.Expr) (line : Nat) :
    Under m (callTarget n e line) fun t => n.callTarget? = some t := by
  cases n with
  | ofClass | value | flag | condition => exact .ofPure rfl
  | ofPackage => exact .ofThrow

theorem recast_passed {args : List Value} {params : List FieldType}
    (hlength : params.length = args.length) : List.Forall₂ Recast (args.map Value.expr)
      ((args.zip params).map fun (arg, param) => passArgument arg param) := by
  induction args generalizing params with
  | nil => exact .nil
  | cons arg args ih =>
    cases params with
    | nil => cases hlength
    | cons param params => exact .cons (recast_passArgument arg param) (ih (Nat.succ.inj hlength))

theorem under_bindCall_makes (hm : m.Keyed) (target : CallTarget) (name : String)
    (args : List Value) (line : Nat) :
    Under m (s.bindCall target name args line) fun v => ∃ callee passed,
      List.Forall₂ Recast (args.map Value.expr) passed ∧ target.Makes s callee passed v := by
  unfold Scope.bindCall
  extract_lets call
  have hcall (className : String) : Under m (call className) fun v => ∃ callee passed,
      List.Forall₂ Recast (args.map Value.expr) passed ∧ target.Makes s callee passed v := by
    refine (under_look (under_findMethods hm)).bind fun methods _ => .refusing fun _ => ?_
    refine (under_selectOverload hm methods args name line).bind fun chosen hchosen => ?_
    refine (under_look yields_resolve.under).bind fun owner _ => ?_
    have hpassed := recast_passed hchosen.length_eq
    -- which instruction is used depends on the owner, the descriptor only on the chosen method
    have htype : (instanceCallee s.self.name owner chosen name).type = chosen.type := by
      unfold instanceCallee
      dsimp only
      repeat' split
      all_goals rfl
    split
    next =>
      split
      next v => exact .ofPure ⟨_, _, hpassed, .onValue v⟩
      next hvalue => exact .ofPure ⟨_, _, hpassed, .static hvalue⟩
    next =>
      unfold Scope.callReceiver
      cases target with
      | value v =>
        refine .ofPure ⟨instanceCallee s.self.name owner chosen name, _, hpassed, ?_⟩
        rw [← htype]
        exact .onValue v
      | ofClass c =>
        -- a class is no receiver for an instance method
        have hfail : Under m (wrong line (.nonStaticMethod name chosen.type) : Binding Expr)
          fun _ => False := .ofThrow
        exact hfail.bind fun _ => False.elim
      | self =>
        have hreceiver : Under m (do
            if s.isStatic then wrong line (.nonStaticMethod name chosen.type)
            return (← s.receiver line).1) fun e => s.isStatic = false ∧ e = s.this.expr :=
          .refusing fun _ => (under_receiver_this line).bind
            fun p hp => .ofPure ⟨hp.1, congrArg Value.expr hp.2⟩
        refine hreceiver.bind fun e ⟨hinstance, he⟩ => ?_
        refine .ofPure ⟨instanceCallee s.self.name owner chosen name, _, hpassed, ?_⟩
        rw [he, ← htype]
        exact .onSelf hinstance
  split
  next => exact hcall _
  next v =>
    have hclass : Steady m (methodClass v line) := by
      unfold methodClass
      split
      next => exact .ofPure trivial
      next => exact .ofPure trivial
      next => exact .ofThrow
    exact hclass.bind fun className _ => hcall className
  next c => exact hcall c

/-! ## 3. Expressions -/

mutual

inductive Means (m : Dictionary) (s : Scope) : Source.Expr → Meaning → Prop
  | literal (v : Source.Literal) (line : Nat) : Means m s (.literal v line) (literalMeaning v)
  | this (line : Nat) (hinstance : s.isStatic = false) : Means m s (.this line) (.value s.this)
  | ofLocal {n : String} (line : Nat) {v : Local} (hv : s.find? n = some v) :
      Means m s (.name n line) (.value (.of (.local v.slot v.type) v.type))
  | ownStatic {n : String} (line : Nat) (hfree : s.find? n = none) (owner : String)
      (t : FieldType) : Means m s (.name n line) (.value (.of (.getStatic owner n t) t))
  | ownField {n : String} (line : Nat) (hfree : s.find? n = none) (hinstance : s.isStatic = false)
      (owner : String) (t : FieldType) :
      Means m s (.name n line) (.value (.of (.getField s.this.expr owner n t) t))
  | name {n : String} (line : Nat) {k : Meaning} (hfree : s.find? n = none) (hk : k.value? = none) :
      Means m s (.name n line) k
  | staticField {target : Source.Expr} {k : Meaning} (h : Means m s target k) (hk : k.value? = none)
      (n : String) (line : Nat) (owner : String) (t : FieldType) :
      Means m s (.field target n line) (.value (.of (.getStatic owner n t) t))
  | qualified {target : Source.Expr} {k k' : Meaning} (h : Means m s target k)
      (hk : k.value? = none) (n : String)
      (line : Nat) (hk' : k'.value? = none) : Means m s (.field target n line) k'
  | field {target : Source.Expr} {k : Meaning} {v : Value} (h : Means m s target k)
      (hv : k.value? = some v) (n : String) (line : Nat) (owner : String) (t : FieldType) :
      Means m s (.field target n line) (.value (.of (.getField v.expr owner n t) t))
  | call {args : List Source.Expr} {vs : List Value} {passed : List Expr} {callee : Callee}
      {v : Value} (hargs : AllMean m s args vs)
      (hpassed : List.Forall₂ Recast (vs.map Value.expr) passed)
      (hv : CallTarget.self.Makes s callee passed v) (n : String) (line : Nat) :
      Means m s (.call n args line) (.value v)
  | callOn {target : Source.Expr} {args : List Source.Expr} {k : Meaning} {on : CallTarget}
      {vs : List Value} {passed : List Expr} {callee : Callee} {v : Value}
      (hargs : AllMean m s args vs) (h : Means m s target k)
      (hon : k.callTarget? = some on) (hpassed : List.Forall₂ Recast (vs.map Value.expr) passed)
      (hv : on.Makes s callee passed v) (n : String) (line : Nat) :
      Means m s (.callOn target n args line) (.value v)
  | not {e : Source.Expr} {k : Meaning} {c : Cond} (h : Means m s e k) (hc : k.cond? = some c)
      (line : Nat) : Means m s (.not e line) (.condition (.not c))
  | and {l r : Source.Expr} {a b : Meaning} {c d : Cond} (hl : Means m s l a)
      (hc : a.cond? = some c) (hr : Means m s r b) (hd : b.cond? = some d) (line : Nat) :
      Means m s (.binary .and l r line) (.condition (.and c d))
  | or {l r : Source.Expr} {a b : Meaning} {c d : Cond} (hl : Means m s l a) (hc : a.cond? = some c)
      (hr : Means m s r b) (hd : b.cond? = some d) (line : Nat) :
      Means m s (.binary .or l r line) (.condition (.or c d))
  | compare {op : Source.BinaryOp} {l r : Source.Expr} {a b : Meaning} {v w : Value} {c : Cond}
      (hl : Means m s l a) (hv : a.value? = some v) (hr : Means m s r b) (hw : b.value? = some w)
      (hc : Compares v w c) (line : Nat) : Means m s (.binary op l r line) (.condition c)
  | sum {l r : Source.Expr} {a b : Meaning} {v w : Value} {x y : Expr} (hl : Means m s l a)
      (hv : a.value? = some v) (hr : Means m s r b) (hw : b.value? = some w) (hx : Recast v.expr x)
      (hy : Recast w.expr y) (t : FieldType)
      (line : Nat) : Means m s (.binary .add l r line) (.value (.of (.add t x y) t))
  | concat {l r : Source.Expr} {a b : Meaning} {v w : Value} {builder : Summary}
      (hl : Means m s l a) (hv : a.value? = some v) (hr : Means m s r b) (hw : b.value? = some w)
      (hbuilder : m textBuilder = .ok (some builder)) (line : Nat) :
      Means m s (.binary .add l r line) (.value (.of (.concat (partsOf v ++ partsOf w)) .string))
  | cast {e : Source.Expr} {k : Meaning} {v : Value} {x : Expr} {type : Source.TypeName}
      {target : FieldType} (htarget : Yields m (s.resolveType type) (.ok target))
      (h : Means m s e k) (hv : k.value? = some v)
      (hx : Recast v.expr x) (line : Nat) : Means m s (.cast type e line) (.value (.of x target))

inductive AllMean (m : Dictionary) (s : Scope) : List Source.Expr → List Value → Prop
  | nil : AllMean m s [] []
  | cons {e : Source.Expr} {es : List Source.Expr} {k : Meaning} {v : Value} {vs : List Value}
      (h : Means m s e k) (hv : k.value? = some v) (hes : AllMean m s es vs) :
      AllMean m s (e :: es) (v :: vs)

end

theorem resultType_ne_null (t : MethodDescriptor) : resultType t ≠ .null := by
  unfold resultType
  split <;> exact nofun

theorem CallTarget.Makes.nullOnly {callee : Callee} {passed : List Expr} {target : CallTarget}
    {v : Value} (h : target.Makes s callee passed v) : v.NullOnly := by
  cases h <;> exact fun hnull => absurd hnull (resultType_ne_null _)

theorem Means.nullOnly {e : Source.Expr} {k : Meaning} {v : Value} (h : Means m s e k)
    (hv : k.value? = some v) : v.NullOnly := by
  cases h with
  | literal l line =>
    intro hnull
    cases l <;> cases hv <;> first | rfl | cases hnull
  | name _ _ hk | qualified _ _ _ _ hk =>
    rw [hk] at hv
    cases hv
  | call _ _ hmakes | callOn _ _ _ _ hmakes =>
    cases hv
    exact hmakes.nullOnly
  | _ =>
    intro hnull
    cases hv
    cases hnull

theorem under_nameMeaning_means (hm : m.Keyed) (name : String) (line : Nat) :
    Under m (s.nameMeaning name line) (Means m s (.name name line)) := by
  unfold Scope.nameMeaning
  split
  next v hv => exact .ofPure (.ofLocal line hv)
  next hfree =>
    have hfree : s.find? name = none := Option.eq_none_iff_forall_ne_some.mpr hfree
    refine (under_look (under_findField? hm)).bind fun found _ => ?_
    split
    next d =>
      refine under_ofDescriptor.bind fun type _ => ?_
      split
      next => exact .ofPure (.ownStatic line hfree _ type)
      next =>
        refine .refusing fun _ => (under_receiver_this line).bind fun p hp => .ofPure ?_
        rw [show p.1 = s.this.expr from congrArg Value.expr hp.2]
        exact .ownField line hfree hp.1 _ type
    next =>
      refine (steady_lookupClass? name).bind fun c _ => ?_
      split <;> exact .ofPure (.name line hfree rfl)

theorem under_memberMeaning_means (hm : m.Keyed) {target : Source.Expr} {k : Meaning}
    (h : Means m s target k) (name : String) (line : Nat) :
    Under m (memberMeaning k target name line) (Means m s (.field target name line)) := by
  have hfield (v : Value) : Under m (instanceField v name line) fun w => ∃ owner t,
      w = .of (.getField v.expr owner name t) t := by
    unfold instanceField
    split
    next owner _ =>
      refine (under_look (under_findField? hm)).bind fun found _ => ?_
      split
      -- no such field: it may still be a nested class
      next =>
        exact .refusing fun _ => under_ofDescriptor.bind fun type _ => .ofPure ⟨owner, type, rfl⟩
      next => exact .ofThrow
    next => exact .refusing fun _ => .ofThrow
    next => exact .ofThrow
  -- values, flags and conditions have no members but fields of their value
  have hvalue : Under m (do return .value (← instanceField (← k.toValue target) name line))
      (Means m s (.field target name line)) := by
    refine (under_toValue_value? k target).bind fun v hv => (hfield v).bind fun w hw => .ofPure ?_
    obtain ⟨owner, t, rfl⟩ := hw
    exact .field h hv name line owner t
  cases k with
  | ofClass owner =>
    show Under m (staticMember owner name line) _
    unfold staticMember
    refine (under_look (under_findField? hm)).bind fun found _ => ?_
    split
    next =>
      exact .refusing fun _ =>
        under_ofDescriptor.bind fun type _ => .ofPure (.staticField h rfl name line _ type)
    next =>
      refine (steady_exists? _).bind fun known _ => ?_
      split
      next => exact .ofPure (.qualified h rfl name line rfl)
      next => exact .ofThrow
  | ofPackage package =>
    refine (steady_exists? _).bind fun known _ => .ofPure ?_
    split <;> exact .qualified h rfl name line rfl
  | value | flag | condition => exact hvalue

/-- A sum of two values. -/
theorem under_addValues_means {l r : Source.Expr} {a b : Meaning} {v w : Value} (hl : Means m s l a)
    (hv : a.value? = some v) (hr : Means m s r b) (hw : b.value? = some w) (line : Nat) :
    Under m (addValues v w line) fun u => Means m s (.binary .add l r line) (.value u) := by
  unfold addValues
  refine .refusing fun _ => ?_
  split
  next =>
    -- one side is a text, so the sum is put together by a builder, which has to exist
    refine (under_look yields_resolve.under).bind fun builder hbuilder => .ofPure ?_
    exact .concat hl hv hr hw (Dictionary.required_eq_ok_iff.mp hbuilder.1) line
  next =>
    split
    next =>
      refine .refusing fun _ => ?_
      split
      next t _ => exact .ofPure (.sum hl hv hr hw (recast_widen _ _ _) (recast_widen _ _ _) t line)
      next => exact .ofThrow
    next => exact .ofThrow

mutual

/-- The binder follows the rules. -/
theorem under_meaning_means (hm : m.Keyed) : (e : Source.Expr) → Under m (meaning s e) (Means m s e)
  | .literal v line => by
    unfold meaning
    exact .ofPure (.literal v line)
  | .this line => by
    unfold meaning
    refine (under_receiver_this line).bind fun p hp => .ofPure ?_
    rw [hp.2]
    exact .this line hp.1
  | .name n line => by
    unfold meaning
    exact under_nameMeaning_means hm n line
  | .field target n line => by
    unfold meaning
    exact (under_meaning_means hm target).bind fun k hk => under_memberMeaning_means hm hk n line
  | .call n args line => by
    unfold meaning
    refine .refusing fun _ => (under_bindArgs_means hm args).bind fun vs hvs => ?_
    refine (under_bindCall_makes hm .self n vs line).bind fun v ⟨callee, passed, hpassed, hv⟩ =>
      .ofPure ?_
    exact .call hvs hpassed hv n line
  | .callOn target n args line => by
    unfold meaning
    refine (under_bindArgs_means hm args).bind fun vs hvs =>
      (under_meaning_means hm target).bind fun k hk => ?_
    refine (under_callTarget_callTarget? k target line).bind fun on hon => ?_
    refine (under_bindCall_makes hm on n vs line).bind fun v ⟨callee, passed, hpassed, hv⟩ =>
      .ofPure ?_
    exact .callOn hvs hk hon hpassed hv n line
  | .not e line => by
    unfold meaning
    refine (under_meaning_means hm e).bind fun k hk =>
      (under_toCond_cond? k e).bind fun c hc => .ofPure ?_
    exact .not hk hc line
  | .binary op l r line => by
    have hl := under_meaning_means hm l
    have hr := under_meaning_means hm r
    unfold meaning
    split
    next =>
      refine hl.bind fun a ha => (under_toCond_cond? a l).bind fun c hc => ?_
      refine hr.bind fun b hb => (under_toCond_cond? b r).bind fun d hd => .ofPure ?_
      exact .and ha hc hb hd line
    next =>
      refine hl.bind fun a ha => (under_toCond_cond? a l).bind fun c hc => ?_
      refine hr.bind fun b hb => (under_toCond_cond? b r).bind fun d hd => .ofPure ?_
      exact .or ha hc hb hd line
    next hand hor =>
      refine hl.bind fun a ha => (under_toValue_value? a l).bind fun v hv => ?_
      refine hr.bind fun b hb => (under_toValue_value? b r).bind fun w hw => ?_
      split
      next c _ =>
        refine (under_compareValues_compares hm op c v w line).bind fun cond hcond => .ofPure ?_
        exact .compare ha hv hb hw hcond line
      next hnone =>
        -- what is neither a connective nor a comparison is a sum
        obtain rfl : op = .add := by
          cases op <;> first | rfl | exact absurd rfl hand | exact absurd rfl hor | cases hnone
        exact (under_addValues_means ha hv hb hw line).bind fun u hu => .ofPure hu
  | .cast type e line => by
    unfold meaning
    refine .refusing fun _ => (determined_resolveType type).under.bind fun target htarget => ?_
    refine (under_meaning_means hm e).bind fun k hk =>
      (under_toValue_value? k e).bind fun v hv => ?_
    refine (under_castTo_recast hm (hk.nullOnly hv) target line).bind
      fun w ⟨x, hx, hw⟩ => .ofPure ?_
    rw [hw]
    exact .cast htarget hk hv hx line

theorem under_bindArgs_means (hm : m.Keyed) :
    (es : List Source.Expr) → Under m (bindArgs s es) (AllMean m s es)
  | [] => by
    unfold bindArgs
    exact .ofPure .nil
  | e :: es => by
    unfold bindArgs
    refine (under_meaning_means hm e).bind fun k hk =>
      (under_toValue_value? k e).bind fun v hv => ?_
    exact (under_bindArgs_means hm es).bind fun vs hvs => .ofPure (.cons hk hv hvs)

end

def IsValue (m : Dictionary) (s : Scope) (e : Source.Expr) (v : Value) : Prop :=
  ∃ k, Means m s e k ∧ k.value? = some v

def IsCond (m : Dictionary) (s : Scope) (e : Source.Expr) (c : Cond) : Prop :=
  ∃ k, Means m s e k ∧ k.cond? = some c

theorem IsValue.nullOnly {e : Source.Expr} {v : Value} (h : IsValue m s e v) : v.NullOnly := by
  obtain ⟨k, hk, hv⟩ := h
  exact hk.nullOnly hv

theorem under_bindValue_isValue (hm : m.Keyed) (e : Source.Expr) :
    Under m (bindValue s e) (IsValue m s e) :=
  (under_meaning_means hm e).bind fun k hk =>
    (under_toValue_value? k e).mono fun _ hv => ⟨k, hk, hv⟩

theorem under_bindCond_isCond (hm : m.Keyed) (e : Source.Expr) :
    Under m (bindCond s e) (IsCond m s e) :=
  (under_meaning_means hm e).bind fun k hk => (under_toCond_cond? k e).mono fun _ hc => ⟨k, hk, hc⟩

/-! ## 4. Statements -/

def Scope.next (s : Scope) (name : String) (t : FieldType) : Local :=
  ⟨name, UInt16.ofNat s.nextSlot, t⟩

def Scope.declaring (s : Scope) (name : String) (t : FieldType) : Scope :=
  { s with locals := s.next name t :: s.locals, nextSlot := s.nextSlot + t.slots }

structure Scope.Admits (s : Scope) (name : String) (t : FieldType) : Prop where
  free : s.find? name = none
  room : s.nextSlot + t.slots ≤ 65535

theorem under_declare_admits (name : String) (t : FieldType) (line : Nat) :
    Under m (s.declare name t line) fun p => s.Admits name t ∧
    p = (s.next name t, s.declaring name t) := by
  unfold Scope.declare
  refine .refusing fun hfree => ?_
  dsimp only
  refine .refusing fun hroom => .ofPure ⟨⟨by simpa using hfree, Nat.le_of_not_lt hroom⟩, rfl⟩

def isDeclaration : Source.Stmt → Bool
  | .declare .. => true
  | _ => false

mutual

inductive Binds (m : Dictionary) : Scope → Source.Stmt → Bound → Prop
  | store {s : Scope} {type : Source.TypeName} {name : String} {init : Source.Expr} {t : FieldType}
      {v : Value} {x : Expr} (hread : fieldReadOf? init = none)
      (ht : Yields m (s.resolveType type) (.ok t))
      (hv : IsValue m s init v) (hx : Recast v.expr x) (hname : s.Admits name t) (line : Nat) :
      Binds m s (.declare type name init line)
      ⟨.store (s.next name t).slot t x, true, s.declaring name t⟩
  | readField {s : Scope} {type : Source.TypeName} {name : String} {init object : Source.Expr}
      {t : FieldType} {v : Value} {cast : Option Source.TypeName} {fieldName : String}
      {fieldLine callLine : Nat}
      (hread : fieldReadOf? init =
        some (cast, [object, .literal (.str fieldName) fieldLine], callLine))
      (ht : Yields m (s.resolveType type) (.ok t)) (hv : IsValue m s object v)
      (hname : s.Admits name t) (check : Option String) (line : Nat) :
      Binds m s (.declare type name init line)
        ⟨.readField (s.next name t).slot t v.expr fieldName check, true, s.declaring name t⟩
  | ifThen {s : Scope} {e : Source.Expr} {c : Cond} {yes : Source.Stmt} {a : Bound}
      (hc : IsCond m s e c) (hdeclaration : isDeclaration yes = false) (hyes : Binds m s yes a)
      (line : Nat) : Binds m s (.ifThen e yes line) ⟨.ifThen c (branchOf a.stmt), true, s⟩
  | ifElse {s : Scope} {e : Source.Expr} {c : Cond} {yes no : Source.Stmt} {a b : Bound}
      (hc : IsCond m s e c) (hdeclaration : isDeclaration yes = false) (hyes : Binds m s yes a)
      (hdeclaration' : isDeclaration no = false)
      (hno : Binds m s no b) (line : Nat) : Binds m s (.ifElse e yes no line)
        ⟨.ifElse c (branchOf a.stmt) (branchOf b.stmt), a.completes || b.completes, s⟩
  | ret {s : Scope} (line : Nat) : Binds m s (.ret line) ⟨.ret, false, s⟩
  | retValue {s : Scope} {e : Source.Expr} {v : Value} {x : Expr} (hv : IsValue m s e v)
      (hx : Recast v.expr x) (t : FieldType) (line : Nat) :
      Binds m s (.retValue e line) ⟨.retValue x t, false, s⟩
  | call {s : Scope} {e : Source.Expr} {v : Value} (hv : IsValue m s e v) (line : Nat) :
      Binds m s (.call e line) ⟨.discard v.expr (v.type != .void), true, s⟩
  | block {s : Scope} {stmts : List Source.Stmt} {bs : List Stmt} {completes : Bool}
      (h : BindsAll m s stmts bs completes) (endLine : Nat) :
      Binds m s (.block stmts endLine) ⟨.block bs, completes, s⟩

/-- What statements are bound to one after the other.  Only after the last one may control not go
on. -/
inductive BindsAll (m : Dictionary) : Scope → List Source.Stmt → List Stmt → Bool → Prop
  | nil (s : Scope) : BindsAll m s [] [] true
  | cons {s : Scope} {stmt : Source.Stmt} {b : Bound} {rest : List Source.Stmt} {bs : List Stmt}
      {completes : Bool} (h : Binds m s stmt b) (hcompletes : b.completes = true)
      (hrest : BindsAll m b.after rest bs completes) :
      BindsAll m s (stmt :: rest) (b.stmt :: bs) completes
  | last {s : Scope} {stmt : Source.Stmt} {b : Bound} (h : Binds m s stmt b)
      (hcompletes : b.completes = false) : BindsAll m s [stmt] [b.stmt] false

end

theorem under_refuseDeclaration_isDeclaration (stmt : Source.Stmt) :
    Under m (refuseDeclaration stmt) fun _ => isDeclaration stmt = false := by
  cases stmt with
  | declare => exact .ofThrow
  | _ => exact .ofPure rfl

theorem under_bindDeclaration_binds (hm : m.Keyed) (type : Source.TypeName) (name : String)
    (init : Source.Expr) (line : Nat) :
    Under m (s.bindDeclaration type name init line) (Binds m s (.declare type name init line)) := by
  unfold Scope.bindDeclaration
  refine (determined_resolveType type).under.bind fun t ht => ?_
  split
  next cast args callLine hread =>
    have hbound : Under m (s.bindFieldRead t name cast args callLine line) fun p =>
        Binds m s (.declare type name init line) ⟨p.1, true, p.2⟩ := by
      unfold Scope.bindFieldRead
      split
      next object field =>
        refine (under_bindValue_isValue hm object).bind fun v hv => .refusing fun _ => ?_
        split
        next fieldName fieldLine =>
          refine .refusing fun _ => (steady_castType cast).bind fun produced _ => ?_
          refine (steady_isAssignable hm produced t).bind fun fits _ => .refusing fun _ => ?_
          refine (steady_requireReflection hm callLine).bind fun _ _ => ?_
          refine (under_declare_admits name t line).bind fun p ⟨hname, hp⟩ => ?_
          rw [hp]
          exact .ofPure (.readField hread ht hv hname _ line)
        next => exact .ofThrow
      next => exact .ofThrow
    exact hbound.bind fun p hp => .ofPure hp
  next hread =>
    refine (under_bindValue_isValue hm init).bind fun v hv => ?_
    refine (under_assign_recast hm hv.nullOnly t init.line).bind fun x hx => ?_
    refine (under_declare_admits name t line).bind fun p ⟨hname, hp⟩ => ?_
    rw [hp]
    exact .ofPure (.store hread ht hv hx hname line)

mutual

theorem under_bindStmt_binds (hm : m.Keyed) {s : Scope} :
    (stmt : Source.Stmt) → Under m (bindStmt s stmt) (Binds m s stmt)
  | .declare type name init line => by
    unfold bindStmt
    exact under_bindDeclaration_binds hm type name init line
  | .ifThen e yes line => by
    unfold bindStmt
    refine (under_bindCond_isCond hm e).bind fun c hc => ?_
    refine (under_refuseDeclaration_isDeclaration yes).bind fun _ hyes => ?_
    exact (under_bindStmt_binds hm yes).bind fun a ha => .ofPure (.ifThen hc hyes ha line)
  | .ifElse e yes no line => by
    unfold bindStmt
    refine (under_bindCond_isCond hm e).bind fun c hc => ?_
    refine (under_refuseDeclaration_isDeclaration yes).bind fun _ hyes => ?_
    refine (under_bindStmt_binds hm yes).bind fun a ha => ?_
    refine (under_refuseDeclaration_isDeclaration no).bind fun _ hno => ?_
    refine (under_bindStmt_binds hm no).bind fun b hb => ?_
    exact .ofPure (.ifElse hc hyes ha hno hb line)
  | .ret line => by
    unfold bindStmt
    exact .refusing fun _ => .ofPure (.ret line)
  | .retValue e line => by
    unfold bindStmt
    split
    next => exact .ofThrow
    next t _ =>
      refine (under_bindValue_isValue hm e).bind fun v hv => ?_
      exact (under_assign_recast hm hv.nullOnly t e.line).bind
        fun x hx => .ofPure (.retValue hv hx t line)
  | .call e line => by
    unfold bindStmt
    exact (under_bindValue_isValue hm e).bind fun v hv => .ofPure (.call hv line)
  | .block stmts endLine => by
    unfold bindStmt
    exact (under_bindStmts_binds hm stmts).bind fun p hp => .ofPure (.block hp endLine)

theorem under_bindStmts_binds (hm : m.Keyed) {s : Scope} :
    (stmts : List Source.Stmt) → Under m (bindStmts s stmts) fun p => BindsAll m s stmts p.1 p.2
  | [] => by
    unfold bindStmts
    exact .ofPure (.nil s)
  | stmt :: rest => by
    unfold bindStmts
    refine (under_bindStmt_binds hm stmt).bind fun b hb => ?_
    split
    next hcompletes =>
      exact (under_bindStmts_binds hm rest).bind fun p hp => .ofPure (.cons hb hcompletes hp)
    next hends =>
      split
      next => exact .ofPure (.last hb (by simpa using hends))
      next => exact .ofThrow

end

/-! ## 5. Methods -/

inductive Opens (m : Dictionary) : Scope → List Source.Param → List FieldType → Scope → Prop
  | nil (s : Scope) : Opens m s [] [] s
  | cons {s s' : Scope} {p : Source.Param} {params : List Source.Param} {t : FieldType}
      {types : List FieldType} (ht : Yields m (s.resolveType p.type) (.ok t))
      (hname : s.Admits p.name t) (h : Opens m (s.declaring p.name t) params types s') :
      Opens m s (p :: params) (t :: types) s'

theorem under_declareParams_opens (params : List Source.Param) {s : Scope} :
    Under m (declareParams s params) fun p => Opens m s params p.1 p.2 := by
  induction params generalizing s with
  | nil => exact .ofPure (.nil s)
  | cons param params ih =>
    unfold declareParams
    refine (determined_resolveType param.type).under.bind fun t ht => ?_
    refine (under_declare_admits param.name t param.line).bind fun p hp => ?_
    rw [hp.2]
    exact ih.bind fun q hq => .ofPure (.cons ht hp.1 hq)

def startScope (imports : List String) (self : Summary) (isStatic : Bool)
    (returnType : Option FieldType) : Scope :=
  { imports, self, isStatic, returnType, locals := [], nextSlot := if isStatic then 0 else 1 }

structure BindsMethod (m : Dictionary) (imports : List String) (enclosing : Summary)
    (d : Source.MethodDecl) (method : Method) (scope : Scope) : Prop where
  params : Opens m (startScope imports enclosing method.flags.isStatic method.type.ret) d.params
    method.type.params scope
  body : BindsAll m scope d.body method.body method.fallsThrough

theorem under_bindMethod_binds (hm : m.Keyed) (imports : List String) (self : Summary)
    (d : Source.MethodDecl) :
    Under m (bindMethod imports self d) fun method =>
    ∃ scope, BindsMethod m imports self d method scope := by
  unfold bindMethod
  refine (steady_addModifiers d.line ⟨0⟩ d.modifiers).bind fun flags _ => .refusing fun _ => ?_
  extract_lets isStatic scope bindBody
  have hbody (ret : Option FieldType) : Under m (bindBody ret) fun method =>
      ∃ scope, BindsMethod m imports self d method scope := by
    refine (under_declareParams_opens d.params).bind fun p hp => ?_
    refine (under_bindStmts_binds hm d.body).bind fun body hbody => .refusing fun _ => .ofPure ?_
    exact ⟨p.2, hp, hbody⟩
  split
  next => exact hbody none
  next =>
    have hreturn : Steady m (some <$> scope.resolveType d.returnType) := by
      rw [map_eq_pure_bind]
      exact (steady_resolveType d.returnType).bind fun _ _ => .ofPure trivial
    exact hreturn.bind fun ret _ => hbody ret

end MethodGraft.Typed
