import MethodGraft.Proofs.Typed.Values

/-!
# Proofs.Typed.Calls — members and calls fit

A call that is bound passes to each parameter an argument of the parameter's kind, and calls on a
reference unless the method is static.
-/

namespace MethodGraft.Typed

open ClassFile Code Classpath

variable {layout : Layout} {s : Scope}

/-! ## 1. Overloads -/

/-- The method takes the arguments. -/
structure Candidate.Suits (args : List Value) (c : Candidate) : Prop where
  readable : c.type.Readable
  length_eq : c.type.params.length = args.length
  passes : ∀ p ∈ args.zip c.type.params, Passes p.1.type p.2

theorem methodType_readable {text : String} {t : MethodDescriptor}
    (h : MethodDescriptor.ofDescriptor text = .ok t) : t.Readable := by
  unfold MethodDescriptor.ofDescriptor at h
  split at h
  next u hu =>
    cases h
    exact MethodDescriptor.readable_of_ofDescriptor? hu
  next => cases h

theorem ensures_applicable (args : List Value) (methods : List Declared) :
    Ensures (applicable args methods) fun cs => ∀ c ∈ cs, c.Suits args := by
  induction methods with
  | nil => exact .ofPure (by simp)
  | cons m methods ih =>
    unfold applicable
    refine ensures_ofDescriptor.bind fun type htype => ?_
    extract_lets keep
    have hkeep : ∀ fits : Bool, (fits = true → (⟨m, type⟩ : Candidate).Suits args) →
        Ensures (keep fits) fun cs => ∀ c ∈ cs, c.Suits args := by
      intro fits hfits
      refine ih.bind fun rest hrest => .ofPure ?_
      split
      next hb => exact List.forall_mem_cons.mpr ⟨hfits hb, hrest⟩
      next => exact hrest
    split
    next hlength =>
      exact (Ensures.allM fun p _ => ensures_accepts p.1.type p.2).bind fun b hb =>
        hkeep b fun hb' => ⟨methodType_readable htype, hlength, hb hb'⟩
    next => exact hkeep false (by simp)

theorem ensures_mostSpecific (all : List Candidate) (i : Nat) (candidates : List Candidate) :
    Ensures (mostSpecific all i candidates) fun cs => ∀ c ∈ cs, c ∈ candidates := by
  induction candidates generalizing i with
  | nil => exact .ofPure (by simp)
  | cons c candidates ih =>
    unfold mostSpecific
    refine .after fun isMost => (ih (i + 1)).bind fun rest hrest => .ofPure ?_
    have hrest' : ∀ d ∈ rest, d ∈ c :: candidates := fun d hd => List.mem_cons_of_mem c (hrest d hd)
    split
    next => exact List.forall_mem_cons.mpr ⟨List.mem_cons_self, hrest'⟩
    next => exact hrest'

theorem ensures_selectOverload (methods : List Declared) (args : List Value) (name : String)
    (line : Nat) : Ensures (selectOverload methods args name line) (Candidate.Suits args) := by
  unfold selectOverload
  refine (ensures_applicable args methods).bind fun all hall => ?_
  refine (ensures_mostSpecific all 0 all).bind fun most hmost => ?_
  split
  next c => exact .ofPure (hall c (hmost c List.mem_cons_self))
  next => exact .refusing fun _ => .ofThrow
  next => exact .ofThrow

/-- Each argument is passed as its parameter takes it. -/
theorem passArguments_fit {args : List Value} {params : List FieldType}
    (hlength : params.length = args.length) (hargs : ∀ a ∈ args, a.Fits layout)
    (hpasses : ∀ p ∈ args.zip params, Passes p.1.type p.2) :
    Expr.AllWellFormed layout ((args.zip params).map fun (arg, param) => passArgument arg param) ∧
      ((args.zip params).map fun (arg, param) => passArgument arg param).map Expr.kind =
        params.map fun t => some (.ofType t) := by
  induction args generalizing params with
  | nil =>
    have hnil : params = [] := by simpa using hlength
    rw [hnil]
    exact ⟨trivial, rfl⟩
  | cons arg args ih =>
    cases params with
    | nil => simp at hlength
    | cons param params =>
      simp only [List.zip_cons_cons, List.forall_mem_cons] at hpasses hargs
      obtain ⟨hwf, hkind⟩ := passArgument_fits hargs.1 hpasses.1
      obtain ⟨hrest, hkinds⟩ := ih (by simpa using hlength) hargs.2 hpasses.2
      refine ⟨⟨hwf, hrest⟩, ?_⟩
      simp only [List.zip_cons_cons, List.map_cons]
      rw [hkind, hkinds]

/-! ## 2. Fields -/

def Meaning.Fits (layout : Layout) : Meaning → Prop
  | .value v => v.Fits layout
  | .condition c => c.WellFormed layout
  | .flag _ | .ofClass _ | .ofPackage _ => True

theorem ensures_toValue {m : Meaning} (hm : m.Fits layout) (e : Source.Expr) :
    Ensures (m.toValue e) (Value.Fits layout) := by
  cases m with
  | value v => exact .ofPure hm
  | flag b => exact .ofPure ⟨trivial, rfl⟩
  | condition c => exact .ofPure ⟨hm, rfl⟩
  | ofClass | ofPackage => exact .ofThrow

theorem ensures_toCond {m : Meaning} (hm : m.Fits layout) (e : Source.Expr) :
    Ensures (m.toCond e) (Cond.WellFormed layout) := by
  have hvalue : Ensures (do
      let v ← m.toValue e
      if v.type.isBoolean then return .value v.expr
      wrong e.line (.notBoolean v.type)) (Cond.WellFormed layout) := by
    refine (ensures_toValue hm e).bind fun v hv => ?_
    split
    next hbool =>
      have ht : v.type = .of .boolean := by simpa [ValueType.isBoolean] using hbool
      exact .ofPure ⟨hv.wellFormed, by rw [hv.kind, ht]; rfl⟩
    next => exact .ofThrow
  cases m with
  | flag b => exact .ofPure trivial
  | condition c => exact .ofPure hm
  | value | ofClass | ofPackage => exact hvalue

theorem ensures_fieldType (f : Declared) : Ensures (fieldType f) FieldType.Readable := by
  refine ensures_ofDescriptor.mono fun t ht => ?_
  unfold FieldType.ofDescriptor at ht
  split at ht
  next u hu =>
    cases ht
    exact FieldType.readable_of_ofDescriptor? hu
  next => cases ht

theorem ensures_receiver (hs : s.Fits layout) (line : Nat) :
    Ensures (s.receiver line) fun r => (Value.of r.1 r.2).Fits layout ∧
      r.2.isReference = true := by
  unfold Scope.receiver
  refine .refusing fun hstatic => .ofPure ⟨⟨?_, rfl⟩, rfl⟩
  exact hs.receiver (by simpa using hstatic)

theorem ensures_nameMeaning (hs : s.Fits layout) (name : String) (line : Nat) :
    Ensures (s.nameMeaning name line) (Meaning.Fits layout) := by
  unfold Scope.nameMeaning
  split
  next v hfind =>
    exact .ofPure ⟨hs.locals v (List.mem_of_find?_eq_some hfind), rfl⟩
  next =>
    refine .after fun found => ?_
    split
    next f =>
      refine (ensures_fieldType f).bind fun type htype => ?_
      split
      next => exact .ofPure ⟨htype, rfl⟩
      next =>
        refine .refusing fun _ => ?_
        refine (ensures_receiver hs line).bind
          fun r hr => .ofPure ⟨⟨hr.1.wellFormed, ?_, htype⟩, rfl⟩
        rw [← ofType_eq_reference_iff.mpr hr.2]
        exact hr.1.kind
    next =>
      refine .after fun c => ?_
      split <;> exact .ofPure trivial

theorem ensures_instanceField {v : Value} (hv : v.Fits layout) (name : String) (line : Nat) :
    Ensures (instanceField v name line) (Value.Fits layout) := by
  unfold instanceField
  split
  next owner ht =>
    refine .after fun found => ?_
    split
    next f =>
      refine .refusing fun _ => ?_
      refine (ensures_fieldType f).bind fun type htype => ?_
      exact .ofPure ⟨⟨hv.wellFormed, by rw [hv.kind, ht]; rfl, htype⟩, rfl⟩
    next => exact .ofThrow
  next => exact .refusing fun _ => .ofThrow
  next => exact .ofThrow

theorem ensures_staticMember (owner name : String) (line : Nat) :
    Ensures (staticMember owner name line) (Meaning.Fits layout) := by
  unfold staticMember
  refine .after fun found => ?_
  split
  next f =>
    refine .refusing fun _ => ?_
    exact (ensures_fieldType f).bind fun type htype => .ofPure ⟨htype, rfl⟩
  next =>
    refine .after fun known => ?_
    split
    next => exact .ofPure trivial
    next => exact .ofThrow

theorem ensures_memberMeaning {m : Meaning} (hm : m.Fits layout) (e : Source.Expr)
    (name : String) (line : Nat) :
    Ensures (memberMeaning m e name line) (Meaning.Fits layout) := by
  have hvalue : Ensures (do return .value (← instanceField (← m.toValue e) name line))
      (Meaning.Fits layout) :=
    (ensures_toValue hm e).bind fun v hv =>
      (ensures_instanceField hv name line).bind fun w hw => .ofPure hw
  cases m with
  | ofClass owner => exact ensures_staticMember owner name line
  | ofPackage package =>
    refine .after fun known => .ofPure ?_
    split <;> trivial
  | value | flag | condition => exact hvalue

/-! ## 3. Calls -/

def CallTarget.Fits (layout : Layout) : CallTarget → Prop
  | .value v => v.Fits layout
  | .self | .ofClass _ => True

theorem ensures_callTarget {m : Meaning} (hm : m.Fits layout) (e : Source.Expr) (line : Nat) :
    Ensures (callTarget m e line) (CallTarget.Fits layout) := by
  have hvalue : Ensures (do return .value (← m.toValue e)) (CallTarget.Fits layout) :=
    (ensures_toValue hm e).bind fun v hv => .ofPure hv
  cases m with
  | ofClass name => exact .ofPure trivial
  | ofPackage name => exact .ofThrow
  | value | flag | condition => exact hvalue

/-- Methods are called on references only. -/
theorem ensures_methodClass (v : Value) (line : Nat) :
    Ensures (methodClass v line) fun _ => v.type.kind = some .reference := by
  unfold methodClass
  split
  next ht => exact .ofPure (by rw [ht]; rfl)
  next ht => exact .ofPure (by rw [ht]; rfl)
  next => exact .ofThrow

theorem instanceCallee_wellFormed (self : String) (owner : Summary) {chosen : Candidate}
    (h : chosen.type.Readable) (name : String) :
    (instanceCallee self owner chosen name).WellFormed ∧
      (instanceCallee self owner chosen name).type = chosen.type := by
  unfold instanceCallee
  dsimp only
  split_ifs <;> exact ⟨⟨h, by simp, by simp⟩, rfl⟩

theorem resultType_kind (t : MethodDescriptor) :
    (resultType t).kind = t.ret.map ValueKind.ofType := by
  unfold resultType
  cases t.ret <;> rfl

theorem ensures_callReceiver (hs : s.Fits layout) {target : CallTarget} (ht : target.Fits layout)
    (href : ∀ v, target = .value v → v.expr.kind = some .reference) (chosen : Candidate)
    (name : String) (line : Nat) : Ensures (s.callReceiver target chosen name line) fun e =>
      e.WellFormed layout ∧ e.kind = some .reference := by
  unfold Scope.callReceiver
  cases target with
  | value v => exact .ofPure ⟨Value.Fits.wellFormed ht, href v rfl⟩
  | ofClass c => exact .ofThrow
  | self =>
    refine .refusing fun _ => (ensures_receiver hs line).bind fun r hr => .ofPure ?_
    exact ⟨hr.1.wellFormed, by rw [← ofType_eq_reference_iff.mpr hr.2]; exact hr.1.kind⟩

theorem ensures_bindCall (hs : s.Fits layout) {target : CallTarget} (ht : target.Fits layout)
    (name : String) {args : List Value} (hargs : ∀ a ∈ args, a.Fits layout) (line : Nat) :
    Ensures (s.bindCall target name args line) (Value.Fits layout) := by
  unfold Scope.bindCall
  extract_lets callIn
  -- all three targets come to a call in one class and differ in how that class is found
  have hcallIn : ∀ className, (∀ v, target = .value v → v.expr.kind = some .reference) →
      Ensures (callIn className) (Value.Fits layout) := by
    intro className hreceiver
    refine .after fun methods => .refusing fun _ => ?_
    refine (ensures_selectOverload methods args name line).bind fun chosen hchosen => ?_
    obtain ⟨hwf, hkinds⟩ := passArguments_fit hchosen.length_eq hargs hchosen.passes
    refine .after fun owner => ?_
    dsimp only
    split
    next =>
      -- a static method takes no receiver; a value it was called on is evaluated and dropped
      have hcallee :
          (⟨.static, className, owner.isInterface, name, chosen.type⟩ : Callee).WellFormed :=
        ⟨hchosen.readable, by simp, by simp⟩
      split
      next v =>
        exact .ofPure ⟨⟨hcallee, Value.Fits.wellFormed ht, hreceiver v rfl, hwf, hkinds⟩,
          (resultType_kind _).symm⟩
      next => exact .ofPure ⟨⟨hcallee, rfl, hwf, hkinds⟩, (resultType_kind _).symm⟩
    next =>
      -- any other method is called on the value, or on the receiver of this one
      refine (ensures_callReceiver hs ht hreceiver chosen name line).bind fun receiver hrec => ?_
      obtain ⟨hcallee, htype⟩ :=
        instanceCallee_wellFormed s.self.name owner hchosen.readable name
      refine .ofPure ⟨⟨hcallee, hrec.1, hrec.2, hwf, ?_⟩, ?_⟩
      · rw [hkinds, Callee.params, htype]
      · rw [resultType_kind, Value.expr, Expr.kind, htype]
  cases target with
  | self => exact hcallIn _ (by simp)
  | ofClass c => exact hcallIn c (by simp)
  | value v =>
    refine (ensures_methodClass v line).bind fun c hk => hcallIn c fun w hw => ?_
    cases hw
    rw [Value.Fits.kind ht, hk]

end MethodGraft.Typed
