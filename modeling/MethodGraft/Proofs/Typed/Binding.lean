import MethodGraft.Proofs.Typed.Calls
import MethodGraft.Proofs.Typed.Layout
import MethodGraft.Typed.Bind

/-!
# Proofs.Typed.Binding — bound methods are well formed

The binder gives out slots one after the other, and its notion of whether control can go on after a
statement is the one that the tree shows.
-/

namespace MethodGraft.Typed

open ClassFile Code Classpath

variable {layout : Layout} {s : Scope}

/-! ## 1. Expressions -/

mutual

theorem ensures_meaning (hs : s.Fits layout) :
    (e : Source.Expr) → Ensures (meaning s e) (Meaning.Fits layout)
  | .literal v _ => by
    unfold meaning literalMeaning
    cases v <;> first | exact .ofPure ⟨trivial, rfl⟩ | exact .ofPure trivial
  | .this line => by
    unfold meaning
    exact (ensures_receiver hs line).bind fun r hr => .ofPure hr.1
  | .name n line => by
    unfold meaning
    exact ensures_nameMeaning hs n line
  | .field target n line => by
    unfold meaning
    exact (ensures_meaning hs target).bind fun m hm => ensures_memberMeaning hm target n line
  | .call n args line => by
    unfold meaning
    refine .refusing fun _ => (ensures_bindArgs hs args).bind fun vs hvs => ?_
    have htarget : CallTarget.Fits layout .self := trivial
    exact (ensures_bindCall hs htarget n hvs line).bind fun v hv => .ofPure hv
  | .callOn target n args line => by
    unfold meaning
    refine (ensures_bindArgs hs args).bind fun vs hvs =>
      (ensures_meaning hs target).bind fun m hm => ?_
    refine (ensures_callTarget hm target line).bind fun t ht => ?_
    exact (ensures_bindCall hs ht n hvs line).bind fun v hv => .ofPure hv
  | .not e _ => by
    unfold meaning
    refine (ensures_meaning hs e).bind fun m hm => ?_
    exact (ensures_toCond hm e).bind fun c hc => .ofPure hc
  | .binary op l r line => by
    unfold meaning
    split
    next =>
      refine (ensures_meaning hs l).bind fun ml hml => (ensures_toCond hml l).bind fun a ha => ?_
      refine (ensures_meaning hs r).bind fun mr hmr => (ensures_toCond hmr r).bind fun b hb => ?_
      exact .ofPure ⟨ha, hb⟩
    next =>
      refine (ensures_meaning hs l).bind fun ml hml => (ensures_toCond hml l).bind fun a ha => ?_
      refine (ensures_meaning hs r).bind fun mr hmr => (ensures_toCond hmr r).bind fun b hb => ?_
      exact .ofPure ⟨ha, hb⟩
    next =>
      refine (ensures_meaning hs l).bind fun ml hml => (ensures_toValue hml l).bind fun a ha => ?_
      refine (ensures_meaning hs r).bind fun mr hmr => (ensures_toValue hmr r).bind fun b hb => ?_
      split
      next c _ => exact (ensures_compareValues ha hb op c line).bind fun c hc => .ofPure hc
      next => exact (ensures_addValues ha hb line).bind fun v hv => .ofPure hv
  | .cast type e line => by
    unfold meaning
    refine .refusing fun _ => .after fun target => (ensures_meaning hs e).bind fun m hm => ?_
    refine (ensures_toValue hm e).bind fun v hv => ?_
    exact (ensures_castTo hv target line).bind fun w hw => .ofPure hw

theorem ensures_bindArgs (hs : s.Fits layout) :
    (es : List Source.Expr) → Ensures (bindArgs s es) fun vs => ∀ v ∈ vs, v.Fits layout
  | [] => by
    unfold bindArgs
    exact .ofPure (by simp)
  | e :: es => by
    unfold bindArgs
    refine (ensures_meaning hs e).bind fun m hm => (ensures_toValue hm e).bind fun v hv => ?_
    refine (ensures_bindArgs hs es).bind fun vs hvs => .ofPure ?_
    exact List.forall_mem_cons.mpr ⟨hv, hvs⟩

end

theorem ensures_bindValue (hs : s.Fits layout) (e : Source.Expr) :
    Ensures (bindValue s e) (Value.Fits layout) :=
  (ensures_meaning hs e).bind fun _ hm => ensures_toValue hm e

theorem ensures_bindCond (hs : s.Fits layout) (e : Source.Expr) :
    Ensures (bindCond s e) (Cond.WellFormed layout) :=
  (ensures_meaning hs e).bind fun _ hm => ensures_toCond hm e

/-! ## 2. Declarations -/

/-- A declaration takes the next slots and leaves the others as they are. -/
theorem ensures_declare (hs : s.Fits layout) (name : String) (t : FieldType) (line : Nat) :
    Ensures (s.declare name t line) fun r => Declares layout r.1.slot t ∧
      r.2.Fits (layout ++ layoutOf t) ∧ r.2.returnType = s.returnType := by
  unfold Scope.declare
  refine .refusing fun _ => ?_
  dsimp only
  refine .refusing fun hroom => .ofPure ?_
  -- the number of slots is at most the largest slot, so the cast to a slot loses nothing
  have hle : layout.length + (layoutOf t).length ≤ 65535 := by
    rw [length_layoutOf, ← hs.next]
    exact Nat.le_of_not_lt hroom
  have hslot : (UInt16.ofNat s.nextSlot).toNat = layout.length := by
    rw [UInt16.toNat_ofNat', hs.next]
    omega
  have hhead : (layoutOf t)[0]? = some (some (.ofType t)) := by
    cases t <;> rfl
  refine ⟨⟨hslot, hle⟩, ⟨?_, ?_, ?_, ?_⟩, rfl⟩
  · rw [List.length_append, length_layoutOf, ← hs.next]
  · rwa [List.length_append]
  · simp only [List.forall_mem_cons]
    constructor
    · rw [hslot, List.getElem?_append_right (Nat.le_refl _), Nat.sub_self, hhead]
    · intro v hv
      have hold := hs.locals v hv
      rwa [List.getElem?_append_left (List.getElem?_eq_some_iff.mp hold).1]
  · intro hstatic
    have hold := hs.receiver hstatic
    rwa [List.getElem?_append_left (List.getElem?_eq_some_iff.mp hold).1]

/-! ## 3. Statements -/

structure Bound.Fits (s : Scope) (layout : Layout) (b : Bound) : Prop where
  wellFormed : b.stmt.WellFormed s.returnType layout
  completes : b.completes = b.stmt.completes
  after : b.after.Fits (b.stmt.after layout)
  returnType : b.after.returnType = s.returnType

theorem ensures_bindFieldRead (hs : s.Fits layout) (declared : FieldType) (name : String)
    (cast : Option Source.TypeName) (args : List Source.Expr) (callLine line : Nat) :
    Ensures (s.bindFieldRead declared name cast args callLine line) fun r =>
      (⟨r.1, true, r.2⟩ : Bound).Fits s layout := by
  unfold Scope.bindFieldRead
  split
  next object field =>
    refine (ensures_bindValue hs object).bind fun target htarget => .refusing fun href => ?_
    split
    next fieldName _ =>
      refine .refusing fun hdeclared => .after fun produced => .after fun fits => ?_
      refine .refusing fun _ => .after fun _ => ?_
      refine (ensures_declare hs name declared line).bind fun r hr => .ofPure ?_
      refine ⟨⟨hr.1, ?_, htarget.wellFormed, ?_⟩, rfl, hr.2.1, hr.2.2⟩
      · exact ofType_eq_reference_iff.mpr (by simpa using hdeclared)
      · rw [htarget.kind]
        cases ht : target.type with
        | of t =>
          rw [ht] at href
          simp only [ValueType.type?, Option.any_some, Bool.not_eq_true', Bool.not_eq_false] at href
          exact congrArg some (ofType_eq_reference_iff.mpr href)
        | void | null => simp [ht, ValueType.type?] at href
    next => exact .ofThrow
  next => exact .ofThrow

theorem ensures_bindDeclaration (hs : s.Fits layout) (type : Source.TypeName) (name : String)
    (init : Source.Expr) (line : Nat) :
    Ensures (s.bindDeclaration type name init line) (Bound.Fits s layout) := by
  unfold Scope.bindDeclaration
  refine .after fun declared => ?_
  split
  next cast args callLine _ =>
    exact (ensures_bindFieldRead hs declared name cast args callLine line).bind
      fun r hr => .ofPure hr
  next =>
    refine (ensures_bindValue hs init).bind fun v hv => ?_
    refine (ensures_assign hv declared init.line).bind fun e he => ?_
    refine (ensures_declare hs name declared line).bind fun r hr => .ofPure ?_
    exact ⟨⟨hr.1, he⟩, rfl, hr.2.1, hr.2.2⟩

/-- A branch without its braces still fits. -/
theorem branchOf_fits {ret : Option FieldType} {stmt : Stmt} (h : stmt.WellFormed ret layout) :
    Stmt.AllWellFormed ret layout (branchOf stmt) ∧
      Stmt.allComplete (branchOf stmt) = stmt.completes := by
  unfold branchOf
  split
  next => exact ⟨h, rfl⟩
  next => exact ⟨⟨h, trivial⟩, by simp [Stmt.allComplete]⟩

theorem kind_isSome (t : ValueType) : (t != .void) = t.kind.isSome := by
  cases t <;> rfl

mutual

theorem ensures_bindStmt {s : Scope} {layout : Layout} (hs : s.Fits layout) :
    (stmt : Source.Stmt) → Ensures (bindStmt s stmt) (Bound.Fits s layout)
  | .declare type name init line => by
    unfold bindStmt
    exact ensures_bindDeclaration hs type name init line
  | .ifThen c yes _ => by
    unfold bindStmt
    refine (ensures_bindCond hs c).bind fun c hc => .after fun _ => ?_
    refine (ensures_bindStmt hs yes).bind fun a ha => .ofPure ?_
    exact ⟨⟨hc, (branchOf_fits ha.wellFormed).1⟩, rfl, hs, rfl⟩
  | .ifElse c yes no _ => by
    unfold bindStmt
    refine (ensures_bindCond hs c).bind fun c hc => .after fun _ => ?_
    refine (ensures_bindStmt hs yes).bind fun a ha => .after fun _ => ?_
    refine (ensures_bindStmt hs no).bind fun b hb => .ofPure ?_
    obtain ⟨hyes, hyes'⟩ := branchOf_fits ha.wellFormed
    obtain ⟨hno, hno'⟩ := branchOf_fits hb.wellFormed
    refine ⟨⟨hc, hyes, hno⟩, ?_, hs, rfl⟩
    simp only [Stmt.completes]
    rw [hyes', hno', ha.completes, hb.completes]
  | .ret line => by
    unfold bindStmt
    refine .refusing fun hret => .ofPure ⟨?_, rfl, hs, rfl⟩
    show s.returnType = none
    simpa using hret
  | .retValue e line => by
    unfold bindStmt
    split
    next => exact .ofThrow
    next t ht =>
      refine (ensures_bindValue hs e).bind fun v hv => ?_
      refine (ensures_assign hv t e.line).bind fun e' he' => .ofPure ?_
      exact ⟨⟨ht, he'⟩, rfl, hs, rfl⟩
  | .call e _ => by
    unfold bindStmt
    refine (ensures_bindValue hs e).bind fun v hv => .ofPure ⟨⟨hv.wellFormed, ?_⟩, rfl, hs, rfl⟩
    rw [hv.kind, kind_isSome]
  | .block stmts _ => by
    unfold bindStmt
    refine (ensures_bindStmts hs stmts).bind fun r hr => .ofPure ?_
    exact ⟨hr.1, hr.2, hs, rfl⟩

theorem ensures_bindStmts {s : Scope} {layout : Layout} (hs : s.Fits layout) :
    (stmts : List Source.Stmt) → Ensures (bindStmts s stmts) fun r =>
      Stmt.AllWellFormed s.returnType layout r.1 ∧ r.2 = Stmt.allComplete r.1
  | [] => by
    unfold bindStmts
    exact .ofPure ⟨trivial, rfl⟩
  | stmt :: rest => by
    unfold bindStmts
    refine (ensures_bindStmt hs stmt).bind fun b hb => ?_
    split
    next hcompletes =>
      refine (ensures_bindStmts hb.after rest).bind fun r hr => .ofPure ?_
      rw [hb.returnType] at hr
      refine ⟨⟨hb.wellFormed, hr.1⟩, ?_⟩
      rw [Stmt.allComplete, ← hb.completes, hcompletes, Bool.true_and, hr.2]
    next hcompletes =>
      split
      next =>
        refine .ofPure ⟨⟨hb.wellFormed, trivial⟩, ?_⟩
        simp only [Stmt.allComplete, ← hb.completes, hcompletes, Bool.false_and]
      next => exact .ofThrow

end

/-! ## 4. Methods -/

theorem ensures_declareParams (params : List Source.Param) {s : Scope} {layout : Layout}
    (hs : s.Fits layout) :
    Ensures (declareParams s params) fun r =>
      r.2.Fits (layout ++ r.1.flatMap layoutOf) ∧ r.2.returnType = s.returnType := by
  induction params generalizing s layout with
  | nil =>
    refine .ofPure ⟨?_, rfl⟩
    rwa [List.flatMap_nil, List.append_nil]
  | cons p params ih =>
    unfold declareParams
    refine .after fun t => (ensures_declare hs p.name t p.line).bind fun r hr => ?_
    refine (ih hr.2.1).bind fun r' hr' => .ofPure ⟨?_, hr'.2.trans hr.2.2⟩
    rw [List.flatMap_cons, ← List.append_assoc]
    exact hr'.1

/-- Every method that the binder returns is well formed, and control can end after its body only
where it has no result to return. -/
theorem ensures_bindMethod (imports : List String) (self : Summary) (d : Source.MethodDecl) :
    Ensures (bindMethod imports self d) Method.WellFormed := by
  unfold bindMethod
  refine .after fun flags => .refusing fun _ => ?_
  extract_lets isStatic scope bindBody
  have hbody : ∀ ret, Ensures (bindBody ret) Method.WellFormed := by
    intro ret
    have hstart : Scope.Fits (if flags.isStatic then [] else [some .reference])
        { scope with returnType := ret } := by
      by_cases hstatic : flags.isStatic = true
      · exact ⟨by simp [scope, isStatic, hstatic], by simp [hstatic], by simp [scope],
          by simp [scope, isStatic, hstatic]⟩
      · exact ⟨by simp [scope, isStatic, hstatic], by simp [hstatic], by simp [scope],
          by simp [hstatic]⟩
    refine (ensures_declareParams d.params hstart).bind fun r hr => ?_
    refine (ensures_bindStmts hr.1 d.body).bind fun body hbody => .refusing fun hmissing => ?_
    rw [hr.2] at hbody
    refine .ofPure ⟨hr.1.le, hbody.1, hbody.2, fun hfalls => ?_⟩
    have hfalls' : body.2 = true := hfalls
    simpa [hfalls'] using hmissing
  split
  next => exact hbody none
  next => exact .after hbody

end MethodGraft.Typed
