import MethodGraft.Proofs.Typed.Linking

/-!
# Proofs.Typed.Resolution — every member that a bound method names is found

What the binder found when it came to a name is found again when the whole method is bound, since
looking names up changes no meaning.  So the members of all nodes of the tree are there in the end.
-/

namespace MethodGraft.Typed

open ClassFile Classpath

variable {m : Dictionary} {self : String} {s : Scope}

/-! ## 1. Expressions -/

mutual

theorem under_meaning (hm : m.Keyed) (hroot : RootOfAll m) (hself : s.self.name = self) :
    (e : Source.Expr) → Under m (meaning s e) fun n => Links m self n.references
  | .literal v _ => by
    unfold meaning literalMeaning
    cases v <;> exact .ofPure links_nil
  | .this line => by
    unfold meaning
    refine (under_receiver line).bind fun p hp => .ofPure ?_
    show Links m self p.1.references
    rw [hp]
    exact links_nil
  | .name n line => by
    unfold meaning
    exact under_nameMeaning hm n line
  | .field target n line => by
    unfold meaning
    refine (under_meaning hm hroot hself target).bind fun t ht => ?_
    exact under_memberMeaning hm ht target n line
  | .call n args line => by
    unfold meaning
    refine .refusing fun _ => (under_bindArgs hm hroot hself args).bind fun vs hvs => ?_
    have htarget : Links m self CallTarget.self.references := links_nil
    exact (under_bindCall hm hroot hself htarget n hvs line).bind fun v hv => .ofPure hv
  | .callOn target n args line => by
    unfold meaning
    refine (under_bindArgs hm hroot hself args).bind fun vs hvs => ?_
    refine (under_meaning hm hroot hself target).bind fun t ht => ?_
    refine (under_callTarget t target line).bind fun t' ht' => ?_
    exact (under_bindCall hm hroot hself (ht.mono ht') n hvs line).bind fun v hv => .ofPure hv
  | .not e _ => by
    unfold meaning
    refine (under_meaning hm hroot hself e).bind fun n hn => ?_
    exact (under_toCond n e).bind fun c hc => .ofPure (hn.mono hc)
  | .binary op l r line => by
    -- converting an operand adds no reference to those that it has
    have hcond (e : Source.Expr) (h : Under m (meaning s e) fun n => Links m self n.references)
        (n : Meaning) (hn : Links m self n.references) :
        Under m (n.toCond e) fun c => Links m self c.references :=
      (under_toCond n e).mono fun c hc => hn.mono hc
    have hvalue (e : Source.Expr) (n : Meaning) (hn : Links m self n.references) :
        Under m (n.toValue e) fun v => Links m self v.expr.references :=
      (under_toValue n e).mono fun v hv => hn.mono hv
    have hl := under_meaning hm hroot hself l
    have hr := under_meaning hm hroot hself r
    unfold meaning
    split
    next =>
      refine hl.bind fun a ha => (hcond l hl a ha).bind fun a' ha' => ?_
      refine hr.bind fun b hb => (hcond r hr b hb).bind fun b' hb' => ?_
      exact .ofPure (links_append.mpr ⟨ha', hb'⟩)
    next =>
      refine hl.bind fun a ha => (hcond l hl a ha).bind fun a' ha' => ?_
      refine hr.bind fun b hb => (hcond r hr b hb).bind fun b' hb' => ?_
      exact .ofPure (links_append.mpr ⟨ha', hb'⟩)
    next =>
      refine hl.bind fun a ha => (hvalue l a ha).bind fun a' ha' => ?_
      refine hr.bind fun b hb => (hvalue r b hb).bind fun b' hb' => ?_
      have hboth := links_append.mpr ⟨ha', hb'⟩
      split
      next c _ =>
        exact (under_compareValues hm op c a' b' line).bind fun c hc => .ofPure (hboth.mono hc)
      next => exact (under_addValues a' b' line).bind fun v hv => .ofPure (hboth.mono hv)
  | .cast type e line => by
    unfold meaning
    refine .refusing fun _ => (steady_resolveType type).bind fun target _ => ?_
    refine (under_meaning hm hroot hself e).bind fun n hn => (under_toValue n e).bind fun v hv => ?_
    exact (under_castTo hm v target line).bind fun w hw => .ofPure ((hn.mono hv).mono hw)

theorem under_bindArgs (hm : m.Keyed) (hroot : RootOfAll m) (hself : s.self.name = self) :
    (es : List Source.Expr) → Under m (bindArgs s es) fun vs =>
    ∀ v ∈ vs, Links m self v.expr.references
  | [] => by
    unfold bindArgs
    exact .ofPure (by simp)
  | e :: es => by
    unfold bindArgs
    refine (under_meaning hm hroot hself e).bind fun n hn => (under_toValue n e).bind fun v hv => ?_
    refine (under_bindArgs hm hroot hself es).bind fun vs hvs => .ofPure ?_
    exact List.forall_mem_cons.mpr ⟨hn.mono hv, hvs⟩

end

theorem under_bindValue (hm : m.Keyed) (hroot : RootOfAll m) (hself : s.self.name = self)
    (e : Source.Expr) : Under m (bindValue s e) fun v => Links m self v.expr.references :=
  (under_meaning hm hroot hself e).bind fun n hn => (under_toValue n e).mono fun _ hv => hn.mono hv

theorem under_bindCond (hm : m.Keyed) (hroot : RootOfAll m) (hself : s.self.name = self)
    (e : Source.Expr) : Under m (bindCond s e) fun c => Links m self c.references :=
  (under_meaning hm hroot hself e).bind fun n hn => (under_toCond n e).mono fun _ hc => hn.mono hc

/-! ## 2. Statements -/

theorem under_declare (name : String) (t : FieldType) (line : Nat) :
    Under m (s.declare name t line) fun p => p.2.self = s.self := by
  unfold Scope.declare
  refine .refusing fun _ => ?_
  dsimp only
  exact .refusing fun _ => .ofPure rfl

theorem steady_requireMethod (hm : m.Keyed) (owner name descriptor : String) (line : Nat) :
    Steady m (requireMethod owner name descriptor line) := by
  unfold requireMethod
  refine (under_look (under_findMethods hm)).bind fun found _ => ?_
  split
  next => exact .ofThrow
  next => exact .ofPure trivial

theorem steady_requireReflection (hm : m.Keyed) (line : Nat) :
    Steady m (requireReflection line) := by
  unfold requireReflection
  refine (steady_requireMethod hm _ _ _ line).bind fun _ _ =>
    (steady_requireMethod hm _ _ _ line).bind fun _ _ => ?_
  refine (steady_requireMethod hm _ _ _ line).bind fun _ _ =>
    (steady_requireMethod hm _ _ _ line).bind fun _ _ => ?_
  exact (under_look yields_resolve.under).bind fun _ _ => .ofPure trivial

theorem steady_castType (cast : Option Source.TypeName) : Steady m (s.castType cast) := by
  unfold Scope.castType
  split
  next c =>
    refine (steady_resolveType c).bind fun t _ => ?_
    exact .refusing fun _ => .ofPure trivial
  next => exact .ofPure trivial

theorem under_bindFieldRead (hm : m.Keyed) (hroot : RootOfAll m) (hself : s.self.name = self)
    (declared : FieldType) (name : String) (cast : Option Source.TypeName) (args : List Source.Expr)
    (callLine line : Nat) : Under m (s.bindFieldRead declared name cast args callLine line) fun p =>
      Links m self p.1.references ∧ p.2.self = s.self := by
  unfold Scope.bindFieldRead
  split
  next object field =>
    refine (under_bindValue hm hroot hself object).bind fun target htarget => .refusing fun _ => ?_
    split
    next fieldName _ =>
      refine .refusing fun _ => (steady_castType cast).bind fun produced _ => ?_
      refine (steady_isAssignable hm produced declared).bind fun fits _ => .refusing fun _ => ?_
      refine (steady_requireReflection hm callLine).bind fun _ _ => ?_
      exact (under_declare name declared line).bind fun p hp => .ofPure ⟨htarget, hp⟩
    next => exact .ofThrow
  next => exact .ofThrow

/-- The bound statement names members that are found, and the scope after it is in the same
class. -/
structure Bound.Links (m : Dictionary) (s : Scope) (b : Bound) : Prop where
  references : Typed.Links m s.self.name b.stmt.references
  self : b.after.self = s.self

theorem under_bindDeclaration (hm : m.Keyed) (hroot : RootOfAll m) (type : Source.TypeName)
    (name : String) (init : Source.Expr) (line : Nat) :
    Under m (s.bindDeclaration type name init line) (Bound.Links m s) := by
  unfold Scope.bindDeclaration
  refine (steady_resolveType type).bind fun declared _ => ?_
  split
  next cast args callLine _ =>
    refine (under_bindFieldRead hm hroot rfl declared name cast args callLine line).bind
      fun p hp => ?_
    exact .ofPure ⟨hp.1, hp.2⟩
  next =>
    refine (under_bindValue hm hroot rfl init).bind fun v hv => ?_
    refine (under_assign hm v declared init.line).bind fun e he => ?_
    exact (under_declare name declared line).bind fun p hp => .ofPure ⟨hv.mono he, hp⟩

theorem steady_refuseDeclaration (stmt : Source.Stmt) : Steady m (refuseDeclaration stmt) := by
  unfold refuseDeclaration
  split
  next => exact .ofThrow
  next => exact .ofPure trivial

/-- A branch without its braces names the same members. -/
theorem references_branchOf (stmt : Stmt) :
    Stmt.allReferences (branchOf stmt) = stmt.references := by
  unfold branchOf
  split
  next => rfl
  next => exact List.append_nil _

mutual

theorem under_bindStmt (hm : m.Keyed) (hroot : RootOfAll m) {s : Scope} :
    (stmt : Source.Stmt) → Under m (bindStmt s stmt) (Bound.Links m s)
  | .declare type name init line => by
    unfold bindStmt
    exact under_bindDeclaration hm hroot type name init line
  | .ifThen c yes _ => by
    unfold bindStmt
    refine (under_bindCond hm hroot rfl c).bind
      fun c hc => (steady_refuseDeclaration yes).bind fun _ _ => ?_
    refine (under_bindStmt hm hroot yes).bind fun a ha => .ofPure ⟨links_append.mpr ⟨hc, ?_⟩, rfl⟩
    rw [references_branchOf]
    exact ha.references
  | .ifElse c yes no _ => by
    unfold bindStmt
    refine (under_bindCond hm hroot rfl c).bind
      fun c hc => (steady_refuseDeclaration yes).bind fun _ _ => ?_
    refine (under_bindStmt hm hroot yes).bind
      fun a ha => (steady_refuseDeclaration no).bind fun _ _ => ?_
    refine (under_bindStmt hm hroot no).bind fun b hb => .ofPure ⟨?_, rfl⟩
    refine links_append.mpr ⟨hc, links_append.mpr ⟨?_, ?_⟩⟩
    · rw [references_branchOf]
      exact ha.references
    · rw [references_branchOf]
      exact hb.references
  | .ret line => by
    unfold bindStmt
    exact .refusing fun _ => .ofPure ⟨links_nil, rfl⟩
  | .retValue e line => by
    unfold bindStmt
    split
    next => exact .ofThrow
    next t _ =>
      refine (under_bindValue hm hroot rfl e).bind fun v hv => ?_
      exact (under_assign hm v t e.line).bind fun e' he' => .ofPure ⟨hv.mono he', rfl⟩
  | .call e _ => by
    unfold bindStmt
    exact (under_bindValue hm hroot rfl e).bind fun v hv => .ofPure ⟨hv, rfl⟩
  | .block stmts _ => by
    unfold bindStmt
    exact (under_bindStmts hm hroot stmts).bind fun p hp => .ofPure ⟨hp, rfl⟩

theorem under_bindStmts (hm : m.Keyed) (hroot : RootOfAll m) {s : Scope} :
    (stmts : List Source.Stmt) →
    Under m (bindStmts s stmts) fun p => Links m s.self.name (Stmt.allReferences p.1)
  | [] => by
    unfold bindStmts
    exact .ofPure links_nil
  | stmt :: rest => by
    unfold bindStmts
    refine (under_bindStmt hm hroot stmt).bind fun b hb => ?_
    split
    next =>
      refine (under_bindStmts hm hroot rest).bind fun p hp => .ofPure ?_
      rw [hb.self] at hp
      exact links_append.mpr ⟨hb.references, hp⟩
    next =>
      split
      next => exact .ofPure (links_append.mpr ⟨hb.references, links_nil⟩)
      next => exact .ofThrow

end

/-! ## 3. Methods -/

theorem steady_addModifiers (line : Nat) (flags : AccessFlags) (words : List Source.Keyword) :
    Steady m (addModifiers line flags words) := by
  induction words generalizing flags with
  | nil => exact .ofPure trivial
  | cons word words ih =>
    unfold addModifiers
    split
    next => exact .ofThrow
    next => exact .refusing fun _ => ih _

theorem under_declareParams (params : List Source.Param) {s : Scope} :
    Under m (declareParams s params) fun p => p.2.self = s.self := by
  induction params generalizing s with
  | nil => exact .ofPure rfl
  | cons param params ih =>
    unfold declareParams
    refine (steady_resolveType param.type).bind fun t _ => ?_
    refine (under_declare param.name t param.line).bind fun p hp => ?_
    exact ih.bind fun q hq => .ofPure (hq.trans hp)

theorem under_bindMethod (hm : m.Keyed) (hroot : RootOfAll m) (imports : List String)
    (self : Summary) (d : Source.MethodDecl) :
    Under m (bindMethod imports self d) fun method => Links m self.name method.references := by
  unfold bindMethod
  refine (steady_addModifiers d.line ⟨0⟩ d.modifiers).bind fun flags _ => .refusing fun _ => ?_
  extract_lets isStatic scope bindBody
  have hbody : ∀ ret, Under m (bindBody ret) fun method => Links m self.name method.references := by
    intro ret
    refine (under_declareParams d.params).bind fun p hp => ?_
    refine (under_bindStmts hm hroot d.body).bind fun body hbody => .refusing fun _ => .ofPure ?_
    rw [hp] at hbody
    exact hbody
  split
  next => exact hbody none
  next =>
    have hreturn : Steady m (some <$> scope.resolveType d.returnType) := by
      rw [map_eq_pure_bind]
      exact (steady_resolveType d.returnType).bind fun _ _ => .ofPure trivial
    exact hreturn.bind fun ret _ => hbody ret

/-- **Every member that a bound method names is found**, with the resolver as the binder leaves it:
each call names a method of exactly its type in a class that has it, is of the kind for that method
and that class, and passes an argument for each parameter; each field is one of exactly its type,
static or not as it is read.  The class at the top must be as the class format has it, no interface
and without a superclass, since what an interface inherits from it is called on that class. -/
theorem bindMethod_links {r r' : Resolver} {imports : List String} {self : Summary}
    {d : Source.MethodDecl} {method : Method} (hr : r.Reached)
    (hroot : ∀ o, ((resolve? FieldType.rootClass).run.run r).1 = .ok (some o) →
      o.isInterface = false ∧ o.superName? = none)
    (h : (bindMethod imports self d).run.run r = (.ok method, r')) :
    r'.Reached ∧ ∀ ref ∈ method.references, ref.Linked self.name r' := by
  have htop : RootOfAll r.meaning := by
    intro o ho
    apply hroot o
    rw [yields_resolve?.result rfl, ho]
  obtain ⟨hlearns, hlinks⟩ := under_bindMethod hr.keyed htop imports self d r method r' rfl h
  exact ⟨hlearns.reached hr, fun ref href => hlinks ref href r' hlearns.meaning⟩

/-! ## 4. What an interface inherits from the class at the top -/

/-- The interface `I`, with the class at index 4 as its superclass or among its interfaces. -/
def interfaceBytes (superClass : UInt16) (interfaces : List UInt16) : List UInt8 :=
  be32 magic ++ be16 0 ++ be16 52 ++
    (be16 5 ++ [1, 0, 1, 0x49] ++ [7, 0, 1] ++ ([1, 0, 16] ++ FieldType.rootClass.toUTF8.toList) ++
      [7, 0, 3]) ++
    be16 0x0601 ++ be16 2 ++ be16 superClass ++
    (be16 (UInt16.ofNat interfaces.length) ++ interfaces.flatMap be16) ++ be16 0 ++ be16 0 ++ be16 0

def interfaceSummary (superName? : Option String) (interfaces : List String) : Summary :=
  ⟨"I", superName?, interfaces, ⟨0x0601⟩, [], []⟩

/-- A class at the top with a method `int hashCode()`.  The class `M` at index 4 is not there. -/
def topBytes (flags superClass : UInt16) : List UInt8 :=
  be32 magic ++ be16 0 ++ be16 52 ++
    (be16 7 ++ ([1, 0, 16] ++ FieldType.rootClass.toUTF8.toList) ++ [7, 0, 1] ++ [1, 0, 1, 0x4D] ++
      [7, 0, 3] ++ ([1, 0, 8] ++ "hashCode".toUTF8.toList) ++ [1, 0, 3, 0x28, 0x29, 0x49]) ++
    be16 flags ++ be16 2 ++ be16 superClass ++ be16 0 ++ be16 0 ++
    (be16 1 ++ be16 0x0101 ++ be16 5 ++ be16 6 ++ be16 0) ++ be16 0

def withTop (interfaceFile topFile : List UInt8) : Resolver :=
  { roots := [.classes [("I", interfaceFile), (FieldType.rootClass, topFile)]] }

/-- The method `int hash() { return hashCode(); }`. -/
def hashDecl : Source.MethodDecl where
  modifiers := []
  returnType := ⟨.primitive .int, 0, 1⟩
  name := "hash"
  params := []
  body := [.retValue (.call "hashCode" [] 1) 1]
  endLine := 1
  line := 1

def hashCall : Reference :=
  .method ⟨.virtual, FieldType.rootClass, false, "hashCode", ⟨[], some .int⟩⟩ 0

/-- A run that can be carried out ends in what it was seen to end in. -/
theorem exists_run {α ε σ : Type} {x : ExceptT ε (StateM σ) α} {r : σ} (check : α → σ → Bool)
    (h : (match x.run.run r with
      | (.ok a, r') => check a r'
      | (.error _, _) =>
        false) = true) : ∃ a r', x.run.run r = (.ok a, r') ∧ check a r' = true := by
  cases hout : x.run.run r with
  | mk result r' =>
    rw [hout] at h
    cases result with
    | error e => cases h
    | ok a => exact ⟨a, r', rfl, h⟩

theorem bindMethod_links_inherited : ∃ method r',
    (bindMethod [] (interfaceSummary (some FieldType.rootClass) []) hashDecl).run.run
      (withTop (interfaceBytes 4 []) (topBytes 0x0021 0)) = (.ok method, r') ∧
    method.references = [hashCall] ∧ ∀ ref ∈ method.references, ref.Linked "I" r' := by
  have hroot : ∀ o, ((resolve? FieldType.rootClass).run.run
      (withTop (interfaceBytes 4 []) (topBytes 0x0021 0))).1 = .ok (some o) →
        o.isInterface = false ∧ o.superName? = none := by
    have htop : (((resolve? FieldType.rootClass).run.run
        (withTop (interfaceBytes 4 []) (topBytes 0x0021 0))).1.toOption.getD none).all
          (fun o => decide (o.isInterface = false ∧ o.superName? = none)) = true := by
            decide +kernel
    intro o ho
    rw [ho] at htop
    exact of_decide_eq_true htop
  obtain ⟨method, r', hrun, hreferences⟩ :=
    exists_run (x := bindMethod [] (interfaceSummary (some FieldType.rootClass) []) hashDecl)
      (r := withTop (interfaceBytes 4 []) (topBytes 0x0021 0))
      (fun method _ => decide (method.references = [hashCall])) (by decide +kernel)
  exact ⟨method, r', hrun, of_decide_eq_true hreferences,
    (bindMethod_links (.fresh _) hroot hrun).2⟩

/-- The method is bound, and names a member that is not found as it is named. -/
def LeavesUnlinked (r : Resolver) (self : Summary) (d : Source.MethodDecl) : Prop :=
  r.Reached ∧ ∃ method r', (bindMethod [] self d).run.run r = (.ok method, r') ∧
    ∃ ref ∈ method.references, ¬ref.Linked self.name r'

/-- The class at the top must be as the class format has it.  If it is marked as an interface, the
call names it as a class all the same; if it is listed as an interface only and its superclass is
not there, its methods cannot be found from it. -/
theorem links_need_root :
    LeavesUnlinked (withTop (interfaceBytes 4 []) (topBytes 0x0601 0))
      (interfaceSummary (some FieldType.rootClass) []) hashDecl ∧
    LeavesUnlinked (withTop (interfaceBytes 0 [4]) (topBytes 0x0021 4))
      (interfaceSummary none [FieldType.rootClass]) hashDecl := by
  constructor
  · obtain ⟨method, r', hrun, hcheck⟩ :=
      exists_run (x := bindMethod [] (interfaceSummary (some FieldType.rootClass) []) hashDecl)
        (r := withTop (interfaceBytes 4 []) (topBytes 0x0601 0))
        (fun method r' => decide (hashCall ∈ method.references) &&
          ((resolve FieldType.rootClass).run.run r').1.toOption.all Summary.isInterface)
          (by decide +kernel)
    obtain ⟨hmem, hinterface⟩ := Bool.and_eq_true_iff.mp hcheck
    refine ⟨.fresh _, method, r', hrun, hashCall, of_decide_eq_true hmem, fun hlinked => ?_⟩
    obtain ⟨top, htop, hkind⟩ := Callee.Linked.owner hlinked
    rw [show ((resolve FieldType.rootClass).run.run r').1 = .ok top from htop] at hinterface
    have hclass : top.isInterface = true := hinterface
    rw [hclass] at hkind
    cases hkind
  · obtain ⟨method, r', hrun, hcheck⟩ :=
      exists_run (x := bindMethod [] (interfaceSummary none [FieldType.rootClass]) hashDecl)
        (r := withTop (interfaceBytes 0 [4]) (topBytes 0x0021 4))
        (fun method r' => decide (hashCall ∈ method.references) &&
          !((findMethods FieldType.rootClass "hashCode").run.run r').1.isOk) (by decide +kernel)
    obtain ⟨hmem, hfails⟩ := Bool.and_eq_true_iff.mp hcheck
    refine ⟨.fresh _, method, r', hrun, hashCall, of_decide_eq_true hmem, fun hlinked => ?_⟩
    obtain ⟨found, hfound, -⟩ := Callee.Linked.method hlinked
    rw [show ((findMethods FieldType.rootClass "hashCode").run.run r').1 = .ok found from hfound]
      at hfails
    cases hfails

end MethodGraft.Typed
