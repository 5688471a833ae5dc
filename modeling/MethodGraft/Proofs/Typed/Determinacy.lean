import MethodGraft.Proofs.Classpath.Calls
import MethodGraft.Proofs.Typed.References

/-!
# Proofs.Typed.Determinacy — binding depends on what names mean only

Two resolvers to which all names mean the same bind a method to the same tree, or refuse it for the
same reason, whatever either of them has looked up before.
-/

namespace MethodGraft.Typed

open ClassFile Classpath

variable {m : Dictionary} {s : Scope}

/-! ## 1. Names -/

theorem determined_look {α : Type} {x : Resolve α} (h : Determined m x) :
    Determined m (look x) := by
  obtain ⟨result, hresult⟩ := h.result
  refine ⟨⟨_, yields_look hresult⟩, fun r a r' hr hrun m' hkeyed hbounded hsame => ?_⟩
  exact yields_look (h.elsewhere r a r' hr (run_look_eq_ok hrun) m' hkeyed hbounded hsame)

theorem determined_ofDescriptor {α : Type} (x : Except ClassFile.Error α) :
    Determined m (ofDescriptor x) := .ofMk

theorem determined_exists? (name : String) : Determined m (exists? name) := by
  unfold exists?
  exact (determined_look .resolve?).bind fun _ => .pure

theorem determined_resolveNested? (slashes : Nat) (name : List Char) :
    Determined m (resolveNested? slashes name) := by
  induction slashes generalizing name with
  | zero =>
    unfold resolveNested?
    exact (determined_exists? _).bind fun _ => .pure
  | succ slashes ih =>
    unfold resolveNested?
    refine (determined_exists? _).bind fun found => ?_
    split
    next => exact .pure
    next => exact ih _

theorem determined_resolveDotted? (name : String) : Determined m (resolveDotted? name) := by
  unfold resolveDotted?
  exact determined_resolveNested? _ _

theorem determined_resolveImported? (name : String) (imports : List String) :
    Determined m (resolveImported? name imports) := by
  induction imports with
  | nil => exact .pure
  | cons i imports ih =>
    unfold resolveImported?
    refine (determined_resolveDotted? _).bind fun found => ?_
    split
    next => exact .pure
    next => exact ih

theorem determined_lookupClass? (name : String) : Determined m (s.lookupClass? name) := by
  unfold Scope.lookupClass?
  dsimp only
  split
  next => exact .pure
  next =>
    refine (determined_exists? _).bind fun isMember => ?_
    split
    next => exact .pure
    next =>
      split
      next i _ =>
        refine (determined_resolveDotted? i).bind fun found => ?_
        split
        next => exact .pure
        next => exact .throw
      next =>
        refine (determined_exists? _).bind fun isNear => ?_
        split
        next => exact .pure
        next =>
          refine (determined_resolveImported? name _).bind fun found => ?_
          split
          next => exact .pure
          next => exact (determined_exists? _).bind fun _ => .pure

theorem determined_resolveMembers? (owner : String) (names : List String) :
    Determined m (resolveMembers? owner names) := by
  induction names generalizing owner with
  | nil => exact .pure
  | cons name names ih =>
    unfold resolveMembers?
    refine (determined_exists? _).bind fun isMember => ?_
    split
    next => exact ih _
    next => exact .pure

theorem determined_typeClass (first : String) (more : List String) (line : Nat) :
    Determined m (s.typeClass first more line) := by
  unfold Scope.typeClass
  extract_lets name finish
  have hfinish (found : Option String) : Determined m (finish found) := by
    cases found with
    | some c => exact .pure
    | none => exact .throw
  refine (determined_lookupClass? first).bind fun found => ?_
  split
  next c => exact (determined_resolveMembers? c more).bind hfinish
  next =>
    split
    next => exact hfinish none
    next => exact (determined_resolveDotted? _).bind hfinish

theorem determined_resolveType (t : Source.TypeName) : Determined m (s.resolveType t) := by
  unfold Scope.resolveType
  split
  next => exact .throw
  next => exact .pure
  next => exact (determined_typeClass _ _ _).bind fun _ => .pure

/-! ## 2. Conversions and operators -/

section

variable (hm : m.Keyed) (hbounded : m.Bounded)
include hm hbounded

theorem determined_isAssignable (source target : FieldType) :
    Determined m (look (isAssignable source target)) :=
  determined_look (.isAssignable hm hbounded)

theorem determined_assign (v : Value) (target : FieldType) (line : Nat) :
    Determined m (assign v target line) := by
  unfold assign
  split
  next => exact .throw
  next =>
    split
    next => exact .pure
    next => exact .throw
  next source _ =>
    split
    next => exact .pure
    next =>
      refine (determined_isAssignable hm hbounded source target).bind fun fits => ?_
      split
      next => exact .pure
      next => exact .refusing .throw

theorem determined_accepts (arg : ValueType) (param : FieldType) :
    Determined m (accepts arg param) := by
  unfold accepts
  split
  next => exact .pure
  next => exact .pure
  next => exact determined_isAssignable hm hbounded _ _

theorem determined_castTo (v : Value) (target : FieldType) (line : Nat) :
    Determined m (castTo v target line) := by
  unfold castTo
  split
  next => exact .throw
  next =>
    split
    next => exact .pure
    next => exact .throw
  next source _ =>
    have htest := determined_isAssignable hm hbounded source target
    split
    next =>
      refine htest.bind fun fits => ?_
      split <;> exact .pure
    next =>
      refine htest.bind fun fits => ?_
      split
      next => exact .pure
      next => exact .refusing .throw
    next => exact .throw
    next => exact .throw

omit hm hbounded in
theorem determined_addValues (l r : Value) (line : Nat) : Determined m (addValues l r line) := by
  unfold addValues
  refine .refusing ?_
  split
  next => exact (determined_look .resolve).bind fun _ => .pure
  next =>
    split
    next =>
      refine .refusing ?_
      split
      next => exact .pure
      next => exact .throw
    next => exact .throw

omit hm hbounded in
theorem determined_isInterfaceType (t : FieldType) : Determined m (isInterfaceType t) := by
  unfold isInterfaceType
  split
  next => exact (determined_look .resolve).bind fun _ => .pure
  next => exact .pure

theorem determined_areComparable (a b : FieldType) : Determined m (areComparable a b) := by
  unfold areComparable
  refine (determined_isAssignable hm hbounded a b).bind fun _ => ?_
  split
  next => exact .pure
  next =>
    refine (determined_isAssignable hm hbounded b a).bind fun _ => ?_
    split
    next => exact .pure
    next =>
      refine (determined_isInterfaceType a).bind fun _ => ?_
      split
      next => exact .pure
      next => exact determined_isInterfaceType b

theorem determined_compareReferences (equal : Bool) (l r : Value) (line : Nat) :
    Determined m (compareReferences equal l r line) := by
  unfold compareReferences
  split
  next =>
    refine (determined_areComparable hm hbounded _ _).bind fun _ => ?_
    split
    next => exact .pure
    next => exact .throw
  next => exact .pure
  next => exact .pure
  next => exact .pure

theorem determined_compareValues (op : Source.BinaryOp) (c : Code.Comparison) (l r : Value)
    (line : Nat) : Determined m (compareValues op c l r line) := by
  unfold compareValues
  dsimp only
  split
  next =>
    split
    next => exact .pure
    next => exact .throw
  next =>
    split
    next =>
      split
      next => exact .pure
      next => exact .pure
      next => exact .throw
    next =>
      split
      next =>
        split
        next => exact determined_compareReferences hm hbounded _ l r line
        next => exact .throw
      next => split <;> exact .throw

/-! ## 3. Members -/

theorem determined_applicable (args : List Value) (methods : List Declared) :
    Determined m (applicable args methods) := by
  induction methods with
  | nil => exact .pure
  | cons d methods ih =>
    unfold applicable
    refine (determined_ofDescriptor _).bind fun type => ?_
    extract_lets keep
    have hkeep (fits : Bool) : Determined m (keep fits) := ih.bind fun rest => .pure
    have htest (p : Value × FieldType) : Determined m (accepts p.1.type p.2) :=
      determined_accepts hm hbounded p.1.type p.2
    split
    next => exact (Determined.allM htest _).bind hkeep
    next => exact hkeep false

theorem determined_mostSpecific (all : List Candidate) (i : Nat) (candidates : List Candidate) :
    Determined m (mostSpecific all i candidates) := by
  induction candidates generalizing i with
  | nil => exact .pure
  | cons c candidates ih =>
    have htest (other : Candidate) : Determined m (isMoreSpecific c.type other.type) := by
      unfold isMoreSpecific
      exact Determined.allM
        (fun p : FieldType × FieldType => determined_isAssignable hm hbounded p.1 p.2) _
    unfold mostSpecific
    exact (Determined.allM htest _).bind fun isMost => (ih (i + 1)).bind fun rest => .pure

theorem determined_selectOverload (methods : List Declared) (args : List Value) (name : String)
    (line : Nat) : Determined m (selectOverload methods args name line) := by
  unfold selectOverload
  refine (determined_applicable hm hbounded args methods).bind fun all => ?_
  refine (determined_mostSpecific hm hbounded all 0 all).bind fun most => ?_
  split
  next => exact .pure
  next => exact .refusing .throw
  next => exact .throw

theorem determined_findField? (owner name : String) : Determined m (look (findField? owner name)) :=
  determined_look ((Determined.hierarchy hm hbounded).bind fun _ => .pure)

theorem determined_findMethods (owner name : String) :
    Determined m (look (findMethods owner name)) :=
  determined_look ((Determined.hierarchy hm hbounded).bind fun _ => .pure)

omit hm hbounded in
theorem determined_toValue (n : Meaning) (e : Source.Expr) : Determined m (n.toValue e) := by
  cases n with
  | ofClass | ofPackage => exact .throw
  | value | flag | condition => exact .pure

omit hm hbounded in
theorem determined_toCond (n : Meaning) (e : Source.Expr) : Determined m (n.toCond e) := by
  unfold Meaning.toCond
  split
  next => exact .pure
  next => exact .pure
  next =>
    refine (determined_toValue _ e).bind fun v => ?_
    split
    next => exact .pure
    next => exact .throw

omit hm hbounded in
theorem determined_receiver (line : Nat) : Determined m (s.receiver line) := by
  unfold Scope.receiver
  exact .refusing .pure

theorem determined_nameMeaning (name : String) (line : Nat) :
    Determined m (s.nameMeaning name line) := by
  unfold Scope.nameMeaning
  split
  next => exact .pure
  next =>
    refine (determined_findField? hm hbounded _ name).bind fun found => ?_
    split
    next =>
      refine (determined_ofDescriptor _).bind fun type => ?_
      split
      next => exact .pure
      next => exact .refusing ((determined_receiver line).bind fun _ => .pure)
    next =>
      refine (determined_lookupClass? name).bind fun c => ?_
      split <;> exact .pure

theorem determined_instanceField (v : Value) (name : String) (line : Nat) :
    Determined m (instanceField v name line) := by
  unfold instanceField
  split
  next owner _ =>
    refine (determined_findField? hm hbounded owner name).bind fun found => ?_
    split
    next => exact .refusing ((determined_ofDescriptor _).bind fun type => .pure)
    next => exact .throw
  next => exact .refusing .throw
  next => exact .throw

theorem determined_staticMember (owner name : String) (line : Nat) :
    Determined m (staticMember owner name line) := by
  unfold staticMember
  refine (determined_findField? hm hbounded owner name).bind fun found => ?_
  split
  next => exact .refusing ((determined_ofDescriptor _).bind fun type => .pure)
  next =>
    refine (determined_exists? _).bind fun known => ?_
    split
    next => exact .pure
    next => exact .throw

theorem determined_memberMeaning (n : Meaning) (e : Source.Expr) (name : String) (line : Nat) :
    Determined m (memberMeaning n e name line) := by
  have hvalue :
      Determined m
      (do return .value (← instanceField (← n.toValue e) name line) : Binding Meaning) :=
    (determined_toValue n e).bind
      fun v => (determined_instanceField hm hbounded v name line).bind fun w => .pure
  cases n with
  | ofClass owner => exact determined_staticMember hm hbounded owner name line
  | ofPackage package => exact (determined_exists? _).bind fun known => .pure
  | value | flag | condition => exact hvalue

omit hm hbounded in
theorem determined_callTarget (n : Meaning) (e : Source.Expr) (line : Nat) :
    Determined m (callTarget n e line) := by
  cases n with
  | ofClass name => exact .pure
  | ofPackage name => exact .throw
  | value | flag | condition => exact (determined_toValue _ e).bind fun v => .pure

omit hm hbounded in
theorem determined_callReceiver (target : CallTarget) (chosen : Candidate) (name : String)
    (line : Nat) : Determined m (s.callReceiver target chosen name line) := by
  unfold Scope.callReceiver
  cases target with
  | value v => exact .pure
  | ofClass c => exact .throw
  | self => exact .refusing ((determined_receiver line).bind fun p => .pure)

theorem determined_bindCall (target : CallTarget) (name : String) (args : List Value) (line : Nat) :
    Determined m (s.bindCall target name args line) := by
  unfold Scope.bindCall
  extract_lets call
  have hcall (className : String) : Determined m (call className) := by
    refine (determined_findMethods hm hbounded className name).bind fun methods => .refusing ?_
    refine (determined_selectOverload hm hbounded methods args name line).bind fun chosen => ?_
    refine (determined_look .resolve).bind fun owner => ?_
    split
    next => split <;> exact .pure
    next => exact (determined_callReceiver target chosen name line).bind fun receiver => .pure
  split
  next => exact hcall _
  next v =>
    have hclass : Determined m (methodClass v line) := by
      unfold methodClass
      split
      next => exact .pure
      next => exact .pure
      next => exact .throw
    exact hclass.bind hcall
  next c => exact hcall c

end

/-! ## 4. Expressions -/

mutual

theorem determined_meaning (hm : m.Keyed) (hbounded : m.Bounded) :
    (e : Source.Expr) → Determined m (meaning s e)
  | .literal v _ => by
    unfold meaning
    exact .pure
  | .this line => by
    unfold meaning
    exact (determined_receiver line).bind fun p => .pure
  | .name n line => by
    unfold meaning
    exact determined_nameMeaning hm hbounded n line
  | .field target n line => by
    unfold meaning
    exact (determined_meaning hm hbounded target).bind fun k =>
      determined_memberMeaning hm hbounded k target n line
  | .call n args line => by
    unfold meaning
    refine .refusing ((determined_bindArgs hm hbounded args).bind fun vs => ?_)
    exact (determined_bindCall hm hbounded _ n vs line).bind fun v => .pure
  | .callOn target n args line => by
    unfold meaning
    refine (determined_bindArgs hm hbounded args).bind fun vs => ?_
    refine (determined_meaning hm hbounded target).bind fun k => ?_
    refine (determined_callTarget k target line).bind fun t => ?_
    exact (determined_bindCall hm hbounded t n vs line).bind fun v => .pure
  | .not e _ => by
    unfold meaning
    exact (determined_meaning hm hbounded e).bind
      fun k => (determined_toCond k e).bind fun c => .pure
  | .binary op l r line => by
    unfold meaning
    split
    next =>
      refine (determined_meaning hm hbounded l).bind fun a =>
        (determined_toCond a l).bind fun _ => ?_
      exact (determined_meaning hm hbounded r).bind fun b =>
        (determined_toCond b r).bind fun _ => .pure
    next =>
      refine (determined_meaning hm hbounded l).bind fun a =>
        (determined_toCond a l).bind fun _ => ?_
      exact (determined_meaning hm hbounded r).bind fun b =>
        (determined_toCond b r).bind fun _ => .pure
    next =>
      refine (determined_meaning hm hbounded l).bind fun a =>
        (determined_toValue a l).bind fun v => ?_
      refine (determined_meaning hm hbounded r).bind fun b =>
        (determined_toValue b r).bind fun w => ?_
      split
      next c _ => exact (determined_compareValues hm hbounded op c v w line).bind fun _ => .pure
      next => exact (determined_addValues v w line).bind fun _ => .pure
  | .cast type e line => by
    unfold meaning
    refine .refusing ((determined_resolveType type).bind fun target => ?_)
    refine (determined_meaning hm hbounded e).bind
      fun k => (determined_toValue k e).bind fun v => ?_
    exact (determined_castTo hm hbounded v target line).bind fun w => .pure

theorem determined_bindArgs (hm : m.Keyed) (hbounded : m.Bounded) :
    (es : List Source.Expr) → Determined m (bindArgs s es)
  | [] => by
    unfold bindArgs
    exact .pure
  | e :: es => by
    unfold bindArgs
    refine (determined_meaning hm hbounded e).bind
      fun k => (determined_toValue k e).bind fun v => ?_
    exact (determined_bindArgs hm hbounded es).bind fun vs => .pure

end

theorem determined_bindValue (hm : m.Keyed) (hbounded : m.Bounded) (e : Source.Expr) :
    Determined m (bindValue s e) :=
  (determined_meaning hm hbounded e).bind fun k => determined_toValue k e

theorem determined_bindCond (hm : m.Keyed) (hbounded : m.Bounded) (e : Source.Expr) :
    Determined m (bindCond s e) :=
  (determined_meaning hm hbounded e).bind fun k => determined_toCond k e

/-! ## 5. Statements and methods -/

theorem determined_declare (name : String) (t : FieldType) (line : Nat) :
    Determined m (s.declare name t line) := by
  unfold Scope.declare
  refine .refusing ?_
  dsimp only
  exact .refusing .pure

theorem determined_requireMethod (hm : m.Keyed) (hbounded : m.Bounded)
    (owner name descriptor : String) (line : Nat) :
    Determined m (requireMethod owner name descriptor line) := by
  unfold requireMethod
  refine (determined_findMethods hm hbounded owner name).bind fun found => ?_
  split
  next => exact .throw
  next => exact .pure

theorem determined_requireReflection (hm : m.Keyed) (hbounded : m.Bounded) (line : Nat) :
    Determined m (requireReflection line) := by
  have hmethod (owner name descriptor : String) :=
    determined_requireMethod hm hbounded owner name descriptor line
  unfold requireReflection
  refine (hmethod _ _ _).bind fun _ => (hmethod _ _ _).bind fun _ => ?_
  refine (hmethod _ _ _).bind fun _ => (hmethod _ _ _).bind fun _ => ?_
  exact (determined_look .resolve).bind fun _ => .pure

theorem determined_castType (cast : Option Source.TypeName) : Determined m (s.castType cast) := by
  unfold Scope.castType
  split
  next c => exact (determined_resolveType c).bind fun t => .refusing .pure
  next => exact .pure

theorem determined_bindFieldRead (hm : m.Keyed) (hbounded : m.Bounded) (declared : FieldType)
    (name : String) (cast : Option Source.TypeName) (args : List Source.Expr)
    (callLine line : Nat) :
    Determined m (s.bindFieldRead declared name cast args callLine line) := by
  unfold Scope.bindFieldRead
  split
  next object field =>
    refine (determined_bindValue hm hbounded object).bind fun target => .refusing ?_
    split
    next =>
      refine .refusing ((determined_castType cast).bind fun produced => ?_)
      refine (determined_isAssignable hm hbounded produced declared).bind fun fits => .refusing ?_
      refine (determined_requireReflection hm hbounded callLine).bind fun _ => ?_
      exact (determined_declare name declared line).bind fun p => .pure
    next => exact .throw
  next => exact .throw

theorem determined_bindDeclaration (hm : m.Keyed) (hbounded : m.Bounded) (type : Source.TypeName)
    (name : String) (init : Source.Expr) (line : Nat) :
    Determined m (s.bindDeclaration type name init line) := by
  unfold Scope.bindDeclaration
  refine (determined_resolveType type).bind fun declared => ?_
  split
  next cast args callLine _ =>
    exact (determined_bindFieldRead hm hbounded declared name cast args callLine line).bind
      fun p => .pure
  next =>
    refine (determined_bindValue hm hbounded init).bind fun v => ?_
    refine (determined_assign hm hbounded v declared init.line).bind fun e => ?_
    exact (determined_declare name declared line).bind fun p => .pure

theorem determined_refuseDeclaration (stmt : Source.Stmt) :
    Determined m (refuseDeclaration stmt) := by
  unfold refuseDeclaration
  split
  next => exact .throw
  next => exact .pure

mutual

theorem determined_bindStmt (hm : m.Keyed) (hbounded : m.Bounded) {s : Scope} :
    (stmt : Source.Stmt) → Determined m (bindStmt s stmt)
  | .declare type name init line => by
    unfold bindStmt
    exact determined_bindDeclaration hm hbounded type name init line
  | .ifThen c yes _ => by
    unfold bindStmt
    refine (determined_bindCond hm hbounded c).bind fun c =>
      (determined_refuseDeclaration yes).bind fun _ => ?_
    exact (determined_bindStmt hm hbounded yes).bind fun a => .pure
  | .ifElse c yes no _ => by
    unfold bindStmt
    refine (determined_bindCond hm hbounded c).bind fun c =>
      (determined_refuseDeclaration yes).bind fun _ => ?_
    refine (determined_bindStmt hm hbounded yes).bind fun a =>
      (determined_refuseDeclaration no).bind fun _ => ?_
    exact (determined_bindStmt hm hbounded no).bind fun b => .pure
  | .ret line => by
    unfold bindStmt
    exact .refusing .pure
  | .retValue e line => by
    unfold bindStmt
    split
    next => exact .throw
    next t _ =>
      refine (determined_bindValue hm hbounded e).bind fun v => ?_
      exact (determined_assign hm hbounded v t e.line).bind fun e' => .pure
  | .call e _ => by
    unfold bindStmt
    exact (determined_bindValue hm hbounded e).bind fun v => .pure
  | .block stmts _ => by
    unfold bindStmt
    exact (determined_bindStmts hm hbounded stmts).bind fun p => .pure

theorem determined_bindStmts (hm : m.Keyed) (hbounded : m.Bounded) {s : Scope} :
    (stmts : List Source.Stmt) → Determined m (bindStmts s stmts)
  | [] => by
    unfold bindStmts
    exact .pure
  | stmt :: rest => by
    unfold bindStmts
    refine (determined_bindStmt hm hbounded stmt).bind fun b => ?_
    split
    next => exact (determined_bindStmts hm hbounded rest).bind fun p => .pure
    next =>
      split
      next => exact .pure
      next => exact .throw

end

theorem determined_addModifiers (line : Nat) (flags : AccessFlags) (words : List Source.Keyword) :
    Determined m (addModifiers line flags words) := by
  induction words generalizing flags with
  | nil => exact .pure
  | cons word words ih =>
    unfold addModifiers
    split
    next => exact .throw
    next => exact .refusing (ih _)

theorem determined_declareParams {s : Scope} (params : List Source.Param) :
    Determined m (declareParams s params) := by
  induction params generalizing s with
  | nil => exact .pure
  | cons p params ih =>
    unfold declareParams
    refine (determined_resolveType p.type).bind fun type => ?_
    refine (determined_declare p.name type p.line).bind fun q => ?_
    exact ih.bind fun q => .pure

/-- Where names mean `m`, binding a method always has the same outcome. -/
theorem determined_bindMethod (hm : m.Keyed) (hbounded : m.Bounded) (imports : List String)
    (self : Summary) (d : Source.MethodDecl) : Determined m (bindMethod imports self d) := by
  unfold bindMethod
  refine (determined_addModifiers d.line ⟨0⟩ d.modifiers).bind fun flags => .refusing ?_
  extract_lets isStatic scope bindBody
  have hbody (ret : Option FieldType) : Determined m (bindBody ret) := by
    refine (determined_declareParams d.params).bind fun p => ?_
    exact (determined_bindStmts hm hbounded d.body).bind fun body => .refusing .pure
  split
  next => exact hbody none
  next =>
    have hreturn : Determined m (some <$> scope.resolveType d.returnType) := by
      rw [map_eq_pure_bind]
      exact (determined_resolveType d.returnType).bind fun t => .pure
    exact hreturn.bind hbody

end MethodGraft.Typed
