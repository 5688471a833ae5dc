import MethodGraft.Typed.Call

/-!
# Typed.Bind — methods with their names resolved

Binding turns a method declaration into a typed tree, or tells the first thing that is wrong with
it.
-/

namespace MethodGraft.Typed

open ClassFile Classpath

/-! ## 1. Expressions -/

def fieldRead : String := "readField"

def fieldReadCall? : Source.Expr → Option (List Source.Expr × Nat)
  | .call name args line => if name = fieldRead then some (args, line) else none
  | _ => none

def literalMeaning : Source.Literal → Meaning
  | .int value => .value (.of (.int value) .int)
  | .long value => .value (.of (.long value) .long)
  | .bool value => .flag value
  | .char unit => .value (.of (.int unit.toUInt32.toInt32) .char)
  | .str text => .value (.of (.str text) .string)
  | .null => .value ⟨.null, .null⟩

mutual

def meaning (s : Scope) : Source.Expr → Binding Meaning
  | .literal v _ => return literalMeaning v
  | .this line => do
    let (e, t) ← s.receiver line
    return .value (.of e t)
  | .name n line => s.nameMeaning n line
  | .field target n line => do memberMeaning (← meaning s target) target n line
  | .call n args line => do
    -- as an initializer it is recognized before it comes here
    if n = fieldRead then unsupported line .misplacedFieldRead
    let args ← bindArgs s args
    return .value (← s.bindCall .self n args line)
  -- arguments are bound before the target, as errors are reported in this order
  | .callOn target n args line => do
    let args ← bindArgs s args
    let target ← callTarget (← meaning s target) target line
    return .value (← s.bindCall target n args line)
  | .not e _ => do
    return .condition (.not (← (← meaning s e).toCond e))
  | .binary op l r line => do
    match op with
    -- the operands become conditions one by one, so that a fault on the left comes first
    | .and =>
      let a ← (← meaning s l).toCond l
      return .condition (.and a (← (← meaning s r).toCond r))
    | .or =>
      let a ← (← meaning s l).toCond l
      return .condition (.or a (← (← meaning s r).toCond r))
    | op =>
      let a ← (← meaning s l).toValue l
      let b ← (← meaning s r).toValue r
      match comparison? op with
      | some c => return .condition (← compareValues op c a b line)
      | none => return .value (← addValues a b line)
  | .cast type e line => do
    -- a cast around the call belongs to it in an initializer
    if (fieldReadCall? e).isSome then unsupported line .misplacedFieldRead
    let target ← s.resolveType type
    let v ← (← meaning s e).toValue e
    return .value (← castTo v target line)

def bindArgs (s : Scope) : List Source.Expr → Binding (List Value)
  | [] => return []
  | e :: es => do
    let v ← (← meaning s e).toValue e
    return v :: (← bindArgs s es)

end

def bindValue (s : Scope) (e : Source.Expr) : Binding Value := do (← meaning s e).toValue e

def bindCond (s : Scope) (e : Source.Expr) : Binding Cond := do (← meaning s e).toCond e

/-! ## 2. Reading fields by name -/

/-- The parts of an initializer that reads a field by name: a cast, the arguments, and the line of
the call. -/
def fieldReadOf? : Source.Expr → Option (Option Source.TypeName × List Source.Expr × Nat)
  | .cast type e _ => (fieldReadCall? e).map fun (args, line) => (some type, args, line)
  | e => (fieldReadCall? e).map fun (args, line) => (none, args, line)

def requireMethod (owner name descriptor : String) (line : Nat) : Binding Unit := do
  let found ← look (findMethods owner name)
  if !found.any fun m => m.member.descriptor == descriptor then
    wrong line (.noHelper name descriptor owner)

def requireReflection (line : Nat) : Binding Unit := do
  requireMethod FieldType.rootClass "getClass" "()Ljava/lang/Class;" line
  requireMethod "java/lang/Class" "getDeclaredField"
    "(Ljava/lang/String;)Ljava/lang/reflect/Field;" line
  requireMethod "java/lang/reflect/Field" "setAccessible" "(Z)V" line
  requireMethod "java/lang/reflect/Field" "get" "(Ljava/lang/Object;)Ljava/lang/Object;" line
  let _ ← look (resolve "java/lang/Exception")

def Scope.castType (s : Scope) (cast : Option Source.TypeName) : Binding FieldType := do
  match cast with
  | some c =>
    let t ← s.resolveType c
    if !t.isReference then unsupported c.line .unboxing
    return t
  | none => return .object FieldType.rootClass

/-- The class to check the value of the field against, if it is not that of all objects. -/
def castClass? (t : FieldType) : Option String :=
  if t = .object FieldType.rootClass then none else t.className?

def Scope.bindFieldRead (s : Scope) (declared : FieldType) (name : String)
    (cast : Option Source.TypeName) (args : List Source.Expr) (callLine line : Nat) :
    Binding (Stmt × Scope) := do
  match args with
  | [object, field] =>
    let target ← bindValue s object
    if !(target.type.type?.any FieldType.isReference) then
      wrong object.line (.fieldReadTarget target.type)
    let .literal (.str fieldName) _ := field | wrong field.line .fieldReadName
    -- reflection yields objects only
    if !declared.isReference then wrong line (.incompatible "Object" declared)
    let produced ← s.castType cast
    if !(← look (isAssignable produced declared)) then
      wrong line (.incompatible produced.sourceName declared)
    -- the library may lack what the code is going to call
    requireReflection callLine
    -- the name comes into scope behind its own initializer
    let (v, s) ← s.declare name declared line
    return (.readField v.slot declared target.expr fieldName (castClass? produced), s)
  | _ => wrong callLine .fieldReadArguments

/-! ## 3. Statements -/

structure Bound where
  stmt : Stmt
  /-- True if control can go on after it. -/
  completes : Bool
  /-- The scope of the statements after it. -/
  after : Scope

def Scope.bindDeclaration (s : Scope) (type : Source.TypeName) (name : String)
    (init : Source.Expr) (line : Nat) : Binding Bound := do
  let declared ← s.resolveType type
  match fieldReadOf? init with
  | some (cast, args, callLine) =>
    let (stmt, s) ← s.bindFieldRead declared name cast args callLine line
    return ⟨stmt, true, s⟩
  | none =>
    let value ← assign (← bindValue s init) declared init.line
    -- as above, the initializer does not see the name
    let (v, s) ← s.declare name declared line
    return ⟨.store v.slot declared value, true, s⟩

def refuseDeclaration : Source.Stmt → Binding Unit
  | .declare _ _ _ line => ungrammatical line .declarationAsBranch
  | _ => return

def branchOf : Stmt → List Stmt
  | .block stmts => stmts
  | s => [s]

mutual

def bindStmt (s : Scope) : Source.Stmt → Binding Bound
  | .declare type name init line => s.bindDeclaration type name init line
  | .ifThen c yes _ => do
    let c ← bindCond s c
    -- what it declares would be in scope nowhere
    refuseDeclaration yes
    let a ← bindStmt s yes
    -- without an `else` control may always skip the branch
    return ⟨.ifThen c (branchOf a.stmt), true, s⟩
  | .ifElse c yes no _ => do
    let c ← bindCond s c
    refuseDeclaration yes
    let a ← bindStmt s yes
    refuseDeclaration no
    let b ← bindStmt s no
    return ⟨.ifElse c (branchOf a.stmt) (branchOf b.stmt), a.completes || b.completes, s⟩
  | .ret line => do
    if s.returnType.isSome then wrong line .missingReturnValue
    return ⟨.ret, false, s⟩
  | .retValue e line => do
    match s.returnType with
    | none => wrong line .unexpectedReturnValue
    | some t => return ⟨.retValue (← assign (← bindValue s e) t e.line) t, false, s⟩
  | .call e _ => do
    let v ← bindValue s e
    return ⟨.discard v.expr (v.type != .void), true, s⟩
  | .block stmts _ => do
    let (stmts, completes) ← bindStmts s stmts
    return ⟨.block stmts, completes, s⟩

/-- Binds statements one after the other, and tells if control can go on after the last one. -/
def bindStmts (s : Scope) : List Source.Stmt → Binding (List Stmt × Bool)
  | [] => return ([], true)
  | stmt :: rest => do
    let b ← bindStmt s stmt
    if b.completes then
      let (stmts, completes) ← bindStmts b.after rest
      return (b.stmt :: stmts, completes)
    else
      match rest with
      | [] => return ([b.stmt], false)
      -- the rest of an unreachable block is not looked at
      | next :: _ => ungrammatical next.line .unreachable

end

/-! ## 4. Methods -/

def addModifiers (line : Nat) (flags : AccessFlags) : List Source.Keyword → Binding AccessFlags
  | [] => return flags
  | word :: words => do
    match AccessFlags.ofModifier? word.text with
    | none => unsupported line (.modifier word)
    | some flag =>
      if flags.contains flag then ungrammatical line (.repeatedModifier word)
      addModifiers line (flags.union flag) words

/-- The flags that say who may use a member; at most one of them is set. -/
def visibilityFlags : List AccessFlags :=
  [.publicFlag, .protectedFlag, .privateFlag]

def declareParams (s : Scope) : List Source.Param → Binding (List FieldType × Scope)
  | [] => return ([], s)
  | p :: params => do
    let type ← s.resolveType p.type
    let (_, s) ← s.declare p.name type p.line
    let (types, s) ← declareParams s params
    return (type :: types, s)

def bindMethod (imports : List String) (self : Summary) (d : Source.MethodDecl) :
    Binding Method := do
  let flags ← addModifiers d.line ⟨0⟩ d.modifiers
  if (visibilityFlags.filter flags.contains).length > 1 then
    ungrammatical d.line .modifierCombination
  let isStatic := flags.isStatic
  let scope : Scope :=
    { imports, self, isStatic, returnType := none, locals := [],
      -- slot 0 holds the receiver
      nextSlot := if isStatic then 0 else 1 }
  let returnType ← if d.returnType.isVoid then pure none
    else some <$> scope.resolveType d.returnType
  let (params, scope) ← declareParams { scope with returnType } d.params
  let (body, fallsThrough) ← bindStmts scope d.body
  -- the line is that of the closing brace
  if fallsThrough && returnType.isSome then ungrammatical d.endLine .missingReturn
  return { flags, name := d.name, type := ⟨params, returnType⟩, body, fallsThrough }

end MethodGraft.Typed
