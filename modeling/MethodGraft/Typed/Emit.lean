import MethodGraft.Code.Layout
import MethodGraft.Typed.Tree

/-!
# Typed.Emit — code for typed methods

Conditions become jumps: `emitJump c when target` goes to `target` if `c` comes out as `when`, and
continues behind itself otherwise.  What a constant condition has made unreachable is left out.
-/

namespace MethodGraft.Typed

open ClassFile Code Assembly

/-! ## 1. Pieces -/

def whenReachable (x : Assembly Unit) : Assembly Unit := do
  if (← get).reachable then x

def inBlock (x : Assembly Unit) : Assembly Unit := do
  let length := (← get).locals.size
  x
  truncateLocals length

def callMethod (kind : InvokeKind) (owner name : String) (params : List FieldType)
    (ret : Option FieldType) : Assembly Unit :=
  invoke kind owner name ⟨params, ret⟩ false

def invokeCallee (c : Callee) : Assembly Unit := invoke c.kind c.owner c.name c.type c.onInterface

def newTextBuilder : Assembly Unit := do
  newObject textBuilder
  dup
  callMethod .special textBuilder "<init>" [] none

def appendText (t : FieldType) : Assembly Unit :=
  callMethod .virtual textBuilder "append" [t] (some (.object textBuilder))

def builtText : Assembly Unit :=
  callMethod .virtual textBuilder "toString" [] (some .string)

def intTest (c : Comparison) (toZero : Bool) : Test := if toZero then .zero c else .ints c

def outcome (c : Comparison) (when : Bool) : Comparison := if when then c else c.negate

def isZero : Expr → Bool
  | .int value => value == 0
  | _ => false

/-! ## 2. Expressions and conditions -/

/-- Pushes 1 or 0; `jumpUnless` goes to its label if the condition does not hold. -/
def emitFlag (jumpUnless : Label → Assembly Unit) : Assembly Unit := do
  let no ← newLabel
  let done ← newLabel
  jumpUnless no
  whenReachable do
    iconst 1
    goto done
  place no
  whenReachable (iconst 0)
  place done

mutual

def emitExpr : Expr → Assembly Unit
  | .int value => iconst value
  | .long value => lconst value
  | .str text => ldcString text
  | .null => aconstNull
  | .local slot type => load slot type
  | .getField receiver owner name type => do
    emitExpr receiver
    getField owner name type
  | .getStatic owner name type => getStatic owner name type
  | .call callee args => do
    emitExprs args
    invokeCallee callee
  | .callOn receiver callee args => do
    emitExpr receiver
    -- a static method has no use for the object that it was called on
    if callee.kind = .static then popValue
    emitExprs args
    invokeCallee callee
  | .checkcast name e => do
    emitExpr e
    checkcast name
  | .widen source target e => do
    emitExpr e
    widen source target
  | .add type l r => do
    emitExpr l
    emitExpr r
    add type
  | .concat parts => do
    newTextBuilder
    emitParts parts
    builtText
  | .condition c => emitFlag fun no => emitJump c false no

def emitExprs : List Expr → Assembly Unit
  | [] => return
  | e :: es => do
    emitExpr e
    emitExprs es

def emitParts : List (Expr × FieldType) → Assembly Unit
  | [] => return
  | (e, t) :: parts => do
    emitExpr e
    appendText t
    emitParts parts

def emitJump (c : Cond) (when : Bool) (target : Label) : Assembly Unit := do
  -- an operand before may have left for good
  if !(← get).reachable then return
  match c with
  | .const value => if value = when then goto target
  | .value e =>
    emitExpr e
    branch (.zero (if when then .ne else .eq)) target
  | .not c => emitJump c (!when) target
  | .and a b =>
    -- to jump if both hold, the first one skips the second if it fails
    if when then
      let skip ← newLabel
      emitJump a false skip
      emitJump b true target
      place skip
    else
      emitJump a false target
      emitJump b false target
  | .or a b =>
    -- the same with the roles changed
    if when then
      emitJump a true target
      emitJump b true target
    else
      let skip ← newLabel
      emitJump a true skip
      emitJump b false target
      place skip
  | .ints c l r =>
    emitExpr l
    -- a comparison to zero has an instruction of its own
    if !isZero r then emitExpr r
    branch (intTest (outcome c when) (isZero r)) target
  | .longs c l r =>
    emitExpr l
    emitExpr r
    lcmp
    branch (.zero (outcome c when)) target
  | .refs equal l r =>
    emitExpr l
    emitExpr r
    branch (.refs (equal == when)) target
  | .nullity isNull e =>
    emitExpr e
    branch (.null (isNull == when)) target

end

/-! ## 3. Statements -/

/-- Replaces an object and a field's name by the value of that field.  The field is looked up in the
object's class and made accessible. -/
def readReflected (field : String) : Assembly Unit := do
  let object := FieldType.object "java/lang/Object"
  let reflected := "java/lang/reflect/Field"
  dup
  callMethod .virtual "java/lang/Object" "getClass" [] (some (.object "java/lang/Class"))
  ldcString field
  callMethod .virtual "java/lang/Class" "getDeclaredField" [.string] (some (.object reflected))
  dup
  iconst 1
  callMethod .virtual reflected "setAccessible" [.boolean] none
  swap
  callMethod .virtual reflected "get" [object] (some object)

/-- Reads a field by name into a slot.  The slot holds null first, and keeps it if reading
throws. -/
def emitFieldRead (slot : UInt16) (type : FieldType) (target : Expr) (field : String)
    (cast : Option String) : Assembly Unit := do
  -- if reading throws, the slot keeps this
  aconstNull
  store slot type
  emitExpr target
  let start ← newLabel
  let stop ← newLabel
  let handler ← newLabel
  let after ← newLabel
  place start
  addHandler start stop handler (some "java/lang/Exception")
  readReflected field
  -- the cast is within the range, so that a failed one is dropped as well
  match cast with
  | some name => checkcast name
  | none => pure ()
  store slot type
  place stop
  goto after
  place handler
  popValue
  place after

mutual

def emitStmt : Stmt → Assembly Unit
  | .store slot type value => do
    emitExpr value
    store slot type
  | .readField slot type target field cast => emitFieldRead slot type target field cast
  | .ifThen c yes => do
    let no ← newLabel
    -- the label of the end is made although only the other form places one
    let _ ← newLabel
    emitJump c false no
    whenReachable (inBlock (emitStmts yes))
    place no
  | .ifElse c yes no => do
    let otherwise ← newLabel
    let done ← newLabel
    emitJump c false otherwise
    whenReachable (inBlock (emitStmts yes))
    -- a branch that returns needs no jump
    whenReachable (goto done)
    place otherwise
    whenReachable (inBlock (emitStmts no))
    place done
  | .ret => returnValue none
  | .retValue value type => do
    emitExpr value
    returnValue (some type)
  | .discard e hasValue => do
    emitExpr e
    if hasValue then popValue
  | .block stmts => inBlock (emitStmts stmts)

def emitStmts : List Stmt → Assembly Unit
  | [] => return
  | s :: stmts => do
    -- what follows a statement that never completes has no code
    if !(← get).reachable then return
    emitStmt s
    emitStmts stmts

end

/-! ## 4. Methods -/

/-- Adds the code of a whole method.  One without a result may end without a return. -/
def Method.emit (m : Method) : Assembly Unit := do
  inBlock (emitStmts m.body)
  whenReachable do
    -- a check of the binder: it has refused such a method already
    if !m.fallsThrough ∨ m.type.ret.isSome then refuse (.missingReturn m.name)
    returnValue none

/-- The Code attribute of a method of the class `owner`, which has the given version. -/
def Method.code (m : Method) (owner : String) (majorVersion : UInt16) :
    Interning CodeAttribute := do
  let receiver := if m.flags.isStatic then none else some owner
  let assembly : Assembly CodeAttribute := do
    m.emit
    finish majorVersion
  let (r, a) := assembly.run.run (Assembler.start (← get) receiver m.type.params)
  set a.pool
  Interning.ofExcept r

end MethodGraft.Typed
