import MethodGraft.Proofs.Machine.Step
import MethodGraft.Typed.Bind

/-!
# Proofs.Machine.Direct — trees evaluated directly

The meaning of typed trees without any code: operands from left to right, `and` and `or` only as far
as needed, numbers that wrap around, and a read of a field by name that leaves null where one of its
steps throws an exception of the class `java/lang/Exception`.
-/

namespace MethodGraft.Direct

open ClassFile Code Typed Machine

inductive Exit where
  | thrown (exception : Reference)
  | returned (value : Option Machine.Value)
  /-- An operand was not of the kind that it should be. -/
  | stuck

/-- What evaluation changes: the locals, and the list of actions so far, the latest first. -/
structure Memory where
  locals : Slots Machine.Value
  past : List Action

abbrev Evaluation := ExceptT Exit (StateM Memory)

variable (env : Environment)

/-! ## 1. Pieces -/

def perform (a : Action) : Evaluation Machine.Value := do
  let m ← get
  set { m with past := a :: m.past }
  match env.answer m.past a with
  | .ok v => return v
  | .error e => throw (.thrown e)

def callOf (kind : InvokeKind) (owner name : String) (params : List FieldType)
    (ret : Option FieldType) (operands : List Machine.Value) : Evaluation Machine.Value :=
  perform env (.invoke ⟨kind, owner, false, name, ⟨params, ret⟩⟩ operands)

def readLocal (slot : UInt16) : Evaluation Machine.Value := do
  match (← get).locals slot.toNat with
  | some v => return v
  | none => throw .stuck

def writeLocal (slot : UInt16) (v : Machine.Value) : Evaluation Unit :=
  modify fun m => { m with locals := fun i => if i = slot.toNat then some v else m.locals i }

def sum : Machine.Value → Machine.Value → Evaluation Machine.Value
  | .int a, .int b => return .int (a + b)
  | .long a, .long b => return .long (a + b)
  | _, _ => throw .stuck

/-- The value widened.  Types that are held alike need nothing. -/
def widened (source target : FieldType) (v : Machine.Value) : Evaluation Machine.Value :=
  if source = target ∨ (source.isIntLike ∧ target.isIntLike) then return v
  else
    match (Conversion.ofKinds? (.ofType source) (.ofType target)).bind fun c => convert c v with
    | some w => return w
    | none => throw .stuck

def compareInts (c : Comparison) : Machine.Value → Machine.Value → Evaluation Bool
  | .int a, .int b => return compare c a.toInt b.toInt
  | _, _ => throw .stuck

def compareLongs (c : Comparison) : Machine.Value → Machine.Value → Evaluation Bool
  | .long a, .long b => return compare c a.toInt b.toInt
  | _, _ => throw .stuck

def compareReferences (equal : Bool) : Machine.Value → Machine.Value → Evaluation Bool
  | .reference a, .reference b => return equal == (a == b)
  | _, _ => throw .stuck

def truth : Machine.Value → Evaluation Bool
  | .int a => return a ≠ 0
  | _ => throw .stuck

def newBuilder : Evaluation Machine.Value := do
  let builder ← perform env (.new textBuilder)
  let _ ← callOf env .special textBuilder "<init>" [] none [builder]
  return builder

/-! ## 2. Expressions and conditions -/

mutual

/-- The value of an expression.  That of a call of a `void` method is not used. -/
def expr : Expr → Evaluation Machine.Value
  | .int v => return .int v
  | .long v => return .long v
  | .str text => return .reference (.text text)
  | .null => return .reference .null
  | .local slot _ => readLocal slot
  | .getField receiver owner name type => do
    let r ← expr receiver
    perform env (.getField ⟨owner, name, type⟩ r)
  | .getStatic owner name type => perform env (.getStatic ⟨owner, name, type⟩)
  | .call callee args => do
    let vs ← exprs args
    perform env (.invoke callee vs)
  | .callOn receiver callee args => do
    let r ← expr receiver
    let vs ← exprs args
    perform env (.invoke callee (if callee.kind = .static then vs else r :: vs))
  | .checkcast name e => do
    let v ← expr e
    perform env (.checkcast name v)
  | .widen source target e => do
    let v ← expr e
    widened source target v
  | .add _ l r => do
    let a ← expr l
    let b ← expr r
    sum a b
  | .concat ps => do
    let builder ← newBuilder env
    let joined ← parts builder ps
    callOf env .virtual textBuilder "toString" [] (some .string) [joined]
  | .condition c => do
    let b ← cond c
    return .int (if b then 1 else 0)

def exprs : List Expr → Evaluation (List Machine.Value)
  | [] => return []
  | e :: es => do
    let v ← expr e
    let vs ← exprs es
    return v :: vs

/-- Appends the parts of a text; the result is what the last call returned. -/
def parts (builder : Machine.Value) : List (Expr × FieldType) → Evaluation Machine.Value
  | [] => return builder
  | (e, t) :: ps => do
    let v ← expr e
    let builder ← callOf env .virtual textBuilder "append" [t] (some (.object textBuilder))
      [builder, v]
    parts builder ps

def cond : Cond → Evaluation Bool
  | .const b => return b
  | .value e => do truth (← expr e)
  | .not c => do return !(← cond c)
  | .and a b => do
    if ← cond a then cond b else return false
  | .or a b => do
    if ← cond a then return true else cond b
  | .ints c l r => do
    let a ← expr l
    let b ← expr r
    compareInts c a b
  | .longs c l r => do
    let a ← expr l
    let b ← expr r
    compareLongs c a b
  | .refs equal l r => do
    let a ← expr l
    let b ← expr r
    compareReferences equal a b
  | .nullity isNull e => do
    let v ← expr e
    compareReferences isNull v (.reference .null)

end

/-! ## 3. Statements -/

/-- The value of the field of this name, which is looked up in the class of the object. -/
def reflected (field : String) (object : Machine.Value) : Evaluation Machine.Value := do
  let root := FieldType.object "java/lang/Object"
  let reflect := "java/lang/reflect/Field"
  let type ← callOf env .virtual "java/lang/Object" "getClass" [] (some (.object "java/lang/Class"))
    [object]
  let found ← callOf env .virtual "java/lang/Class" "getDeclaredField" [.string]
    (some (.object reflect)) [type, .reference (.text field)]
  let _ ← callOf env .virtual reflect "setAccessible" [.boolean] none [found, .int 1]
  callOf env .virtual reflect "get" [root] (some root) [found, object]

/-- Evaluates `x`, but goes on where it throws an exception of the class `java/lang/Exception`. -/
def recover (x : Evaluation Unit) : Evaluation Unit :=
  tryCatch x fun
    | .thrown e => if env.isInstance e "java/lang/Exception" then return else throw (.thrown e)
    | exit => throw exit

def casted (cast : Option String) (v : Machine.Value) : Evaluation Machine.Value :=
  match cast with
  | some name => perform env (.checkcast name v)
  | none => return v

mutual

def stmt : Stmt → Evaluation Unit
  | .store slot _ e => do
    let v ← expr env e
    writeLocal slot v
  | .readField slot _ target field cast => do
    writeLocal slot (.reference .null)
    let object ← expr env target
    recover env do
      let v ← reflected env field object
      let v ← casted env cast v
      writeLocal slot v
  | .ifThen c yes => do
    if ← cond env c then stmts yes
  | .ifElse c yes no => do
    if ← cond env c then stmts yes else stmts no
  | .ret => throw (.returned none)
  | .retValue e _ => do
    let v ← expr env e
    throw (.returned (some v))
  | .discard e _ => do
    let _ ← expr env e
    return
  | .block body => stmts body

def stmts : List Stmt → Evaluation Unit
  | [] => return
  | s :: ss => do
    stmt s
    stmts ss

end

/-! ## 4. Methods -/

def passed (args : List Machine.Value) : Slots Machine.Value := fun i =>
  ((args.flatMap fun v => if v.kind.isWide then [some v, none] else [some v])[i]?).join

/-- How the method ends and the actions that it has performed then, the latest first; none if it
gets stuck. -/
def method (m : Method) (args : List Machine.Value) : Option (Outcome × List Action) :=
  match (stmts env m.body).run.run ⟨passed args, []⟩ with
  | (.ok _, memory) => some (.returned none, memory.past)
  | (.error (.returned v), memory) => some (.returned v, memory.past)
  | (.error (.thrown e), memory) => some (.thrown e, memory.past)
  | (.error .stuck, _) => none

end MethodGraft.Direct
