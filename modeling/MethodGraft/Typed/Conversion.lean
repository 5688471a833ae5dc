import MethodGraft.Typed.Scope

/-!
# Typed.Conversion — values where another type is expected

A value is widened where its type is not the one asked for.  Conversions among `boolean`, `byte`,
`char`, `short` and `int`, and those among references, change nothing that is held, so they leave no
node.
-/

namespace MethodGraft.Typed

open ClassFile Classpath

structure Value where
  expr : Expr
  type : ValueType

def Value.of (expr : Expr) (type : FieldType) : Value := ⟨expr, .of type⟩

def widen (e : Expr) (source target : FieldType) : Expr :=
  if source = target ∨ target.isReference ∨ (source.isIntLike ∧ target.isIntLike) then e
  else .widen source target e

def fits (value : Int32) : FieldType → Bool
  | .byte => -128 ≤ value && value ≤ 127
  | .short => -32768 ≤ value && value ≤ 32767
  | .char => 0 ≤ value && value ≤ 65535
  | _ => false

def isFittingConstant (e : Expr) (source target : FieldType) : Bool :=
  match e with
  | .int value => fits value target && source.isIntLike && source != .boolean
  | _ => false

def isNumber (t : FieldType) : Bool := !t.isReference && t != .boolean

def assign (v : Value) (target : FieldType) (line : Nat) : Binding Expr := do
  match v.type with
  | .void => wrong line .voidValue
  | .null =>
    if target.isReference then return .null
    wrong line (.incompatible v.type.text target)
  | .of source =>
    -- a fitting constant is stored as it is: narrow values are held as `int`s
    if source = target ∨ isFittingConstant v.expr source target then return v.expr
    if ← look (isAssignable source target) then return widen v.expr source target
    -- only the message tells a narrowing from types that have nothing in common
    if isNumber source && isNumber target then wrong line (.lossy source target)
    wrong line (.incompatible source.sourceName target)

/-- True if a value of the type `arg` can be passed to a parameter of the type `param`. -/
def accepts (arg : ValueType) (param : FieldType) : Binding Bool :=
  match arg with
  | .void => return false
  -- null fits every reference and says nothing about its class
  | .null => return param.isReference
  | .of t => look (isAssignable t param)

def passArgument (arg : Value) (param : FieldType) : Expr :=
  match arg.type with
  | .of t => if t.isReference then arg.expr else widen arg.expr t param
  | _ => arg.expr

def isFloating (t : FieldType) : Bool := t == .float || t == .double

/-- The type that both operands of a numeric operator are widened to, unless one is floating. -/
def promotion? (a b : FieldType) : Option FieldType :=
  if isFloating a || isFloating b then none
  -- types narrower than `int` are never the type of a sum
  else if a = .long ∨ b = .long then some .long
  else some .int

def appendType : ValueType → FieldType
  | .of t =>
    if t.isString || t == .boolean || t == .char || t == .long || isFloating t then t
    -- there is no method that appends a byte or a short
    else if t.isIntLike then .int
    else .object FieldType.rootClass
  | _ => .object FieldType.rootClass

/-! ## Casts -/

/-- The value cast to a type.  Only references that may turn out to be of another class are checked
when the program runs. -/
def castTo (v : Value) (target : FieldType) (line : Nat) : Binding Value := do
  match v.type with
  | .void => wrong line .voidValue
  | .null =>
    if target.isReference then return .of .null target
    wrong line (.incompatible v.type.text target)
  | .of source =>
    match source.isReference, target.isReference with
    | true, true =>
      if ← look (isAssignable source target) then return .of v.expr target
      -- a reference always has a class name
      return .of (.checkcast (target.className?.getD "") v.expr) target
    | false, false =>
      if ← look (isAssignable source target) then return .of (widen v.expr source target) target
      -- no cast leads to or from truth values; other casts would narrow
      if source = .boolean ∨ target = .boolean then
        wrong line (.incompatible source.sourceName target)
      unsupported line .narrowing
    | true, false => unsupported line .unboxing
    | false, true => unsupported line .boxing

/-! ## Operators -/

def partsOf (v : Value) : List (Expr × FieldType) :=
  match v.expr with
  -- `a + b + c` joins three parts at once
  | .concat parts => parts
  | e => [(e, appendType v.type)]

def addValues (l r : Value) (line : Nat) : Binding Value := do
  if l.type = .void ∨ r.type = .void then wrong line .voidValue
  -- either side makes it a text, whatever the other one is
  if l.type.isString || r.type.isString then
    -- the class must be there; its methods are not looked up
    let _ ← look (resolve textBuilder)
    return .of (.concat (partsOf l ++ partsOf r)) .string
  match l.type, r.type with
  | .of a, .of b =>
    if !(isNumber a && isNumber b) then wrong line (.badOperands .add l.type r.type)
    match promotion? a b with
    | some t => return .of (.add t (widen l.expr a t) (widen r.expr b t)) t
    | none => unsupported line .floatArithmetic
  | _, _ => wrong line (.badOperands .add l.type r.type)

def comparison? : Source.BinaryOp → Option Code.Comparison
  | .eq => some .eq
  | .ne => some .ne
  | .lt => some .lt
  | .le => some .le
  | .gt => some .gt
  | .ge => some .ge
  | .or | .and | .add => none

def isInterfaceType (t : FieldType) : Binding Bool := do
  match t with
  | .object name => return (← look (resolve name)).isInterface
  | _ => return false

/-- True if references of these types may be equal: one can be assigned to the other, or one is an
interface, which a subclass of the other may implement. -/
def areComparable (a b : FieldType) : Binding Bool := do
  if ← look (isAssignable a b) then return true
  if ← look (isAssignable b a) then return true
  if ← isInterfaceType a then return true
  isInterfaceType b

def compareReferences (equal : Bool) (l r : Value) (line : Nat) : Binding Cond := do
  match l.type, r.type with
  | .of a, .of b =>
    if ← areComparable a b then return .refs equal l.expr r.expr
    wrong line (.incomparable a b)
  | .of _, _ => return .nullity equal l.expr
  | _, .of _ => return .nullity equal r.expr
  -- `null == null` needs no code
  | _, _ => return .const equal

def compareValues (op : Source.BinaryOp) (c : Code.Comparison) (l r : Value) (line : Nat) :
    Binding Cond := do
  let isEquality := c == .eq || c == .ne
  let bad := wrong line (.badOperands op l.type r.type)
  if l.type.isBoolean && r.type.isBoolean then
    if isEquality then return .ints c l.expr r.expr
    bad
  else if l.type.isNumeric && r.type.isNumeric then
    -- a numeric type is never missing
    let a := l.type.type?.getD .int
    let b := r.type.type?.getD .int
    match promotion? a b with
    | some .long => return .longs c (widen l.expr a .long) (widen r.expr b .long)
    | some _ => return .ints c l.expr r.expr
    | none => unsupported line .floatComparison
  else if l.type.isReference && r.type.isReference then
    if isEquality then compareReferences (c == .eq) l r line
    else bad
  else if isEquality && ((l.type.isReference && r.type.isNumeric) ||
      (l.type.isNumeric && r.type.isReference)) then
    unsupported line .unboxing
  else bad

end MethodGraft.Typed
