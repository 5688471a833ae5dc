import MethodGraft.Typed.Names
import MethodGraft.Typed.Overload

/-!
# Typed.Call — members of values and classes
-/

namespace MethodGraft.Typed

open ClassFile Classpath

inductive Meaning where
  | value (v : Value)
  /-- `true` or `false`. -/
  | flag (b : Bool)
  | condition (c : Cond)
  /-- A class by internal name. -/
  | ofClass (name : String)
  /-- The start of a dotted name, with slashes. -/
  | ofPackage (name : String)

/-- The meaning as a value; classes and packages are none.  `e` is the expression that has it. -/
def Meaning.toValue (m : Meaning) (e : Source.Expr) : Binding Value :=
  match m with
  | .value v => return v
  | .flag b => return .of (.int (if b then 1 else 0)) .boolean
  | .condition c => return .of (.condition c) .boolean
  | .ofClass _ | .ofPackage _ => wrong e.line (.noVariable (e.dottedName?.getD ""))

def Meaning.toCond (m : Meaning) (e : Source.Expr) : Binding Cond := do
  match m with
  | .flag b => return .const b
  | .condition c => return c
  | m =>
    let v ← m.toValue e
    if v.type.isBoolean then return .value v.expr
    wrong e.line (.notBoolean v.type)

/-! ## 1. Fields -/

def fieldType (f : Declared) : Binding FieldType :=
  ofDescriptor (FieldType.ofDescriptor f.member.descriptor)

/-- The meaning of a bare name: a local, a field of the enclosing class, a class, or else the start
of a package. -/
def Scope.nameMeaning (s : Scope) (name : String) (line : Nat) : Binding Meaning := do
  -- a local hides a field, and a field hides a class
  if let some v := s.find? name then return .value (.of (.local v.slot v.type) v.type)
  let self := s.self.name
  match ← look (findField? self name) with
  | some f =>
    let type ← fieldType f
    -- the class that is named in the instruction is the one that was searched, not the one that
    -- declares
    if f.member.flags.isStatic then return .value (.of (.getStatic self name type) type)
    if s.isStatic then wrong line (.nonStaticVariable name)
    let (receiver, _) ← s.receiver line
    return .value (.of (.getField receiver self name type) type)
  | none =>
    match ← s.lookupClass? name with
    | some c => return .ofClass c
    -- whether there is such a package is never asked: classes decide it later
    | none => return .ofPackage name

def instanceField (v : Value) (name : String) (line : Nat) : Binding Value := do
  match v.type with
  | .of (.object owner) =>
    match ← look (findField? owner name) with
    | some f =>
      if f.member.flags.isStatic then unsupported line .staticThroughInstance
      let type ← fieldType f
      return .of (.getField v.expr owner name type) type
    | none => wrong line (.noField name owner)
  | .of (.array _) =>
    -- arrays have no fields in class files
    if name = "length" then unsupported line .arrayLength
    wrong line (.notDereferenceable v.type)
  | _ => wrong line (.notDereferenceable v.type)

def staticMember (owner name : String) (line : Nat) : Binding Meaning := do
  match ← look (findField? owner name) with
  | some f =>
    if !f.member.flags.isStatic then wrong line (.nonStaticVariable name)
    let type ← fieldType f
    return .value (.of (.getStatic owner name type) type)
  | none =>
    if ← exists? (memberClass owner name) then return .ofClass (memberClass owner name)
    wrong line (.noField name owner)

/-- The meaning of a dot and a name after something with the meaning `m`; `e` is what has it. -/
def memberMeaning (m : Meaning) (e : Source.Expr) (name : String) (line : Nat) :
    Binding Meaning := do
  match m with
  | .ofClass owner => staticMember owner name line
  | .ofPackage package =>
    let candidate := package ++ "/" ++ name
    -- the first class on the way counts; before that all names are packages
    return if ← exists? candidate then .ofClass candidate else .ofPackage candidate
  | m => return .value (← instanceField (← m.toValue e) name line)

/-! ## 2. Calls -/

inductive CallTarget where
  /-- Nothing is written: the enclosing class or its receiver. -/
  | self
  | value (v : Value)
  | ofClass (name : String)

/-- What a call on something with the meaning `m` is made on; `e` is what has it. -/
def callTarget (m : Meaning) (e : Source.Expr) (line : Nat) : Binding CallTarget := do
  match m with
  | .ofClass name => return .ofClass name
  | .ofPackage name => wrong line (.noSymbol name)
  | m => return .value (← m.toValue e)

/-- The class that methods of a value are looked for in.  Arrays have those of the root class. -/
def methodClass (v : Value) (line : Nat) : Binding String :=
  match v.type with
  | .of (.object name) => return name
  | .of (.array _) => return FieldType.rootClass
  | _ => wrong line (.notDereferenceable v.type)

/-- How an instance method is called: private ones of the enclosing class directly, those of
interfaces through the interface, except for the ones that every object has. -/
def instanceCallee (self : String) (owner : Summary) (chosen : Candidate) (name : String) :
    Callee :=
  let declared := chosen.method.owner.name
  if chosen.method.member.flags.isPrivate && declared == self && owner.name == self then
    ⟨.special, owner.name, owner.isInterface, name, chosen.type⟩
  else if owner.isInterface && declared == FieldType.rootClass then
    ⟨.virtual, FieldType.rootClass, false, name, chosen.type⟩
  else if owner.isInterface then ⟨.interface, owner.name, true, name, chosen.type⟩
  else ⟨.virtual, owner.name, false, name, chosen.type⟩

def Scope.callReceiver (s : Scope) (target : CallTarget) (chosen : Candidate) (name : String)
    (line : Nat) : Binding Expr := do
  match target with
  | .value v => return v.expr
  | .ofClass _ => wrong line (.nonStaticMethod name chosen.type)
  | .self =>
    if s.isStatic then wrong line (.nonStaticMethod name chosen.type)
    return (← s.receiver line).1

def resultType (t : MethodDescriptor) : ValueType :=
  match t.ret with
  | some t => .of t
  | none => .void

def Scope.bindCall (s : Scope) (target : CallTarget) (name : String) (args : List Value)
    (line : Nat) : Binding Value := do
  -- where methods are looked for is also the class that the instruction names
  let className ← match target with
    | .self => pure s.self.name
    | .value v => methodClass v line
    | .ofClass c => pure c
  let methods ← look (findMethods className name)
  if methods.isEmpty then wrong line (.noMethod name className)
  let chosen ← selectOverload methods args name line
  -- both have the same length, as the chosen method is applicable
  let passed := (args.zip chosen.type.params).map fun (arg, param) => passArgument arg param
  let owner ← look (resolve className)
  let result := resultType chosen.type
  if chosen.method.member.flags.isStatic then
    let callee := ⟨.static, className, owner.isInterface, name, chosen.type⟩
    match target with
    -- the target is evaluated and dropped
    | .value v => return ⟨.callOn v.expr callee passed, result⟩
    | _ => return ⟨.call callee passed, result⟩
  else
    let receiver ← s.callReceiver target chosen name line
    return ⟨.callOn receiver (instanceCallee s.self.name owner chosen name) passed, result⟩

end MethodGraft.Typed
