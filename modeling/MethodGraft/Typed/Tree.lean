import MethodGraft.ClassFile.AccessFlags
import MethodGraft.Code.Operation

/-!
# Typed.Tree — methods with every name resolved

In this tree every local has its slot, every member its owner and descriptor, and every conversion
that changes a value stands as a node.
-/

namespace MethodGraft.Typed

open ClassFile Code

/-- The type of an expression: none at all, that of `null`, or a type that locals can have. -/
inductive ValueType where
  | void
  | null
  | of (type : FieldType)
  deriving DecidableEq, Repr, Inhabited

def textBuilder : String := "java/lang/StringBuilder"

structure Callee where
  kind : InvokeKind
  owner : String
  /-- True if the owner is an interface. -/
  onInterface : Bool
  name : String
  type : MethodDescriptor
  deriving DecidableEq, Repr

mutual

inductive Expr where
  /-- A constant that is held as an `int`; booleans and characters are such. -/
  | int (value : Int32)
  | long (value : Int64)
  | str (text : String)
  | null
  | local (slot : UInt16) (type : FieldType)
  | getField (receiver : Expr) (owner name : String) (type : FieldType)
  | getStatic (owner name : String) (type : FieldType)
  | call (callee : Callee) (args : List Expr)
  /-- A call on a receiver, which is evaluated first; a static method then does without it. -/
  | callOn (receiver : Expr) (callee : Callee) (args : List Expr)
  | checkcast (name : String) (operand : Expr)
  | widen (source target : FieldType) (operand : Expr)
  | add (type : FieldType) (lhs rhs : Expr)
  /-- The texts of all parts joined; with each part, the type that it is appended as. -/
  | concat (parts : List (Expr × FieldType))
  /-- 1 if the condition holds, else 0. -/
  | condition (c : Cond)

inductive Cond where
  | const (value : Bool)
  /-- A boolean value. -/
  | value (e : Expr)
  | not (c : Cond)
  | and (a b : Cond)
  | or (a b : Cond)
  | ints (c : Comparison) (lhs rhs : Expr)
  | longs (c : Comparison) (lhs rhs : Expr)
  /-- The references are equal, or are not. -/
  | refs (equal : Bool) (lhs rhs : Expr)
  /-- The reference is null, or is not. -/
  | nullity (isNull : Bool) (e : Expr)

end

instance : Inhabited Expr := ⟨.null⟩
instance : Inhabited Cond := ⟨.const true⟩

inductive Stmt where
  | store (slot : UInt16) (type : FieldType) (value : Expr)
  /-- Reads a field of `target` by its name, whatever its access, into a slot; leaves null there if
  that throws. -/
  | readField (slot : UInt16) (type : FieldType) (target : Expr) (field : String)
      (cast : Option String)
  | ifThen (c : Cond) (yes : List Stmt)
  | ifElse (c : Cond) (yes no : List Stmt)
  | ret
  | retValue (value : Expr) (type : FieldType)
  /-- An expression evaluated for its effects. -/
  | discard (e : Expr) (hasValue : Bool)
  | block (stmts : List Stmt)
  deriving Inhabited

structure Method where
  flags : AccessFlags
  name : String
  type : MethodDescriptor
  body : List Stmt
  /-- True if the body can end without a return. -/
  fallsThrough : Bool

/-! ## Types of values -/

namespace ValueType

def text : ValueType → String
  | .void => "void"
  | .null => "<null>"
  | .of t => t.sourceName

def type? : ValueType → Option FieldType
  | .of t => some t
  | _ => none

def isString (v : ValueType) : Bool := v == .of .string

def isBoolean (v : ValueType) : Bool := v == .of .boolean

def isNumeric : ValueType → Bool
  | .of t => !t.isReference && t != .boolean
  | _ => false

def isReference : ValueType → Bool
  | .void => false
  | .null => true
  | .of t => t.isReference

end ValueType

end MethodGraft.Typed
