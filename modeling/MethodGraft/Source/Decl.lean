import MethodGraft.Source.Token

/-!
# Source.Decl — method declarations

The tree of a method declaration.  Every node keeps the line it starts on; an operator keeps the
line of its symbol.
-/

namespace MethodGraft.Source

inductive TypeHead where
  | void
  | primitive (p : Primitive)
  /-- A class by its simple name, or by several names with dots between. -/
  | named (first : String) (more : List String)
  deriving DecidableEq, Repr

structure TypeName where
  head : TypeHead
  dims : Nat
  line : Nat
  deriving DecidableEq, Repr

namespace TypeHead

def text : TypeHead → String
  | .void => "void"
  | .primitive p => p.word.text
  | .named first more => ".".intercalate (first :: more)

end TypeHead

def TypeName.isVoid (t : TypeName) : Bool := t.head == .void && t.dims == 0

inductive Literal where
  | int (value : Int32)
  | long (value : Int64)
  | bool (value : Bool)
  | char (unit : UInt16)
  | str (text : String)
  | null
  deriving DecidableEq, Repr

inductive BinaryOp where
  | or
  | and
  | eq
  | ne
  | lt
  | le
  | gt
  | ge
  | add
  deriving DecidableEq, Repr

def BinaryOp.symbol : BinaryOp → Symbol
  | .or => .orOr
  | .and => .andAnd
  | .eq => .eqEq
  | .ne => .notEq
  | .lt => .less
  | .le => .lessEq
  | .gt => .greater
  | .ge => .greaterEq
  | .add => .plus

inductive Expr where
  | literal (value : Literal) (line : Nat)
  | this (line : Nat)
  /-- A bare name: a local, a field of the enclosing class, a class or the start of a package. -/
  | name (name : String) (line : Nat)
  | field (target : Expr) (name : String) (line : Nat)
  /-- A call of a method of the enclosing class. -/
  | call (name : String) (args : List Expr) (line : Nat)
  | callOn (target : Expr) (name : String) (args : List Expr) (line : Nat)
  | not (operand : Expr) (line : Nat)
  | binary (op : BinaryOp) (lhs rhs : Expr) (line : Nat)
  | cast (type : TypeName) (operand : Expr) (line : Nat)
  deriving Repr, Inhabited

namespace Expr

def line : Expr → Nat
  | .literal _ line | .this line | .name _ line | .field _ _ line | .call _ _ line
  | .callOn _ _ _ line | .not _ line | .binary _ _ _ line | .cast _ _ line => line

def dottedName? : Expr → Option String
  | .name n _ => some n
  | .field target n _ => target.dottedName?.map fun t => t ++ "." ++ n
  | _ => none

def isCall : Expr → Bool
  | .call .. | .callOn .. => true
  | _ => false

end Expr

inductive Stmt where
  | declare (type : TypeName) (name : String) (init : Expr) (line : Nat)
  | ifThen (condition : Expr) (yes : Stmt) (line : Nat)
  | ifElse (condition : Expr) (yes no : Stmt) (line : Nat)
  | ret (line : Nat)
  | retValue (value : Expr) (line : Nat)
  | call (expr : Expr) (line : Nat)
  /-- Statements in braces, with the line of the closing one. -/
  | block (stmts : List Stmt) (endLine : Nat)
  deriving Repr, Inhabited

/-- The line of a statement; of a block, that of its first statement. -/
def Stmt.line : Stmt → Nat
  | .declare _ _ _ line | .ifThen _ _ line | .ifElse _ _ _ line | .ret line | .retValue _ line
  | .call _ line => line
  | .block [] endLine => endLine
  | .block (s :: _) _ => s.line

structure Param where
  type : TypeName
  name : String
  line : Nat
  deriving DecidableEq, Repr

structure MethodDecl where
  modifiers : List Keyword
  returnType : TypeName
  name : String
  params : List Param
  body : List Stmt
  /-- The line of the closing brace of the body. -/
  endLine : Nat
  line : Nat
  deriving Repr

end MethodGraft.Source
