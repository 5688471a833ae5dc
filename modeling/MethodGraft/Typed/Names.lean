import MethodGraft.Typed.Scope

/-!
# Typed.Names — class names in source text

A simple name is looked for as the enclosing class or one of its members, a class import, a class of
the same package, a class of an imported package, a class of `java.lang`, in this order.  A dotted
name may end in nested classes.
-/

namespace MethodGraft.Typed

open ClassFile Classpath

def exists? (name : String) : Binding Bool := do
  return (← look (resolve? name)).isSome

def nestLast (name : List Char) : List Char :=
  let after := name.reverse.takeWhile (· != '/')
  match name.reverse.dropWhile (· != '/') with
  | _ :: before => before.reverse ++ '$' :: after.reverse
  -- without a slash there is nothing to replace
  | [] => name

/-- The first class among `name` and the names made from it by replacing the last slash, again and
again; there are `slashes` of them. -/
def resolveNested? : (slashes : Nat) → (name : List Char) → Binding (Option String)
  | 0, name => do
    let name := String.ofList name
    return if ← exists? name then some name else none
  | slashes + 1, name => do
    -- a package wins over a class around it: the name is tried as it stands first
    if ← exists? (String.ofList name) then return some (String.ofList name)
    resolveNested? slashes (nestLast name)

def slashed (name : String) : String := name.map fun c => if c = '.' then '/' else c

/-- The class that a dotted name stands for: `a.b.C` is `a/b/C`, else `a/b$C`, else `a$b$C`. -/
def resolveDotted? (name : String) : Binding (Option String) :=
  let internal := (slashed name).toList
  resolveNested? (internal.count '/') internal

def memberClass (owner name : String) : String := owner ++ "$" ++ name

def innermostName (name : String) : String :=
  String.ofList (name.toList.reverse.takeWhile fun c => c != '/' && c != '$').reverse

def lastPart (name : String) : String :=
  String.ofList (name.toList.reverse.takeWhile (· != '.')).reverse

def isOnDemand (name : String) : Bool := ['*', '.'].isPrefixOf name.toList.reverse

/-- The package of an import of all its classes; anything else may be a package too. -/
def importedPackage (name : String) : String :=
  if isOnDemand name then String.ofList (name.toList.reverse.drop 2).reverse else name

def resolveImported? (name : String) : (imports : List String) → Binding (Option String)
  | [] => return none
  | i :: imports => do
    match ← resolveDotted? (importedPackage i ++ "." ++ name) with
    | some c => return some c
    | none => resolveImported? name imports

def inPackage (package name : String) : String :=
  if package = "" then name else package ++ "/" ++ name

def Scope.lookupClass? (s : Scope) (name : String) : Binding (Option String) := do
  let self := s.self.name
  -- the class itself, then its members, then imports, then packages
  if innermostName self = name then return some self
  if ← exists? (memberClass self name) then return some (memberClass self name)
  match s.imports.find? fun i => !isOnDemand i && lastPart i == name with
  | some i =>
    match ← resolveDotted? i with
    | some c => return some c
    -- an import that names nothing is an error as soon as it is used, and no other meaning is tried
    | none => throw (.resolve (.notFound (slashed i)))
  | none =>
    let own := inPackage (packageOf self) name
    if ← exists? own then return some own
    if let some c ← resolveImported? name s.imports then return some c
    let standard := "java/lang/" ++ name
    return if ← exists? standard then some standard else none

/-- The member class that `names` lead to from the class `owner`, each a member of the one
before. -/
def resolveMembers? (owner : String) : (names : List String) → Binding (Option String)
  | [] => return some owner
  | n :: names => do
    if ← exists? (memberClass owner n) then resolveMembers? (memberClass owner n) names
    else return none

def Scope.typeClass (s : Scope) (first : String) (more : List String) (line : Nat) :
    Binding String := do
  let name := ".".intercalate (first :: more)
  let found ← match ← s.lookupClass? first with
    | some c => resolveMembers? c more
    -- only where the first name is no class can the dots lead through packages
    | none => if more.isEmpty then pure none else resolveDotted? name
  match found with
  | some c => return c
  | none => wrong line (.noClass name)

def arrayOf (t : FieldType) : (dims : Nat) → FieldType
  | 0 => t
  | dims + 1 => .array (arrayOf t dims)

def Scope.resolveType (s : Scope) (t : Source.TypeName) : Binding FieldType := do
  match t.head with
  | .void => ungrammatical t.line .voidType
  | .primitive p => return arrayOf p.type t.dims
  | .named first more => return arrayOf (.object (← s.typeClass first more t.line)) t.dims

end MethodGraft.Typed
