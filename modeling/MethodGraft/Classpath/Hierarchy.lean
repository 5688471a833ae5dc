import MethodGraft.Classpath.Resolver

/-!
# Classpath.Hierarchy — supertypes and inherited members

The supertypes of a class are listed in the order in which members are looked for: each class of the
superclass chain, followed by those of its interfaces that are not listed yet, depth first in the
order of declaration.
-/

namespace MethodGraft.Classpath

/-! ## 1. The order of supertypes -/

/-- A bound on the number of names that can turn up on a walk: those that stand in the tables of
interfaces and superclasses of all classes, a class file naming at most 65536, and a few that no
class file is needed for. -/
def Resolver.nameBound (r : Resolver) : Nat :=
  let known := r.cache.foldr (fun (_, found) n =>
    match found with
    | some s => s.interfaces.length + 1 + n
    | none => n) 0
  r.roots.foldr (fun root n => root.size * 65536 + n) (known + 4)

/-- Lists the interfaces in `pending`, and those above them, after the types already listed.  At
most `unlisted` names are not listed yet. -/
def visitInterfaces : (unlisted : Nat) → (listed : List Summary) → (pending : List String) →
    Resolve (List Summary)
  | 0, listed, _ => return listed
  | unlisted + 1, listed, pending =>
    -- what has been listed on another way is not listed again
    match pending.dropWhile fun i => listed.any (·.name == i) with
    | [] => return listed
    | i :: pending => do
      let s ← resolve i
      -- depth first: what stands above an interface comes before its neighbours
      visitInterfaces unlisted (listed ++ [s]) (s.interfaces ++ pending)

/-- Lists the class `next`, its interfaces and its superclasses after the types already listed.  The
classes in `chain` lead from `start` to `next`; at most `unchained` names are not among them. -/
def climb (start : String) (unlisted : Nat) : (unchained : Nat) → (chain : List String) →
    (listed : List Summary) → (next : Option String) → Resolve (List Summary)
  | _, _, listed, none => return listed
  | unchained, chain, listed, some name => do
    if chain.contains name then throw (.malformed start (.cyclic name))
    match unchained with
    -- not reached: a chain without repetitions is no longer than the bound
    | 0 => throw (.malformed start (.cyclic name))
    | unchained + 1 =>
      let s ← resolve name
      -- a class may name its own superclass among its interfaces
      let listed := if listed.any (·.name == s.name) then listed else listed ++ [s]
      let listed ← visitInterfaces unlisted listed s.interfaces
      climb start unlisted unchained (name :: chain) listed s.superName?

def hierarchy (name : String) : Resolve (List Summary) := do
  let bound := (← get).nameBound
  climb name bound bound [] [] (some name)

/-! ## 2. Members -/

structure Declared where
  owner : Summary
  member : MemberSummary
  deriving DecidableEq, Repr

def fieldIn? (name : String) (owners : List Summary) : Option Declared :=
  owners.findSome? fun owner =>
    (owner.fields.find? fun f => f.name == name).map fun f => ⟨owner, f⟩

def addUnhidden (found : List Declared) (m : Declared) : List Declared :=
  if found.any fun f => f.member.descriptor == m.member.descriptor then found else found ++ [m]

/-- The methods of this name in the classes `owners`.  A method hides those with the same descriptor
after it. -/
def methodsIn (name : String) (owners : List Summary) : List Declared :=
  let all := owners.flatMap fun owner =>
    (owner.methods.filter fun m => m.name == name).map fun m => ⟨owner, m⟩
  all.foldl addUnhidden []

def findField? (className name : String) : Resolve (Option Declared) := do
  return fieldIn? name (← hierarchy className)

def findMethods (className name : String) : Resolve (List Declared) := do
  return methodsIn name (← hierarchy className)

/-! ## 3. Assignment -/

def isSubclass (sub super : String) : Resolve Bool := do
  -- these answers need no class file, so that missing classes do no harm
  if sub = super ∨ super = ClassFile.FieldType.rootClass then return true
  return (← hierarchy sub).any fun s => s.name == super

open ClassFile FieldType in
/-- True if values of the first primitive type become values of the second, larger one. -/
def widens : FieldType → FieldType → Bool
  | .byte, .short | .byte, .int | .byte, .long | .byte, .float | .byte, .double => true
  | .short, .int | .short, .long | .short, .float | .short, .double => true
  | .char, .int | .char, .long | .char, .float | .char, .double => true
  | .int, .long | .int, .float | .int, .double => true
  | .long, .float | .long, .double => true
  | .float, .double => true
  | _, _ => false

open ClassFile in
/-- True if a value of the type `source` can be passed where `target` is expected: the types are the
same, or the value is widened to a larger primitive type or to a supertype. -/
def isAssignable (source target : FieldType) : Resolve Bool :=
  if source = target then return true
  else
    match source, target with
    | .object a, .object b => isSubclass a b
    | .array _, .object b => return b == FieldType.rootClass || Summary.arrayInterfaces.contains b
    | .array a, .array b =>
      -- an array of `int`s is no array of `long`s
      if a.isReference && b.isReference then isAssignable a b else return false
    | _, _ => return !source.isReference && !target.isReference && widens source target

end MethodGraft.Classpath
