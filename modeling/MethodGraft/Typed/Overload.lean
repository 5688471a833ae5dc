import MethodGraft.Typed.Conversion

/-!
# Typed.Overload — which method a call means

Of the methods of the name, those are applicable that take as many arguments and accept each of
them.  The call means the one applicable method whose parameters can be passed to all the others.
-/

namespace MethodGraft.Typed

open ClassFile Classpath

structure Candidate where
  method : Declared
  type : MethodDescriptor

def applicable (args : List Value) : (methods : List Declared) → Binding (List Candidate)
  | [] => return []
  | m :: methods => do
    -- a descriptor that cannot be read stops the call, whether or not it would fit
    let type ← ofDescriptor (MethodDescriptor.ofDescriptor m.member.descriptor)
    -- the number decides before any type is looked at
    let fits ← if type.params.length = args.length
      then (args.zip type.params).allM fun (arg, param) => accepts arg.type param
      else pure false
    let rest ← applicable args methods
    return if fits then ⟨m, type⟩ :: rest else rest

def isMoreSpecific (a b : MethodDescriptor) : Binding Bool :=
  (a.params.zip b.params).allM fun (p, q) => look (isAssignable p q)

/-- Those of the candidates, the first of which has index `i` in `all`, that are more specific than
all others. -/
def mostSpecific (all : List Candidate) : (i : Nat) → (candidates : List Candidate) →
    Binding (List Candidate)
  | _, [] => return []
  | i, c :: candidates => do
    -- a method is compared with all others but itself, by its place: two may be equal
    let isMost ← (all.eraseIdx i).allM fun other => isMoreSpecific c.type other.type
    let rest ← mostSpecific all (i + 1) candidates
    return if isMost then c :: rest else rest

def selectOverload (methods : List Declared) (args : List Value) (name : String) (line : Nat) :
    Binding Candidate := do
  let all ← applicable args methods
  match ← mostSpecific all 0 all with
  | [c] => return c
  | [] =>
    if all.isEmpty then wrong line (.noSuitableMethod name (args.map (·.type)))
    wrong line (.ambiguous name)
  | _ => wrong line (.ambiguous name)

end MethodGraft.Typed
