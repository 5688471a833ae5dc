import MethodGraft.ClassFile.Codec
import MethodGraft.Classpath.Root
import MethodGraft.Classpath.Summary

/-!
# Classpath.Resolver — class names and what they mean

A name means the class last defined under it, else the class in the first root that has it.  What
was found, and also that nothing was found, is remembered, so no root is asked twice about a name
unless it failed.
-/

namespace MethodGraft.Classpath

open ClassFile

structure Resolver where
  roots : List Root := []
  /-- Known names; `none` means that no root has the class. -/
  cache : List (String × Option Summary) := []
  /-- How often a root was asked for a class. -/
  lookups : Nat := 0

abbrev Resolve := ExceptT Error (StateM Resolver)

namespace Resolver

def remember (r : Resolver) (name : String) (found : Option Summary) : Resolver :=
  { r with cache := (name, found) :: r.cache.filter fun (n, _) => n != name }

end Resolver

def pushRoot (root : Root) : Resolve Unit :=
  modify fun r => { r with roots := r.roots ++ [root] }

def ofExcept {α : Type} (x : Except Error α) : Resolve α := ExceptT.mk (pure x)

def summarize (name : String) (bytes : List UInt8) : Except Error Summary := do
  let malformed := Error.malformed name
  let c ← (decode bytes).mapError fun e => malformed (.file e)
  let s ← (Summary.ofClass c).mapError fun e => malformed (.file e)
  -- a class file in the place of another is no class of that name
  if s.name = name then return s else throw (malformed (.misnamed name s.name))

/-- Searches roots for a class; the first one that has it counts. -/
def load (name : String) : List Root → Resolve (Option Summary)
  | [] => return none
  | root :: roots => do
    modify fun r => { r with lookups := r.lookups + 1 }
    -- an unreadable root is an error, even if a later one has the class
    match ← ofExcept (root.classBytes name) with
    | some bytes => return some (← ofExcept (summarize name bytes))
    | none => load name roots

def resolve? (name : String) : Resolve (Option Summary) := do
  let r ← get
  match r.cache.lookup name with
  | some known => return known
  | none =>
    -- arrays are classes without a file
    let found ← if name.toList.head? = some '[' then pure (some (Summary.ofArray name))
      else load name r.roots
    -- an error is not remembered, so the roots are asked again
    modify (·.remember name found)
    return found

def resolve (name : String) : Resolve Summary := do
  match ← resolve? name with
  | some s => return s
  | none => throw (.notFound name)

def define (c : ClassFile) : Resolve Summary := do
  match Summary.ofClass c with
  | .ok s =>
    modify (·.remember s.name (some s))
    return s
  | .error e => throw (.malformed (c.name.toOption.getD "?") (.file e))

end MethodGraft.Classpath
