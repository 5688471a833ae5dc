import MethodGraft.Classpath.Hierarchy
import MethodGraft.Typed.Error

/-!
# Typed.Scope — what is in scope

A scope is the enclosing class, the imports, and the locals of the blocks around.  Leaving a block
is going back to the scope before it, which also frees the slots of its locals.
-/

namespace MethodGraft.Typed

open ClassFile

abbrev Binding := ExceptT Error (StateM Classpath.Resolver)

def look {α : Type} (x : Classpath.Resolve α) : Binding α := x.adapt .resolve

def ofDescriptor {α : Type} (r : Except ClassFile.Error α) : Binding α :=
  ExceptT.mk (pure (r.mapError .classFile))

def wrong {α : Type} (line : Nat) (fault : Fault) : Binding α := throw (.fault line fault)

def ungrammatical {α : Type} (line : Nat) (fault : Source.SyntaxFault) : Binding α :=
  throw (.source (.syntaxFault line fault))

def unsupported {α : Type} (line : Nat) (construct : Source.Construct) : Binding α :=
  throw (.source (.unsupported line construct))

structure Local where
  name : String
  slot : UInt16
  type : FieldType
  deriving DecidableEq, Repr

structure Scope where
  /-- Classes (`android.os.Build`) or packages (`android.os`, `android.os.*`). -/
  imports : List String
  /-- The enclosing class. -/
  self : Classpath.Summary
  isStatic : Bool
  /-- The result type; `none` for `void`. -/
  returnType : Option FieldType
  /-- The locals, the latest first. -/
  locals : List Local
  /-- The first free slot. -/
  nextSlot : Nat

namespace Scope

def find? (s : Scope) (name : String) : Option Local := s.locals.find? fun v => v.name == name

/-- The scope with one more local, and the local.  No local hides another one. -/
def declare (s : Scope) (name : String) (type : FieldType) (line : Nat) :
    Binding (Local × Scope) := do
  if (s.find? name).isSome then wrong line (.alreadyDefined name)
  let next := s.nextSlot + type.slots
  if next > 65535 then wrong line .tooManyLocals
  let v := ⟨name, UInt16.ofNat s.nextSlot, type⟩
  return (v, { s with locals := v :: s.locals, nextSlot := next })

def receiver (s : Scope) (line : Nat) : Binding (Expr × FieldType) := do
  if s.isStatic then wrong line (.nonStaticVariable "this")
  let type := FieldType.object s.self.name
  return (.local 0 type, type)

end Scope

end MethodGraft.Typed
