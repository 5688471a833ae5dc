import MethodGraft.ClassFile.Edit
import MethodGraft.Source.Lexer
import MethodGraft.Source.Parser
import MethodGraft.Typed.Bind
import MethodGraft.Typed.Emit

/-!
# Typed.Compile — source text to a method of a class

The names of the text are resolved against the class as it is and against the classpath.  The method
is not added to the class, but the constants that it needs are.
-/

namespace MethodGraft.Typed

open ClassFile Classpath

structure Session where
  file : ClassFile
  resolver : Resolver

/-- A step of compiling, which may fail; what it learned and interned stays. -/
abbrev Compilation := ExceptT Error (StateM Session)

namespace Compilation

def bind {α : Type} (x : Binding α) : Compilation α := do
  let s ← get
  let (r, resolver) := x.run.run s.resolver
  set { s with resolver }
  ExceptT.mk (pure r)

def edit {α : Type} (x : Edit α) : Compilation α := do
  let s ← get
  let (r, file) := x.run.run s.file
  set { s with file }
  ExceptT.mk (pure (r.mapError .classFile))

end Compilation

def parseSource (source : String) : Except Source.Error Source.MethodDecl := do
  Source.parseMethod (← Source.tokenize source)

def compile (imports : List String) (source : String) : Compilation Member := do
  let d ← ExceptT.mk (pure ((parseSource source).mapError Error.source))
  let file := (← get).file
  let self ← Compilation.bind (look (define file))
  let m ← Compilation.bind (bindMethod imports self d)
  Compilation.edit do
    let owner ← Edit.ask ClassFile.name
    let code ← Edit.intern (m.code owner file.majorVersion)
    let nameIndex ← Edit.intern (Interning.utf8 m.name)
    let descriptorIndex ← Edit.intern (Interning.utf8 m.type.descriptor)
    return ⟨m.flags, nameIndex, descriptorIndex, [.code code]⟩

end MethodGraft.Typed
