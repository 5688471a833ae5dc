import MethodGraft.Files.Error
import MethodGraft.Files.Path

/-!
# Files.Tree — a tree of directories and files

A tree is a table from locations to what is there.  A path is followed step by step, and every step
is made from a directory.
-/

namespace MethodGraft.Files

abbrev Location := List String

inductive Node where
  | directory
  | file (content : List UInt8)
  deriving DecidableEq, Repr

structure Tree where
  nodes : List (Location × Node) := []
  workingDirectory : Location := []
  deriving Repr

/-- Something done to a tree, which may fail; what was done before stays done. -/
abbrev Action (ε : Type) := ExceptT ε (StateM Tree)

namespace Tree

/-! ## 1. The table -/

/-- What is at a location.  The root is always a directory. -/
def get? (t : Tree) (l : Location) : Option Node :=
  if l = [] then some .directory else t.nodes.lookup l

def put (t : Tree) (l : Location) (n : Node) : Tree :=
  { t with nodes := (l, n) :: t.nodes.filter fun (m, _) => m != l }

def remove (t : Tree) (l : Location) : Tree :=
  { t with nodes := t.nodes.filter fun (m, _) => m != l }

/-! ## 2. Following paths -/

def move (l : Location) : Step → Location
  | .here => l
  | .up => l.dropLast
  | .into name => l ++ [name]

def nameLimit : Nat := 255

def fits : Step → Bool
  | .into name => name.utf8ByteSize ≤ nameLimit
  | _ => true

/-- Where steps lead from `l`.  The last one may lead to nothing. -/
def follow (t : Tree) : Location → List Step → Except Fault Location
  | l, [] => .ok l
  | l, s :: steps =>
    match t.get? l with
    -- every step is made from a directory, `up` included
    | some .directory => if fits s then t.follow (move l s) steps else .error .other
    | some (.file _) => .error .other
    | none => .error .notFound

def startOf (t : Tree) (p : Path) : Location := if p.absolute then [] else t.workingDirectory

/-- True if a step can be made: no name holds the character NUL. -/
def canStep : Step → Bool
  | .into name => !name.toList.contains '\x00'
  | _ => true

def locate (t : Tree) (p : Path) : Except Fault Location :=
  -- the whole path is refused before a step is made
  if p.steps.all canStep then t.follow (t.startOf p) p.steps else .error .other

def find? (t : Tree) (p : Path) : Option Node :=
  match t.locate p with
  | .ok l => t.get? l
  | .error _ => none

def isDirectory (t : Tree) (p : Path) : Bool := t.find? p == some .directory

def read (t : Tree) (p : Path) : Except Fault (List UInt8) := do
  match t.get? (← t.locate p) with
  | some (.file content) => return content
  | some .directory => .error .other
  | none => .error .notFound

def read? (t : Tree) (p : Path) : Option (List UInt8) := (t.read p).toOption

def filesBelow (t : Tree) (l : Location) : List Location :=
  t.nodes.filterMap fun (m, n) =>
    match n with
    -- places are compared, not paths
    | .file _ => if l.isPrefixOf m then some (m.drop l.length) else none
    | .directory => none

def listing (t : Tree) (p : Path) : List String :=
  match t.locate p with
  | .ok l => ((t.filesBelow l).map fun m => "/".intercalate m).mergeSort
  | .error _ => []

end Tree

/-! ## 3. Changing the tree -/

def ensureDirectory (l : Location) : Action Fault Unit := do
  match (← get).get? l with
  | some .directory => return
  -- a file in the way is not replaced
  | some (.file _) => throw .other
  | none => modify fun t => t.put l .directory

def createDirectories : Location → List Step → Action Fault Unit
  | l, [] => ensureDirectory l
  | l, s :: steps => do
    ensureDirectory l
    -- the directories before the step stay
    if !Tree.fits s then throw .other
    createDirectories (Tree.move l s) steps

/-- Makes the directory that holds the file at a path, unless it is there, and returns its
location. -/
def createParent (p : Path) : Action Fault Location := do
  if !p.parentSteps.all Tree.canStep then throw .other
  let start := (← get).startOf p
  createDirectories start p.parentSteps
  ExceptT.mk (pure ((← get).follow start p.parentSteps))

def writeFile (l : Location) (name : String) (content : List UInt8) : Action Fault Unit := do
  if !Tree.canStep (.into name) || !Tree.fits (.into name) then throw .other
  let target := l ++ [name]
  match (← get).get? target with
  | some .directory => throw .other
  | _ => modify fun t => t.put target (.file content)

/-- Refuses a path that can lead to a directory only.  One whose last part is a dot is followed, so
that a missing directory before the dot is told. -/
def expectFilePath (p : Path) : Action Fault Unit := do
  if p.endsInDot then
    let _ ← ExceptT.mk (pure ((← get).locate p))
  if p.endsInDirectory then throw .other

def writePath (p : Path) (content : List UInt8) : Action Fault Unit := do
  let some name := p.fileName? | throw .other
  let l ← createParent p
  expectFilePath p
  writeFile l name content

def renameFile (source target : Location) : Action Fault Unit := do
  let t ← get
  match t.get? source, t.get? target with
  | _, some .directory => throw .other
  -- one step: nobody sees the tree without either file
  | some n, _ => set ((t.remove source).put target n)
  | none, _ => throw .notFound

end MethodGraft.Files
