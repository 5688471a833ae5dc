import MethodGraft.Archive.Directory
import MethodGraft.Classpath.Error
import MethodGraft.Files.Tree
import MethodGraft.Text.Blank

/-!
# Classpath.Root — where classes are found

A classpath is a list of roots, each of which may serve the bytes of a class: a list of class files,
an archive with an entry for each class, or a directory with a file for each.
-/

namespace MethodGraft.Classpath

inductive Root where
  | classes (served : List (String × List UInt8))
  | archive (archive : Archive)
  /-- The directory at `path` in a tree of files. -/
  | directory (tree : Files.Tree) (path : Files.Path)

namespace Root

def classBytes (r : Root) (name : String) : Except Error (Option (List UInt8)) :=
  match r with
  | .classes served => .ok (served.lookup name)
  | .archive a => (a.contentOf? (name ++ ".class")).mapError .unreadable
  | .directory tree path => .ok (tree.read? (path.ofClass name))

def size : Root → Nat
  | .classes served => served.length
  | .archive a => a.entries.length
  | .directory tree _ => tree.nodes.length

end Root

/-! ## 1. Roots named by paths -/

/-- A path on a classpath: a directory of class files, or an archive. -/
inductive Entry where
  | archive (path : Files.Path)
  | directory (path : Files.Path)
  deriving DecidableEq, Repr

namespace Entry

/-- Directories are searched for class files; anything else is taken for an archive. -/
def ofPath (tree : Files.Tree) (path : Files.Path) : Entry :=
  if tree.isDirectory path then .directory path else .archive path

/-- The entries of a list whose items are separated by colons.  Blanks around items mean nothing,
and empty items are left out. -/
def parseList (tree : Files.Tree) (text : String) : List Entry :=
  ((Files.splitAt ':' text.toList).map Blank.trim).filterMap fun item =>
    if item.isEmpty then none else some (ofPath tree (.ofText (String.ofList item)))

def openRoot (tree : Files.Tree) : Entry → Except Error Root
  | .directory path => .ok (.directory tree path)
  | .archive path =>
    match tree.read path with
    | .ok bytes => ((Archive.ofBytes bytes).map .archive).mapError .unreadable
    | .error e => .error (.unreadable (.io e))

end Entry

end MethodGraft.Classpath
