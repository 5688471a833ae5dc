/-!
# Files.Path — paths and their parts

A path is split at its slashes.  Empty parts mean nothing, except that a path with a slash at its
end names a directory.
-/

namespace MethodGraft.Files

inductive Step where
  /-- The directory itself; at the end of a path it asks for a directory. -/
  | here
  /-- The directory above. -/
  | up
  | into (name : String)
  deriving DecidableEq, Repr

structure Path where
  text : String
  absolute : Bool
  steps : List Step
  deriving DecidableEq, Repr

def splitAt (c : Char) : (s : List Char) → List (List Char)
  | [] => [[]]
  | d :: s =>
    if d = c then [] :: splitAt c s
    else match splitAt c s with
      | [] => [[d]]
      | part :: parts => (d :: part) :: parts

def Step.ofText? (part : String) : Option Step :=
  if part = "" then none
  else if part = "." then some .here
  else if part = ".." then some .up
  else some (.into part)

def stepsOf (text : List Char) : List Step :=
  (splitAt '/' text).filterMap fun part => Step.ofText? (String.ofList part)

namespace Path

def ofText (text : String) : Path :=
  let s := text.toList
  let steps := stepsOf s
  { text
    absolute := s.head? == some '/'
    -- a slash at the end asks for a directory, as a dot does
    steps := if s.getLast? == some '/' then steps ++ [.here] else steps }

/-- The steps without those at the end that stay where they are, the last one first. -/
def backward (p : Path) : List Step := p.steps.reverse.dropWhile (· == .here)

/-- The name of the file or directory that the path leads to, if its last step gives one. -/
def fileName? (p : Path) : Option String :=
  match p.backward with
  | .into name :: _ => some name
  | _ => none

def parentSteps (p : Path) : List Step := p.backward.tail.reverse

def endsInDirectory (p : Path) : Bool := p.steps.getLast? == some .here

def endsInDot (p : Path) : Bool := (stepsOf p.text.toList).getLast? == some .here

/-- A name without its extension: what stands before its last dot, unless that is nothing. -/
def stem (name : String) : String :=
  match (name.toList.reverse.dropWhile (· != '.')).drop 1 with
  | [] => name
  | before => String.ofList before.reverse

/-- The path of the class `name` in the directory `p`: a step for each part of the name, and the
extension `class`. -/
def ofClass (p : Path) (name : String) : Path :=
  let steps := p.steps ++ stepsOf name.toList
  match steps.reverse.dropWhile (· == .here) with
  -- only the last extension of the name is replaced
  | .into last :: before => { p with steps := before.reverse ++ [.into (stem last ++ ".class")] }
  | _ => { p with steps }

end Path

end MethodGraft.Files
