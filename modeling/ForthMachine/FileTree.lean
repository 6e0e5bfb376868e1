/-!
# Files and paths

Files lie in a tree of directories. A path leads through the parts between its slashes, from the
directory that one is in, or from the root with a slash in front. It ends at the first part that
cannot be taken, and the fault is that of this part.
-/

set_option autoImplicit false

namespace ForthMachine

inductive FileTree where
  | file (content : List UInt8)
  | directory (entries : List (String × FileTree))

inductive FileContent where
  | directory
  | bytes (content : List UInt8)
  deriving DecidableEq, Repr

def FileTree.content : FileTree → FileContent
  | file content => .bytes content
  | directory _ => .directory

inductive OpenFault where
  | missing
  | notDirectory
  | nameTooLong
  deriving DecidableEq, Repr

def OpenFault.message : OpenFault → String
  | .missing => "No such file or directory (os error 2)"
  | .notDirectory => "Not a directory (os error 20)"
  | .nameTooLong => "File name too long (os error 36)"

/-- A place in a tree, and the directories above it, the nearest first. -/
structure Location where
  place : FileTree
  above : List FileTree

namespace Location

def longestName : Nat := 255

def longestPath : Nat := 4095

/-- The directory above. The root is above itself. -/
def parent (here : Location) : Location :=
  match here.above with
  | [] => here
  | place :: above => { place, above }

def root (here : Location) : Location :=
  match here.above.getLast? with
  | none => here
  | some place => { place, above := [] }

/-- Goes on by one part of a path. A dot and an empty part stay where they are, but only in a
directory. -/
def step (here : Location) (name : String) : Except OpenFault Location :=
  match here.place with
  | .file _ => .error .notDirectory
  | .directory entries =>
    if longestName < name.utf8ByteSize then .error .nameTooLong
    else if name = "" ∨ name = "." then .ok here
    else if name = ".." then .ok here.parent
    else
      match entries.lookup name with
      | some place => .ok { place, above := here.place :: here.above }
      | none => .error .missing

def walk (here : Location) : List String → Except OpenFault Location
  | [] => .ok here
  | name :: names =>
    match here.step name with
    | .ok next => next.walk names
    | .error fault => .error fault

def find (here : Location) (path : String) : Except OpenFault FileContent :=
  if path = "" then .error .missing
  else if longestPath < path.utf8ByteSize then .error .nameTooLong
  else
    let start := if path.toList.head? = some '/' then here.root else here
    (start.walk (path.splitOn "/")).map (·.place.content)

end Location

end ForthMachine
