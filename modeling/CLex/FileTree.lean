namespace CLex

/-- A place in the tree: the components that lead to it, the last one first. The root of absolute
paths is the component `/`; leaving the current directory upwards gives components `..`. -/
abbrev Place := List String

structure FileTree where
  files : List (Place × List UInt8)
  directories : List Place
  deriving Repr

/-- Why a path leads to no file. -/
inductive PathFault where
  | missing
  | notDirectory
  | isDirectory
  | nameTooLong
  /-- The path holds the character NUL, which ends a path for the system. -/
  | nulByte
  deriving DecidableEq, Repr

namespace PathFault

def reason : PathFault → String
  | .missing => "No such file or directory"
  | .notDirectory => "Not a directory"
  | .isDirectory => "Is a directory"
  | .nameTooLong => "File name too long"
  | .nulByte => "embedded null byte"

/-- The number by which systems know the fault. -/
def number : PathFault → Nat
  | .missing => 2
  | .notDirectory => 20
  | .isDirectory => 21
  | .nameTooLong => 36
  | .nulByte => 22

end PathFault

namespace FileTree

inductive Entry where
  | file (bytes : List UInt8)
  | directory
  deriving DecidableEq, Repr

def isUpward (place : Place) : Bool :=
  place.all (· == "..")

/-- The entry at a place. A place is a directory if it is listed as one or something lies below it;
the current directory, those above it and the root are always there. -/
def entry? (tree : FileTree) (place : Place) : Option Entry :=
  match tree.files.find? (·.1 == place) with
  | some (_, bytes) => some (.file bytes)
  | none =>
    if isUpward place || place == ["/"] || tree.directories.any (place.isSuffixOf ·) ||
        tree.files.any (place.isSuffixOf ·.1) then
      some .directory
    else none

def parent : Place → Place
  | [] => [".."]
  | ["/"] => ["/"]
  | name :: above => if name = ".." then ".." :: name :: above else above

/-- The length in bytes of the longest component. -/
def maxComponent : Nat := 255

/-- The length in bytes of the longest path. -/
def maxPath : Nat := 4095

/-- Follows one component. A directory is needed for that; what the component names may be
missing. -/
def step (tree : FileTree) (place : Place) (component : String) : Except PathFault Place :=
  match tree.entry? place with
  | none => .error .missing
  | some (.file _) => .error .notDirectory
  | some .directory =>
    if component = "" ∨ component = "." then .ok place
    else if component = ".." then .ok (parent place)
    else if maxComponent < component.utf8ByteSize then .error .nameTooLong
    else .ok (component :: place)

/-- The place that a path leads to. Only the last component may be missing from the tree. -/
def resolve (tree : FileTree) (path : String) : Except PathFault Place :=
  if path.toList.contains '\x00' then .error .nulByte
  else if path = "" then .error .missing
  else if maxPath < path.utf8ByteSize then .error .nameTooLong
  else
    let start : Place := if path.front = '/' then ["/"] else []
    (path.splitOn "/").foldlM tree.step start

def read (tree : FileTree) (path : String) : Except PathFault (List UInt8) := do
  match tree.entry? (← tree.resolve path) with
  | some (.file bytes) => .ok bytes
  | some .directory => .error .isDirectory
  | none => .error .missing

/-- The tree with these bytes as the file at a path, whether there was one or not. -/
def write (tree : FileTree) (path : String) (bytes : List UInt8) : Except PathFault FileTree := do
  let place ← tree.resolve path
  match tree.entry? place with
  | some .directory => .error .isDirectory
  | _ => .ok { tree with files := (place, bytes) :: tree.files.filter (·.1 != place) }

def isDirectory (tree : FileTree) (path : String) : Bool :=
  match tree.resolve path with
  | .ok place => tree.entry? place == some .directory
  | .error _ => false

/-- The slashes that begin a path in its tidy form. Two of them are kept, since systems may give them
a meaning of their own; more than two are one. -/
def tidyRoot (path : String) : String :=
  match (path.toList.takeWhile (· == '/')).length with
  | 0 => ""
  | 2 => "//"
  | _ => "/"

/-- The shortest path that names the same place without looking at the tree: no empty components and
no single dots. -/
def tidy (path : String) : String :=
  let components := (path.splitOn "/").filter fun c => c != "" && c != "."
  let tidied := tidyRoot path ++ "/".intercalate components
  if tidied = "" then "." else tidied

/-- The place that a path leads to if everything on its way is a directory. -/
def placeOf (path : String) : Place :=
  ((path.splitOn "/").filter fun c => c != "" && c != ".").foldl
    (fun place c => if c = ".." then parent place else c :: place)
    (if path.front = '/' then ["/"] else [])

/-- The tree of the given files and directories and all directories above them. -/
def ofEntries (files : List (String × List UInt8)) (directories : List String) : FileTree where
  files := files.map fun file => (placeOf file.1, file.2)
  directories := directories.map placeOf

end FileTree

end CLex
