import CLex.CommandLine.Run

namespace CLex.Program

/-- The paths on the way to a path, the path itself last. -/
def waypoints (path : String) : List String :=
  let components := path.splitOn "/"
  (List.range components.length).map fun n =>
    let way := "/".intercalate (components.take (n + 1))
    if way = "" then "/" else way

/-- Adds what is found at a path to a tree. -/
def look (tree : FileTree) (path : String) : IO FileTree := do
  try
    if ← (← IO.FS.realPath path).isDir then
      pure { tree with directories := FileTree.placeOf path :: tree.directories }
    else
      let bytes ← IO.FS.readBinFile path
      pure { tree with files := (FileTree.placeOf path, bytes.toList) :: tree.files }
  catch _ => pure tree

partial def readInput (input : IO.FS.Stream) (before : ByteArray) : IO ByteArray := do
  let bytes ← input.read 0x10000
  if bytes.isEmpty then pure before else readInput input (before ++ bytes)

/-- The paths that a run with these arguments can touch: its input and its output. -/
def paths (arguments : List String) : List String × Option String :=
  match CommandLine.request (fun _ => false) arguments with
  | .ok (.read settings) => ([settings.input], CommandLine.outputPath? settings)
  | _ => ([], none)

end CLex.Program

open CLex Program in
/-- Runs the command with the given arguments. -/
def main (arguments : List String) : IO UInt32 := do
  let (inputs, output?) := paths arguments
  let given := (CommandLine.readArguments {} arguments).toOption.bind (·.output)
  let ways := (inputs ++ output?.toList ++ given.toList).flatMap waypoints
  let tree ← ways.foldlM look ⟨[], []⟩
  let console ←
    if inputs.contains "-" then readInput (← IO.getStdin) ByteArray.empty
    else pure ByteArray.empty
  let outcome := CommandLine.run ⟨tree, some console.toList⟩ arguments
  if let some path := output? then
    if let .ok bytes := outcome.tree.read path then
      unless (tree.read path).toOption == some bytes do
        IO.FS.writeBinFile path ⟨bytes.toArray⟩
  (← IO.getStdout).putStr outcome.stdout
  (← IO.getStderr).putStr outcome.stderr
  pure outcome.exit.toUInt32
