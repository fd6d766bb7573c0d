import ModuleAtlas.Command.Run

/-!
# The command line program

Reads the files below the working directory and below the project root, and runs the command on
them.
-/

namespace ModuleAtlas.Program

/-- The file or directory at a path as part of a tree. -/
def addEntry (t : Tree) (path : String) (isDir : Bool) : IO Tree := do
  if isDir then return t.makeDirectory ⟨path⟩
  try
    let bytes ← IO.FS.readBinFile path
    match String.fromUTF8? bytes with
    | some s => return t.write ⟨path⟩ (.text s)
    | none => return t.write ⟨path⟩ .binary
  catch _ => return t

/-- The tree with everything below a directory. -/
def addBelow (t : Tree) (dir : String) : IO Tree := do
  try
    let top ← IO.FS.realPath dir
    let mut t := t.makeDirectory ⟨top.toString⟩
    for path in ← top.walkDir do
      t ← addEntry t path.toString (← path.isDir)
    return t
  catch _ => return t

/-- Runs a command line; the exit code is 2 for a malformed one and 1 for a failure. -/
def run (args : List String) : IO UInt32 := do
  match Command.parse? args with
  | none =>
    IO.eprintln "error: invalid arguments"
    return 2
  | some (options, request) =>
    let cwd := (← IO.currentDir).toString
    let tree ← addBelow (← addBelow {} cwd) options.root
    match Command.run tree ⟨cwd⟩ options request with
    | .ok lines =>
      for line in lines do
        IO.println line
      return 0
    | .error e =>
      IO.eprintln ("Error: " ++ e.message)
      return 1

end ModuleAtlas.Program

/-- Runs the command line of the program. -/
def main (args : List String) : IO UInt32 := ModuleAtlas.Program.run args
