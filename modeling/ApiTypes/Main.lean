import ApiTypes.CommandLine.Run

/-!
  The program.

  It reads what its command needs, asks the library what to do, and does it. A directory is read
  with everything in it.
-/

open ApiTypes ApiTypes.CommandLine

/-- Reads a file. -/
def readText (path : String) : IO FileEntry :=
  try
    return .text (← IO.FS.readFile path)
  catch e =>
    return .unreadable (toString e)

/-- Reads what is at a path, if there is anything. -/
partial def readEntry (path : String) : IO (Option FileEntry) :=
  try
    let found ← IO.FS.realPath path
    if ← found.isDir then
      let mut entries := []
      for inner in ← found.readDir do
        if let some entry ← readEntry inner.path.toString then
          entries := Entries.insertSorted inner.fileName entry entries
      return some (.directory entries)
    return some (← readText path)
  catch _ =>
    return none

/-- Reads what is at each of some paths. -/
def readFiles (paths : List String) : IO Files := do
  let entries ← paths.mapM fun path => do
    return (path, ← readEntry path)
  return fun path => (entries.lookup path).join

/-- Writes the file of an outcome. -/
def writeOutput (outcome : Outcome) : IO Outcome := do
  match outcome.output with
  | none => return outcome
  | some (path, content) =>
    try
      IO.FS.writeFile path content
      return outcome
    catch e =>
      return outcome.writeFailed path (toString e)

/-- Runs a command line. -/
def main (arguments : List String) : IO UInt32 := do
  let outcome ← match Command.read arguments with
    | .error stop => pure stop.outcome
    | .ok command =>
      let files ← readFiles command.inputs
      writeOutput (command.run files)
  (← IO.getStdout).putStr outcome.stdout
  (← IO.getStderr).putStr outcome.stderr
  return outcome.status.toUInt32
