import ModuleBridge.Command.Run

/-!
# The command line

Commands on the real files. Paths are taken from the working folder of the process.
-/

namespace ModuleBridge

/-- A fault of the system in the words of this library. -/
def faultOf : IO.Error → FileFault
  | .noFileOrDirectory .. => .missing
  | .alreadyExists .. => .alreadyThere
  | e => .refused (toString e)

def guardFiles {α : Type} (action : IO α) : IO (Except FileFault α) := do
  try return .ok (← action) catch e => return .error (faultOf e)

/-- The kind of what is at a path, if anything is. -/
def kindAt? (path : String) : IO (Option IO.FS.FileType) := do
  try return some (← ((← IO.currentDir) / path).metadata).type catch _ => return none

/-- The names in a folder of what is of the given kind. -/
def namesIn (path : String) (kind : IO.FS.FileType) : IO (List String) := do
  try
    let entries ← ((← IO.currentDir) / path).readDir
    (entries.toList.map (·.fileName)).filterM fun name =>
      return (← kindAt? (DiskPath.join path name)) == some kind
  catch _ => return []

instance : Disk IO where
  workingFolder := return (← IO.currentDir).toString
  isPresent path := return (← kindAt? path).isSome
  isFile path := return (← kindAt? path) == some .file
  filesIn path := namesIn path .file
  foldersIn path := namesIn path .dir
  -- No path of more bytes than this can be opened.
  depth := return 4096
  readBytes path := do
    if (← kindAt? path) == some .dir then return .error .isFolder
    else guardFiles (do IO.FS.readBinFile ((← IO.currentDir) / path))
  writeText path text := do
    if (← kindAt? path) == some .dir then return .error .isFolder
    else guardFiles (do IO.FS.writeFile ((← IO.currentDir) / path) text)
  makeFolders path := do
    if (← kindAt? path) == some .file then return .error .alreadyThere
    else guardFiles (do IO.FS.createDirAll ((← IO.currentDir) / path))

end ModuleBridge

def main (arguments : List String) : IO UInt32 := do
  let report : ModuleBridge.Report ← ModuleBridge.runCommand arguments
  IO.print report.out
  IO.eprint report.err
  return report.exitCode.toUInt32
