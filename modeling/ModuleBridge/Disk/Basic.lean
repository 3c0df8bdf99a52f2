import ModuleBridge.Disk.Fault

/-!
# Access to files

What the project commands need of a file system. A command runs in any monad with such an access: on
the real files, or on a `FileTree` as a value.
-/

namespace ModuleBridge

class Disk (m : Type → Type) where
  /-- The folder that relative paths start from. -/
  workingFolder : m String
  isPresent : String → m Bool
  isFile : String → m Bool
  /-- The names of the files in a folder; none if it cannot be listed. -/
  filesIn : String → m (List String)
  /-- The names of the folders in a folder; none if it cannot be listed. -/
  foldersIn : String → m (List String)
  /-- No file lies more names than this below any folder. -/
  depth : m Nat
  readBytes : String → m (Except FileFault ByteArray)
  writeText : String → String → m (Except FileFault Unit)
  /-- Make a folder and those around it, as far as they are missing. -/
  makeFolders : String → m (Except FileFault Unit)

def Disk.readText {m : Type → Type} [Monad m] [Disk m] (path : String) :
    m (Except FileFault String) := do
  match ← readBytes path with
  | .error fault => return .error fault
  | .ok bytes =>
    match String.fromUTF8? bytes with
    | some text => return .ok text
    | none => return .error .notText

end ModuleBridge
