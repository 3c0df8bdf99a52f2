import ModuleBridge.Conversion
import ModuleBridge.Disk.Basic
import ModuleBridge.Disk.Path
import ModuleBridge.Text.Trim

/-!
# Batches

A batch converts the modules of a project together. Each module gets a path, against which its
imports are resolved, and a place below the output folder; no two results may go to one place.
-/

namespace ModuleBridge

structure SourceFile where
  name : String
  text : String
deriving DecidableEq, Repr

structure Batch where
  options : Options
  /-- The folder that module paths start from. -/
  rootFolder : Option String
  /-- Where the root folder is found when the modules run. -/
  baseUrl : Option String
  outFolder : Option String
  sources : List SourceFile
deriving DecidableEq, Repr

structure BatchResult where
  fileName : String
  modulePath : String
  output : ModuleOutput
  outputPath : Option String
deriving DecidableEq, Repr

namespace Batch

/-- A file name as seen from the root folder, with slashes. -/
def relativePath (b : Batch) (name : String) : String :=
  Path.slashes ((b.rootFolder.bind (DiskPath.relativeTo? · name)).getD name)

/-- The path of a module, from which its imports are resolved. -/
def modulePath (b : Batch) (name : String) : String :=
  let relative := b.relativePath name
  match b.baseUrl with
  | none => relative
  | some base =>
    let inner := dropRepeated ['/'] (dropRepeated ['.', '/'] relative.toList)
    Specifier.resolve ("./" ++ String.ofList inner) (some (Path.ensureTrailingSlash base))

/-- The path of an output below the output folder: the names on the way to the module, without those
that would lead out again. -/
def outputName (relative : String) : String :=
  let names := (Path.parts (Path.normalize relative).toList).filter fun name =>
    name ≠ [] && name ≠ ['.', '.']
  Path.changeExtension (String.ofList (Path.joinSegments names)) ".js"

def outputPath? (b : Batch) (name : String) : Option String :=
  b.outFolder.map fun folder => DiskPath.join folder (outputName (b.relativePath name))

def convertSource (b : Batch) (source : SourceFile) : BatchResult :=
  let path := b.modulePath source.name
  ⟨source.name, path, convertModule b.options source.text (some source.name) (some path),
    b.outputPath? source.name⟩

def convert (b : Batch) : List BatchResult :=
  b.sources.map b.convertSource

end Batch

/-- All diagnostics of a batch in the order of a report. -/
def batchDiagnostics (results : List BatchResult) : List Diagnostic :=
  sortDiagnostics (results.flatMap fun r => r.output.diagnostics)

/-- The first path of a list that is the same as one before it or as one of those seen. -/
def firstRepeated? : List (List (List Char)) → List String → Option String
  | _, [] => none
  | seen, path :: rest =>
    let components := DiskPath.components path
    if seen.contains components then some path else firstRepeated? (components :: seen) rest

variable {m : Type → Type} [Monad m] [Disk m]

/-- Read files until one cannot be read. The result holds those read before it, and its fault. -/
def loadSources : List String → m (List SourceFile × Option FileFault)
  | [] => return ([], none)
  | name :: rest => do
      match ← Disk.readText name with
      | .error fault => return ([], some fault)
      | .ok text =>
        let (sources, fault) ← loadSources rest
        return (⟨name, text⟩ :: sources, fault)

def writeOutput (path code : String) : m (Except FileFault Unit) := do
  let made ← match DiskPath.parent? path with
    | none | some "" => pure (.ok ())
    | some folder => Disk.makeFolders folder
  match made with
  | .error fault => return .error fault
  | .ok () => Disk.writeText path code

def writeEach : List (String × String) → m (Except FileFault Unit)
  | [] => return .ok ()
  | (path, code) :: rest => do
      match ← writeOutput path code with
      | .error fault => return .error fault
      | .ok () => writeEach rest

/-- Write the outputs of a batch. If two go to one path, nothing is written at all. -/
def writeOutputs (results : List BatchResult) : m (Except FileFault Unit) := do
  let outputs := results.filterMap fun r => r.outputPath.map fun path => (path, r.output.code)
  match firstRepeated? [] (outputs.map (·.1)) with
  | some path => return .error (.sharedTarget path)
  | none => writeEach outputs

end ModuleBridge
