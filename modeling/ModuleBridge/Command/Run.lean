import ModuleBridge.Command.Arguments
import ModuleBridge.Project.Batch
import ModuleBridge.Project.Discovery
import ModuleBridge.Project.Settings
import ModuleBridge.Syntax.Outline

/-!
# Running commands

A command reads the project, converts its modules, and either writes the outputs or prints them.
Whatever it prints is collected in its report, so that a run on a file tree is a value.
-/

namespace ModuleBridge

structure Report where
  exitCode : Nat
  out : String
  err : String
deriving DecidableEq, Repr

namespace Report

def lines (texts : List String) : String :=
  String.join (texts.map (· ++ "\n"))

def success (out : List String) : Report :=
  ⟨0, lines out, ""⟩

def failure (message : String) : Report :=
  ⟨1, "", lines ["error: " ++ message]⟩

def after (earlier : List String) (r : Report) : Report :=
  { r with err := lines earlier ++ r.err }

end Report

def versionText : String := "esmshim 0.1.0"

def usageText : String := "Usage: esmshim [OPTIONS] [FILE]..."

def helpLines : List String :=
  ["Rewrite ES modules into CommonJS script bodies", "", usageText, "",
    "Arguments:",
    "  [FILE]...  Module files to transform", "",
    "Options:",
    "  -p, --project <PROJECT>    Path to esmshim.json",
    "      --out-dir <OUT_DIR>    Write \x60.js\x60 files to this directory, mirroring the input paths",
    "      --base-url <BASE_URL>  URL each file path is joined to when resolving its imports",
    "      --hoist-imports        Emit require bindings before all other statements",
    "      --explicit-renames     Always write \x60imported: local\x60 in destructured requires",
    "      --no-await-wrapper     Do not wrap modules using top-level await",
    "      --strict               Fail on syntax errors instead of emitting the fallback rewrite",
    "      --print-ast            Print the parsed module AST as JSON",
    "      --init                 Initialize an esmshim.json file",
    "      --list-files           List the files being transformed",
    "  -v, --verbose              Log pipeline progress (same as RUST_LOG=debug)",
    "  -h, --help                 Print help",
    "  -V, --version              Print version"]

def ValueOption.usage : ValueOption → String
  | project => "--project <PROJECT>"
  | outFolder => "--out-dir <OUT_DIR>"
  | baseUrl => "--base-url <BASE_URL>"

def FlagOption.usage (o : FlagOption) : String :=
  match longOptions.find? (·.2 == .flag o) with
  | some (name, _) => "--" ++ name
  | none => ""

def ArgumentStop.report : ArgumentStop → Report
  | help => .success helpLines
  | version => .success [versionText]
  | unknownOption text => refusal s!"unexpected argument '{text}' found"
  | valueMissing o => refusal s!"a value is required for '{o.usage}' but none was supplied"
  | valueNotTaken text => refusal s!"unexpected value for '{text}' found; no more were expected"
  | repeatedValue o => refusal s!"the argument '{o.usage}' cannot be used multiple times"
  | repeatedFlag o => refusal s!"the argument '{o.usage}' cannot be used multiple times"
where
  refusal (message : String) : Report :=
    ⟨2, "", Report.lines ["error: " ++ message, "", usageText, "",
      "For more information, try '--help'."]⟩

/-- The files of a run, the settings that hold for it and the folder its module paths start from. -/
structure Inputs where
  files : List String
  settings : Settings
  rootFolder : Option String
deriving DecidableEq, Repr

variable {m : Type → Type} [Monad m] [Disk m]

def readSettings (path : String) : m (Except ProjectFault Settings) := do
  match ← Disk.readText path with
  | .error fault => return .error (.unreadable path fault)
  | .ok content => return (Settings.ofText content).mapError (.malformed content)

def projectFolder (path : String) : String :=
  match DiskPath.parent? path with
  | none | some "" => "."
  | some folder => folder

def projectFiles (root : String) (settings : Settings) : m (List String) :=
  match settings.files with
  | some names => listedFiles root names
  | none => discoverFiles root settings.includePatterns settings.excludePatterns

def inputsOfProject (path : String) : m (Except ProjectFault Inputs) := do
  match ← readSettings path with
  | .error fault => return .error fault
  | .ok settings =>
    let root := projectFolder path
    return .ok ⟨← projectFiles root settings, settings, some root⟩

/-- A project that is named comes first, then files that are named, then the project of the working
folder. -/
def findInputs (a : Arguments) : m (Except ProjectFault Inputs) := do
  match a.project with
  | some path => inputsOfProject path
  | none =>
    if !a.files.isEmpty then return .ok ⟨a.files, .empty, some (← Disk.workingFolder)⟩
    else if ← Disk.isPresent Settings.fileName then inputsOfProject Settings.fileName
    else return .ok ⟨[], .empty, none⟩

/-- The conversion options of a run: arguments win over settings. -/
def Arguments.applyTo (a : Arguments) (options : Options) : Options where
  importPlacement := if a.hoistImports then .beforeStatements else options.importPlacement
  explicitImportRenames := a.explicitRenames || options.explicitImportRenames
  wrapTopLevelAwait := !a.noAwaitWrapper && options.wrapTopLevelAwait
  mergeDefaultExports := options.mergeDefaultExports

def Inputs.batch (inputs : Inputs) (a : Arguments) (sources : List SourceFile) : Batch where
  options := a.applyTo inputs.settings.conversionOptions
  rootFolder := inputs.rootFolder
  baseUrl := a.baseUrl.or inputs.settings.baseUrl
  outFolder := a.outFolder.or inputs.settings.outFolder
  sources := sources

/-! ## Reports -/

/-- A diagnostic with the line and column of its place, if the text of its file is known. -/
def showDiagnostic (sources : List SourceFile) (d : Diagnostic) : String :=
  match d.file, d.span with
  | some file, some span =>
    match sources.find? (·.name == file) with
    | some source =>
      let place := (LineMap.ofText source.text).lineColumnOf span.start
      s!"{file}({place.render}): {d.summary}"
    | none => d.render
  | some "", none => d.summary
  | _, _ => d.render

def firstUnreadable? (sources : List SourceFile) : Option (SourceFile × Fault) :=
  sources.findSome? fun source =>
    match parseModule source.text with
    | .error fault => some (source, fault)
    | .ok _ => none

def unreadableReport (source : SourceFile) (fault : Fault) : Report :=
  ⟨2, "", Report.lines [showDiagnostic [source] (fault.toDiagnostic source.name)]⟩

/-- Print the outlines of modules up to the first that cannot be read. -/
def outlineReport : List SourceFile → Report
  | [] => .success []
  | source :: rest =>
    match parseModule source.text with
    | .error fault => unreadableReport source fault
    | .ok m =>
      let r := outlineReport rest
      { r with out := Report.lines [m.outline] ++ r.out }

/-- The printed outputs of a batch; with several, each is headed by its file name. -/
def printedOutputs (results : List BatchResult) : List String :=
  results.flatMap fun r =>
    if 1 < results.length then ["// " ++ r.fileName, r.output.code] else [r.output.code]

def reportBatch (b : Batch) : m Report := do
  let results := b.convert
  let notes := (batchDiagnostics results).map (showDiagnostic b.sources)
  if b.outFolder.isSome then
    match ← writeOutputs results with
    | .error fault =>
      return (Report.failure ("Failed to write output files: " ++ fault.message)).after notes
    | .ok () => return (Report.success []).after notes
  else return (Report.success (printedOutputs results)).after notes

def runInputs (a : Arguments) (inputs : Inputs) : m Report := do
  let (sources, fault) ← loadSources inputs.files
  match fault with
  | some fault => return .failure ("Failed to load source files: " ++ fault.message)
  | none =>
    if a.printOutline then return outlineReport sources
    else
      match (if a.strict then firstUnreadable? sources else none) with
      | some (source, fault) => return unreadableReport source fault
      | none => reportBatch (inputs.batch a sources)

def runInit : m Report := do
  if ← Disk.isPresent Settings.fileName then
    return .failure s!"An {Settings.fileName} file already exists in the current directory."
  else
    match ← Disk.writeText Settings.fileName (Settings.initial.render ++ "\n") with
    | .error fault => return .failure s!"Failed to create {Settings.fileName}: {fault.message}"
    | .ok () => return .success [s!"Successfully created an {Settings.fileName} file."]

def runArguments (a : Arguments) : m Report := do
  if a.init then runInit
  else
    match ← findInputs a with
    | .error fault => return .failure fault.message
    | .ok inputs =>
      if inputs.files.isEmpty then return .failure "No input files found."
      else
        let report ← runInputs a inputs
        return report.after (if a.listFiles then inputs.files else [])

def runCommand (arguments : List String) : m Report :=
  match Arguments.parse arguments with
  | .error stop => return stop.report
  | .ok a => runArguments a

end ModuleBridge
