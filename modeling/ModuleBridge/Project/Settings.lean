import ModuleBridge.Disk.Fault
import ModuleBridge.Emit.Options
import ModuleBridge.Json.Record

/-!
# Project files

A project file is a JSON document with the settings of a project. Every setting may be left out or
null; `Settings.ofText` reads a document and `Settings.toJson` writes one.
-/

namespace ModuleBridge

structure Settings where
  options : Option Options
  /-- The source files by name; with them the patterns do not count. -/
  files : Option (List String)
  /-- Patterns of files that belong to the project. -/
  includes : Option (List String)
  /-- Patterns of files and folders that do not. -/
  excludes : Option (List String)
  outFolder : Option String
  baseUrl : Option String
deriving DecidableEq, Repr

namespace Settings

def fileName : String := "esmshim.json"

def empty : Settings :=
  ⟨none, none, none, none, none, none⟩

def initial : Settings :=
  ⟨some .standard, none, some ["src/**/*.js"], some ["node_modules"], some "dist", none⟩

def conversionOptions (s : Settings) : Options :=
  s.options.getD .standard

/-- The patterns of the project's files; all scripts if there are none. -/
def includePatterns (s : Settings) : List String :=
  match s.includes with
  | some (first :: rest) => first :: rest
  | _ => ["**/*"]

def excludePatterns (s : Settings) : List String :=
  s.excludes.getD ["node_modules"]

open JsonRead

def placements : List (String × ImportPlacement) :=
  [("afterDeclarations", .afterDeclarations), ("beforeStatements", .beforeStatements)]

/-- Conversion options. What is left out keeps its standard value. -/
def optionsShape : Shape Options where
  title := "TransformOptions"
  fields := [
    ⟨"importPlacement", fun s => return { s with importPlacement := ← choice placements }⟩,
    ⟨"explicitImportRenames", fun s => return { s with explicitImportRenames := ← flag }⟩,
    ⟨"wrapTopLevelAwait", fun s => return { s with wrapTopLevelAwait := ← flag }⟩,
    ⟨"mergeDefaultExports", fun s => return { s with mergeDefaultExports := ← flag }⟩]
  isComplete := false

def shape : Shape Settings where
  title := "EsmShimConfig"
  fields := [
    ⟨"transformOptions", fun s =>
      return { s with options := ← optional (record optionsShape .standard) }⟩,
    ⟨"files", fun s => return { s with files := ← optional (list text) }⟩,
    ⟨"include", fun s => return { s with includes := ← optional (list text) }⟩,
    ⟨"exclude", fun s => return { s with excludes := ← optional (list text) }⟩,
    ⟨"outDir", fun s => return { s with outFolder := ← optional text }⟩,
    ⟨"baseUrl", fun s => return { s with baseUrl := ← optional text }⟩]
  isComplete := true

def ofText (content : String) : Except JsonFault Settings :=
  JsonRead.run (record shape empty) content

def placementName : ImportPlacement → String
  | .afterDeclarations => "afterDeclarations"
  | .beforeStatements => "beforeStatements"

def optionsToJson (o : Options) : JsonTree :=
  .object [("importPlacement", .string (placementName o.importPlacement)),
    ("explicitImportRenames", .bool o.explicitImportRenames),
    ("wrapTopLevelAwait", .bool o.wrapTopLevelAwait),
    ("mergeDefaultExports", .bool o.mergeDefaultExports)]

def patternsToJson (patterns : List String) : JsonTree :=
  .array (patterns.map .string)

def toJson (s : Settings) : JsonTree :=
  .object [("transformOptions", .ofOption optionsToJson s.options),
    ("files", .ofOption patternsToJson s.files),
    ("include", .ofOption patternsToJson s.includes),
    ("exclude", .ofOption patternsToJson s.excludes),
    ("outDir", .ofOption .string s.outFolder),
    ("baseUrl", .ofOption .string s.baseUrl)]

def render (s : Settings) : String :=
  s.toJson.render

end Settings

inductive ProjectFault where
  | unreadable (path : String) (fault : FileFault)
  | malformed (content : String) (fault : JsonFault)
deriving DecidableEq, Repr

def ProjectFault.message : ProjectFault → String
  | unreadable path fault => s!"cannot read '{path}': {fault.message}"
  | malformed content fault => "invalid project file: " ++ fault.describe content

end ModuleBridge
