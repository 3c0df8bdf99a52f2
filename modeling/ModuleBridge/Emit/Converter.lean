import ModuleBridge.Diagnostic.Basic
import ModuleBridge.Emit.Line
import ModuleBridge.Emit.Options
import ModuleBridge.Source.Word
import ModuleBridge.Specifier
import ModuleBridge.Syntax.Statement
import ModuleBridge.Text.Blank

/-!
# Converting a module

Each statement adds lines to the sections of the output, and the sections are put together in a
fixed order, wherever the statements stood: plain statements, exported declarations, imports,
re-exports, spreads, export lists, default export. Imports may go first instead.
-/

namespace ModuleBridge

structure Sections where
  statements : List OutputLine
  declarations : List OutputLine
  imports : List OutputLine
  reexports : List OutputLine
  spreads : List OutputLine
  /-- Export lists as pairs of exported and local name, each exported name once. -/
  exports : List (String × String)
  defaults : List OutputLine
deriving DecidableEq, Repr

def Sections.empty : Sections :=
  ⟨[], [], [], [], [], [], []⟩

/-- Set the local name of an exported name, which keeps its place if it has one. -/
def putExport (exported localName : String) : List (String × String) → List (String × String)
  | [] => [(exported, localName)]
  | (name, value) :: rest =>
    if name = exported then (name, localName) :: rest
    else (name, value) :: putExport exported localName rest

def Sections.lines (s : Sections) (placement : ImportPlacement) : List OutputLine :=
  let (early, late) := match placement with
    | .beforeStatements => (s.imports, [])
    | .afterDeclarations => ([], s.imports)
  early ++ s.statements ++ s.declarations ++ late ++ s.reexports ++ s.spreads ++
    s.exports.map (fun (exported, localName) => .assign exported localName) ++ s.defaults

/-- What a conversion works with: the options, the module's text and path, and the functions and
classes that the module declares. -/
structure Setting where
  options : Options
  source : String
  path : Option String
  callables : List String

structure Conversion where
  sections : Sections
  /-- The quoted form of each source that has been resolved, by its raw value. -/
  resolved : List (String × String)
  /-- Whether some statement awaits at its top level. -/
  awaits : Bool
  notes : List Diagnostic

def Conversion.start : Conversion :=
  ⟨.empty, [], false, []⟩

def Statement.callable? : Statement → Option Name
  | .declaration (.function d) => d.name
  | .declaration (.classOf d) => d.name
  | .exportDeclaration (.function d) _ => d.name
  | .exportDeclaration (.classOf d) _ => d.name
  | .exportDefault (.function d) _ => d.name
  | .exportDefault (.classOf d) _ => d.name
  | _ => none

def Module.callables (m : Module) : List String :=
  m.body.filterMap fun s => s.callable?.map (·.text)

namespace Conversion

def edit (c : Conversion) (f : Sections → Sections) : Conversion :=
  ⟨f c.sections, c.resolved, c.awaits, c.notes⟩

def addStatement (c : Conversion) (text : String) : Conversion :=
  c.edit fun s => { s with statements := s.statements ++ [.code text] }

def addDeclaration (c : Conversion) (lines : List OutputLine) : Conversion :=
  c.edit fun s => { s with declarations := s.declarations ++ lines }

def addImports (c : Conversion) (lines : List OutputLine) : Conversion :=
  c.edit fun s => { s with imports := s.imports ++ lines }

def addReexports (c : Conversion) (lines : List OutputLine) : Conversion :=
  c.edit fun s => { s with reexports := s.reexports ++ lines }

def addSpread (c : Conversion) (line : OutputLine) : Conversion :=
  c.edit fun s => { s with spreads := s.spreads ++ [line] }

def addExport (c : Conversion) (exported localName : String) : Conversion :=
  c.edit fun s => { s with exports := putExport exported localName s.exports }

def addDefault (c : Conversion) (lines : List OutputLine) : Conversion :=
  c.edit fun s => { s with defaults := s.defaults ++ lines }

/-- Remember whether a piece of code awaits. -/
def noteAwait (c : Conversion) (text : String) : Conversion :=
  ⟨c.sections, c.resolved, c.awaits || awaitsAtTopLevel text, c.notes⟩

/-- The quoted, resolved form of a source. Each raw value is resolved once, and reported once when
it needs an origin that the module's path does not have. -/
def resolve (setting : Setting) (c : Conversion) (source : Quoted) : String × Conversion :=
  match c.resolved.lookup source.value with
  | some quoted => (quoted, c)
  | none =>
    let path := setting.path.getD ""
    let notes :=
      if Specifier.requiresOrigin source.value setting.path then
        c.notes ++ [.placed path source.range.toSpan .noOrigin [source.value, path]]
      else c.notes
    let quoted := quote (Specifier.resolve source.value setting.path)
    (quoted, ⟨c.sections, c.resolved ++ [(source.value, quoted)], c.awaits, notes⟩)

end Conversion

/-! ## Lines of single statements -/

/-- The lines of an import: the default and namespace bindings in order, then one pattern for all
named bindings. -/
def importLines (options : Options) (bindings : List ImportBinding) (source : String) :
    List OutputLine :=
  if bindings.isEmpty then [.require source]
  else
    let single := bindings.filterMap fun
      | .default localName => some (.requireDefault localName.text source)
      | .namespace localName => some (.requireNamespace localName.text source)
      | .named _ _ => none
    let entries := bindings.filterMap fun
      | .named imported localName =>
        some (importEntry options.explicitImportRenames imported.text localName.text)
      | _ => none
    single ++ if entries.isEmpty then [] else [.requireNamed entries source]

def reexportLine (source : String) (entry : ExportEntry) : OutputLine :=
  .reexport entry.exported.text source entry.localName.text

/-- Code without white space and semicolons at its end. -/
def trimValue (text : String) : String :=
  String.ofList ((trimEnd text.toList).reverse.dropWhile (· == ';')).reverse

/-- Set the default export to `value`, and merge it into the module object if asked to. -/
def defaultLines (options : Options) (value : String) (merge : Bool) : List OutputLine :=
  .assign "default" value ::
    if merge && options.mergeDefaultExports then [.mergeDefault] else []

/-- Bind the value of a default export before exporting it. -/
def boundDefaultLines (options : Options) (text : String) : List OutputLine :=
  .bindDefault (trimValue text) :: defaultLines options defaultBinding false

namespace Conversion

/-- Add a function or class that is the default export. With a name it is a declaration. -/
def addDefaultCallable (setting : Setting) (c : Conversion) (name : Option Name) (text : String) :
    Conversion :=
  match name with
  | some name =>
    (c.addDeclaration [.code text]).addDefault (defaultLines setting.options name.text true)
  | none => c.addDefault (boundDefaultLines setting.options text)

def addExportDefault (setting : Setting) (c : Conversion) (value : DefaultExport) : Conversion :=
  let text := value.range.slice setting.source
  match value with
  | .expression (.name name) =>
    c.addDefault (defaultLines setting.options name.text (setting.callables.contains name.text))
  | .expression _ => (c.noteAwait text).addDefault (boundDefaultLines setting.options text)
  | .function d => c.addDefaultCallable setting d.name text
  | .classOf d => c.addDefaultCallable setting d.name text

def addExportDeclaration (setting : Setting) (c : Conversion) (d : Declaration) : Conversion :=
  let text := d.range.slice setting.source
  let c := match d with
    | .variable _ => c.noteAwait text
    | _ => c
  c.addDeclaration (.code text :: d.names.map fun name => .assign name.text name.text)

def add (setting : Setting) (c : Conversion) (statement : Statement) : Conversion :=
  match statement with
  | .importFrom bindings source _ =>
    let (quoted, c) := c.resolve setting source
    c.addImports (importLines setting.options bindings quoted)
  | .exportDefault value _ => c.addExportDefault setting value
  | .exportDeclaration d _ => c.addExportDeclaration setting d
  | .exportList entries (some source) _ =>
    let (quoted, c) := c.resolve setting source
    c.addReexports (entries.map (reexportLine quoted))
  | .exportList entries none _ =>
    entries.foldl (fun c entry => c.addExport entry.exported.text entry.localName.text) c
  | .exportNamespace exported source _ =>
    let (quoted, c) := c.resolve setting source
    c.addReexports [.reexportNamespace exported.text quoted]
  | .exportAll source _ =>
    let (quoted, c) := c.resolve setting source
    c.addSpread (.spread quoted)
  | .declaration d =>
    let text := d.range.slice setting.source
    match d with
    | .variable _ => (c.noteAwait text).addStatement text
    | _ => c.addStatement text
  | .verbatim _ range =>
    let text := range.slice setting.source
    (c.noteAwait text).addStatement text

end Conversion

def convertStatements (setting : Setting) (statements : List Statement) : Conversion :=
  statements.foldl (Conversion.add setting) .start

def settingOf (options : Options) (m : Module) (source : String) (path : Option String) : Setting :=
  ⟨options, source, path, m.callables⟩

def Conversion.text (c : Conversion) (options : Options) : String :=
  let body := renderLines (c.sections.lines options.importPlacement)
  if c.awaits && options.wrapTopLevelAwait then wrapAsync body else withPreamble body

/-- A converter keeps its options and the notes of its conversions until they are taken. -/
structure Converter where
  options : Options
  notes : List Diagnostic

namespace Converter

def ofOptions (options : Options) : Converter :=
  ⟨options, []⟩

def convert (k : Converter) (m : Module) (source : String) (path : Option String) :
    String × Converter :=
  let c := convertStatements (settingOf k.options m source path) m.body
  (c.text k.options, ⟨k.options, k.notes ++ c.notes⟩)

def takeNotes (k : Converter) : List Diagnostic × Converter :=
  (k.notes, ofOptions k.options)

end Converter

end ModuleBridge
