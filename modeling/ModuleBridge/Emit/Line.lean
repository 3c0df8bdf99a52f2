import ModuleBridge.Emit.Quote

/-!
# Output lines

What the body of a converted module is made of, and the text of each line. A source is given in its
quoted form.
-/

namespace ModuleBridge

/-- The first line of every converted module. -/
def exportsPreamble : String :=
  "var exports = module.exports;"

/-- The name that a default-exported value is bound to. -/
def defaultBinding : String :=
  "__esm_default"

inductive OutputLine where
  /-- Code of the source module. -/
  | code (text : String)
  | require (source : String)
  | requireDefault (localName source : String)
  | requireNamespace (localName source : String)
  /-- A destructuring import; each entry is the text of one binding. -/
  | requireNamed (entries : List String) (source : String)
  | reexport (exported source imported : String)
  | reexportNamespace (exported source : String)
  | spread (source : String)
  | assign (exported value : String)
  | bindDefault (text : String)
  /-- Make the default export the module object. -/
  | mergeDefault
deriving DecidableEq, Repr

/-- One entry of a destructuring import. The renaming is spelled out when the names differ or when
`explicit`. -/
def importEntry (explicit : Bool) (imported localName : String) : String :=
  if imported = localName && !explicit then localName else imported ++ ": " ++ localName

def OutputLine.render : OutputLine → String
  | .code text => text
  | .require source => "require(" ++ source ++ ");"
  | .requireDefault localName source =>
    "const " ++ localName ++ " = require(" ++ source ++ ").default;"
  | .requireNamespace localName source => "const " ++ localName ++ " = require(" ++ source ++ ");"
  | .requireNamed entries source =>
    "const \x7b " ++ ", ".intercalate entries ++ " \x7d = require(" ++ source ++ ");"
  | .reexport exported source imported =>
    "exports." ++ exported ++ " = require(" ++ source ++ ")." ++ imported ++ ";"
  | .reexportNamespace exported source => "exports." ++ exported ++ " = require(" ++ source ++ ");"
  | .spread source => "Object.assign(exports, require(" ++ source ++ "));"
  | .assign exported value => "exports." ++ exported ++ " = " ++ value ++ ";"
  | .bindDefault text => "const " ++ defaultBinding ++ " = " ++ text ++ ";"
  | .mergeDefault =>
    "if (typeof module !== 'undefined' && module.exports) \x7b\n" ++
      "  module.exports = Object.assign(exports.default, exports);\n\x7d"

/-- The text of a body: its lines with line feeds between them. -/
def renderLines (lines : List OutputLine) : String :=
  "\n".intercalate (lines.map OutputLine.render)

/-- Put a body into an async function that reports its failure. -/
def wrapAsync (body : String) : String :=
  exportsPreamble ++ "\n\n(async function() \x7b\n" ++ body ++ "\n\x7d)().catch(err => \x7b\n" ++
    "  console.error('Error in async module:', err);\n  throw err;\n\x7d);"

def withPreamble (body : String) : String :=
  if body.isEmpty then exportsPreamble ++ "\n" else exportsPreamble ++ "\n\n" ++ body

end ModuleBridge
