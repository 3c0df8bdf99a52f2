import ModuleBridge.Lossy.Pass
import ModuleBridge.Text.Line

/-!
# Lossy conversion

The conversion of a module that cannot be read: all passes over its text, then every line that
still is a module declaration is commented out, and the collected exports come last.
-/

namespace ModuleBridge

/-- Whether a line begins with the word `import` or `export` and is neither a call nor a property
of it. -/
def isDeclarationLine (line : List Char) : Bool :=
  let head : Recogniser Unit := do
    Recogniser.space
    Recogniser.oneOf ["import", "export"]
    Recogniser.wordEnd
    Recogniser.space
  match head line with
  | some (_, rest) => !(rest.head? == some '(' || rest.head? == some '.')
  | none => false

/-- Run passes one after the other, each on the text that the one before left. -/
def runPasses : List Pass → List Char → Replacement
  | [], text => .plain text
  | pass :: passes, text =>
    let first := pass.run text
    let later := runPasses passes first.text
    ⟨later.text, first.exported ++ later.exported⟩

def lossyHeader : String :=
  exportsPreamble ++ "\n\n// Fallback transformation due to parsing error\n"

def lossyFooter : String :=
  "\nmodule.exports = exports;"

/-- One line of the output, with its line feed. -/
def lossyLine (line : List Char) : String :=
  (if isDeclarationLine line then "// " else "") ++ String.ofList line ++ "\n"

def lossyExport (a : Alias) : String :=
  (OutputLine.assign (String.ofList a.name) (String.ofList a.other)).render ++ "\n"

def convertLossily (source : String) : String :=
  let result := runPasses Pass.all source.toList
  lossyHeader ++ String.join ((splitLines result.text).map lossyLine) ++
    String.join (result.exported.map lossyExport) ++ lossyFooter

end ModuleBridge
