import ModuleBridge.Emit.Line
import ModuleBridge.Lossy.Names

/-!
# Passes over the lines of a text

A pass tries a recogniser at the start of each line and puts a replacement where it fits; what was
taken may reach over several lines. The passes turn the module declarations that stand in a line of
their own into CommonJS.
-/

namespace ModuleBridge

/-- What a pass puts in place of a piece of text, and the exports it found there. -/
structure Replacement where
  text : List Char
  exported : List Alias

def Replacement.plain (text : List Char) : Replacement :=
  ⟨text, []⟩

abbrev Pass := Recogniser Replacement

/-- One step of a pass: what it puts out, the text that is left, and whether that starts a line. -/
structure PassStep where
  output : Replacement
  rest : List Char
  atLineStart : Bool

/-- Copy the text up to and including the next line feed. -/
def copyLine (text : List Char) : PassStep :=
  let line := text.takeWhile (· != '\n')
  match text.dropWhile (· != '\n') with
  | [] => ⟨.plain line, [], false⟩
  | feed :: rest => ⟨.plain (line ++ [feed]), rest, true⟩

/-- At the start of a line the pass is tried; where it does not fit, the line is copied. -/
def Pass.step (pass : Pass) (atLineStart : Bool) (text : List Char) : PassStep :=
  match (if atLineStart then pass text else none) with
  | none => copyLine text
  | some (replacement, rest) =>
    if rest.length < text.length then
      let consumed := text.take (text.length - rest.length)
      ⟨replacement, rest, consumed.getLast? == some '\n'⟩
    else copyLine text

theorem copyLine_rest_lt {text : List Char} (h : text ≠ []) :
    (copyLine text).rest.length < text.length := by
  have hle : (text.dropWhile (· != '\n')).length ≤ text.length :=
    (List.dropWhile_suffix _).length_le
  unfold copyLine
  split
  · exact List.length_pos_iff.mpr h
  · rename_i hd
    rw [hd] at hle
    exact hle

theorem Pass.step_rest_lt (pass : Pass) (atLineStart : Bool) {text : List Char} (h : text ≠ []) :
    (pass.step atLineStart text).rest.length < text.length := by
  unfold Pass.step
  split
  · exact copyLine_rest_lt h
  · split
    · assumption
    · exact copyLine_rest_lt h

def Pass.runFrom (pass : Pass) (atLineStart : Bool) (text : List Char) : Replacement :=
  if h : text = [] then .plain []
  else
    let step := pass.step atLineStart text
    have : (pass.step atLineStart text).rest.length < text.length := pass.step_rest_lt atLineStart h
    let later := Pass.runFrom pass step.atLineStart step.rest
    ⟨step.output.text ++ later.text, step.output.exported ++ later.exported⟩
termination_by text.length

def Pass.run (pass : Pass) (text : List Char) : Replacement :=
  pass.runFrom true text

namespace Pass

open Recogniser

/-- Put a line of output in place of a declaration, at its indentation. -/
def line (indentation : List Char) (output : OutputLine) : List Char :=
  indentation ++ output.render.toList

def quoted (value : List Char) : String :=
  String.ofList (quoteChars value)

/-- An empty export list in a line of its own leaves nothing. -/
def emptyExport : Pass := do
  let indentation ← indent
  exactly "export"
  space
  exactly "\x7b"
  space
  exactly "\x7d"
  semicolon
  let _ ← indent
  followedBy fun next => next.all (· == '\n')
  return .plain indentation

def namespaceName : Recogniser (List Char) := do
  exactly "*"
  space1
  exactly "as"
  space1
  let name ← name
  space1
  return name

def exportNamespace : Pass := do
  let indentation ← indent
  exactly "export"
  space1
  let name ← namespaceName
  let value ← fromSource
  return .plain (line indentation (.reexportNamespace (String.ofList name) (quoted value)))

def exportAll : Pass := do
  let indentation ← indent
  exactly "export"
  space1
  exactly "*"
  space
  let value ← fromSource
  return .plain (line indentation (.spread (quoted value)))

def exportListFrom : Pass := do
  let indentation ← indent
  exactly "export"
  space
  let list ← braces
  space
  let value ← fromSource
  let output (a : Alias) : List Char :=
    line indentation (.reexport (String.ofList a.other) (quoted value) (String.ofList a.name))
  return .plain (['\n'].intercalate ((aliasesOf list).map output))

def importNamespace : Pass := do
  let indentation ← indent
  exactly "import"
  space1
  let name ← namespaceName
  let value ← fromSource
  return .plain (line indentation (.requireNamespace (String.ofList name) (quoted value)))

def importDefault : Pass := do
  let indentation ← indent
  exactly "import"
  space1
  let name ← name
  space1
  let value ← fromSource
  return .plain (line indentation (.requireDefault (String.ofList name) (quoted value)))

def importNamed : Pass := do
  let indentation ← indent
  exactly "import"
  space
  let list ← braces
  space
  let value ← fromSource
  let entries := (aliasesOf list).map fun a =>
    importEntry false (String.ofList a.name) (String.ofList a.other)
  return .plain (line indentation (.requireNamed entries (quoted value)))

def importForEffect : Pass := do
  let indentation ← indent
  exactly "import"
  space
  let value ← source
  semicolon
  return .plain (line indentation (.require (quoted value)))

def exportDefault : Pass := do
  let indentation ← indent
  exactly "export"
  space1
  exactly "default"
  space1
  return .plain (indentation ++ "exports.default = ".toList)

/-- A character of a flat pattern. -/
def isFlat (c : Char) : Bool :=
  c != '\x7b' && c != '\x7d' && c != '[' && c != ']' && c != '\n'

/-- A flat object or array pattern, by the names it binds. -/
def flatPattern : Recogniser (List (List Char)) := fun text =>
  let object : Recogniser (List (List Char)) := do
    exactly "\x7b"
    let inside ← Recogniser.run isFlat
    exactly "\x7d"
    return flatPatternNames true inside
  let array : Recogniser (List (List Char)) := do
    exactly "["
    let inside ← Recogniser.run isFlat
    exactly "]"
    return flatPatternNames false inside
  match object text with
  | some result => some result
  | none => array text

/-- An exported flat pattern keeps its declaration and exports its names. -/
def exportPattern : Pass := do
  let indentation ← indent
  exactly "export"
  space1
  let (names, declaration) ← taken do
    oneOf ["const", "let", "var"]
    space
    flatPattern
  return ⟨indentation ++ declaration, names.map fun name => ⟨name, name⟩⟩

/-- The words of a declaration up to its name. -/
def declarationWords : Recogniser Unit := do
  optionally do
    exactly "async"
    space1
  fun text =>
    let function : Recogniser Unit := do
      exactly "function"
      space
      optionally (exactly "*")
    let other : Recogniser Unit := do
      oneOf ["class", "const", "let", "var"]
      space1
    match function text with
    | some result => some result
    | none => other text

/-- An exported declaration loses `export` and exports its name. -/
def exportDeclaration : Pass := do
  let indentation ← indent
  exactly "export"
  space1
  let (name, declaration) ← taken do
    declarationWords
    space
    name
  return ⟨indentation ++ declaration, [⟨name, name⟩]⟩

/-- A declaration whose names cannot be told only loses `export`. -/
def exportKeyword : Pass := do
  let indentation ← indent
  exactly "export"
  space1
  let (_, words) ← taken do
    optionally do
      exactly "async"
      space1
    oneOf ["function", "class", "const", "let", "var"]
    wordEnd
  return .plain (indentation ++ words)

def exportList : Pass := do
  let indentation ← indent
  exactly "export"
  space
  let list ← braces
  semicolon
  return ⟨indentation, (aliasesOf list).map fun a => ⟨a.other, a.name⟩⟩

def all : List Pass :=
  [emptyExport, exportNamespace, exportAll, exportListFrom, importNamespace, importDefault,
    importNamed, importForEffect, exportDefault, exportPattern, exportDeclaration, exportKeyword,
    exportList]

end Pass

end ModuleBridge
