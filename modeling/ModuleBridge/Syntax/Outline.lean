import ModuleBridge.Json.Tree
import ModuleBridge.Syntax.Statement

/-!
# Outlines

The tree of a module as a JSON document. Every node names its kind and its range. A default-exported
expression carries two `type` members: its role and its own form.
-/

namespace ModuleBridge

namespace Outline

/-- Kind and range, which every node carries. -/
def data (kind : String) (range : Range) : String × JsonTree :=
  ("data", .object [
    ("kind", .string kind),
    ("range", .object [("pos", .ofNat range.pos), ("end", .ofNat range.stop)])])

def typed (type : String) (members : List (String × JsonTree)) : JsonTree :=
  .object (("type", .string type) :: members)

def nameMembers (n : Name) : List (String × JsonTree) :=
  [data "Identifier" n.range, ("name", .string n.text)]

def name (n : Name) : JsonTree :=
  .object (nameMembers n)

def source (s : Quoted) : JsonTree :=
  .object [data "StringLiteral" s.range, ("value", .string s.value)]

def literal (range : Range) (form : String) (value : JsonTree) : List (String × JsonTree) :=
  [("type", .string "Literal"), data "Literal" range, ("value", .object [(form, value)])]

def expressionMembers : Expression → List (String × JsonTree)
  | .name n => ("type", .string "Identifier") :: nameMembers n
  | .string value range => literal range "String" (.string value)
  | .number value range => literal range "Number" (.ofDouble value)
  | .verbatim text range => literal range "Raw" (.string text)

def expression (e : Expression) : JsonTree :=
  .object (expressionMembers e)

def target : Target → JsonTree
  | .name n => typed "Identifier" (nameMembers n)
  | .pattern names range =>
    typed "Pattern" [data "BindingPattern" range, ("names", .array (names.map name))]

def declarator (d : Declarator) : JsonTree :=
  .object [data "VariableDeclarator" d.range, ("id", target d.target),
    ("init", .ofOption expression d.value)]

def variableMembers (d : VariableDeclaration) : List (String × JsonTree) :=
  [data "VariableDeclaration" d.range, ("kind", .string d.kind.keyword.text),
    ("declarations", .array (d.declarators.map declarator))]

def functionFlags (d : FunctionDeclaration) : String :=
  " | ".intercalate
    ((if d.isAsync then ["ASYNC"] else []) ++ (if d.isGenerator then ["GENERATOR"] else []))

def functionMembers (d : FunctionDeclaration) : List (String × JsonTree) :=
  [data "FunctionDeclaration" d.range, ("id", .ofOption name d.name),
    ("params", .array [.object [data "Parameter" d.parameters]]),
    ("flags", .string (functionFlags d))]

def classMembers (d : ClassDeclaration) : List (String × JsonTree) :=
  [data "ClassDeclaration" d.range, ("id", .ofOption name d.name),
    ("super_class", .ofOption expression d.superclass)]

def declaration : Declaration → JsonTree
  | .variable d => typed "Variable" (variableMembers d)
  | .function d => typed "Function" (functionMembers d)
  | .classOf d => typed "Class" (classMembers d)

def defaultExport : DefaultExport → JsonTree
  | .expression e => typed "Expression" (expressionMembers e)
  | .function d => typed "Function" (functionMembers d)
  | .classOf d => typed "Class" (classMembers d)

def importBinding : ImportBinding → JsonTree
  | .default localName => typed "ImportDefault" [("local", name localName)]
  | .namespace localName => typed "ImportNamespace" [("local", name localName)]
  | .named imported localName =>
    typed "Import" [("imported", name imported), ("local", name localName)]

def exportEntry (e : ExportEntry) : JsonTree :=
  typed "Export" [("local", name e.localName), ("exported", name e.exported)]

/-- The three forms of a named export share one shape. -/
def exportNamed (range : Range) (declared : JsonTree) (specifiers : List JsonTree)
    (from? : Option Quoted) : JsonTree :=
  typed "ExportNamed" [data "ExportNamedDeclaration" range, ("declaration", declared),
    ("specifiers", .array specifiers), ("source", .ofOption source from?)]

def statement : Statement → JsonTree
  | .importFrom bindings from? range =>
    typed "Import" [data "ImportDeclaration" range,
      ("specifiers", .array (bindings.map importBinding)), ("source", source from?)]
  | .exportDefault value range =>
    typed "ExportDefault" [data "ExportDefaultDeclaration" range,
      ("declaration", defaultExport value)]
  | .exportDeclaration d range => exportNamed range (declaration d) [] none
  | .exportList entries from? range => exportNamed range .null (entries.map exportEntry) from?
  | .exportNamespace exported from? range =>
    exportNamed range .null [typed "ExportNamespace" [("exported", name exported)]] (some from?)
  | .exportAll from? range =>
    typed "ExportAll" [data "ExportAllDeclaration" range, ("source", source from?)]
  | .declaration d => declaration d
  | .verbatim text range =>
    typed "Expression" [data "ExpressionStatement" range,
      ("expression", expression (.verbatim text range))]

end Outline

def Module.outline (m : Module) : String :=
  (JsonTree.object [("body", .array (m.body.map Outline.statement))]).render

end ModuleBridge
