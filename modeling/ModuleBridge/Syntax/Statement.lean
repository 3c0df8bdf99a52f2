import ModuleBridge.Syntax.Name

/-!
# Statements of a module

A module is a list of top-level statements. Imports, exports and declarations are understood; every
other statement is kept verbatim. All parts carry their range in the source text.
-/

namespace ModuleBridge

/-- An expression, as far as it is told apart. -/
inductive Expression where
  | name (name : Name)
  /-- A lone string, by the text between its quotes. -/
  | string (value : String) (range : Range)
  /-- A lone decimal number. -/
  | number (value : Binary64) (range : Range)
  /-- Anything else, by its text. -/
  | verbatim (text : String) (range : Range)
deriving DecidableEq, Repr, Inhabited

def Expression.range : Expression → Range
  | .name n => n.range
  | .string _ range => range
  | .number _ range => range
  | .verbatim _ range => range

/-- What a declarator binds: one name, or the names of a destructuring pattern in source order. -/
inductive Target where
  | name (name : Name)
  | pattern (names : List Name) (range : Range)
deriving DecidableEq, Repr, Inhabited

def Target.names : Target → List Name
  | .name n => [n]
  | .pattern names _ => names

structure Declarator where
  target : Target
  value : Option Expression
  range : Range
deriving DecidableEq, Repr, Inhabited

inductive VariableKind where
  | var
  | lexical
  | const
deriving DecidableEq, Repr, Inhabited

def VariableKind.keyword : VariableKind → Keyword
  | .var => .varWord
  | .lexical => .letWord
  | .const => .constWord

structure VariableDeclaration where
  kind : VariableKind
  declarators : List Declarator
  range : Range
deriving DecidableEq, Repr, Inhabited

def VariableDeclaration.names (d : VariableDeclaration) : List Name :=
  d.declarators.flatMap (·.target.names)

/-- A function; only a default export may lack the name. -/
structure FunctionDeclaration where
  name : Option Name
  isAsync : Bool
  isGenerator : Bool
  parameters : Range
  range : Range
deriving DecidableEq, Repr, Inhabited

/-- A class; only a default export may lack the name. -/
structure ClassDeclaration where
  name : Option Name
  superclass : Option Expression
  range : Range
deriving DecidableEq, Repr, Inhabited

inductive Declaration where
  | variable (declaration : VariableDeclaration)
  | function (declaration : FunctionDeclaration)
  | classOf (declaration : ClassDeclaration)
deriving DecidableEq, Repr, Inhabited

def Declaration.range : Declaration → Range
  | .variable d => d.range
  | .function d => d.range
  | .classOf d => d.range

def Declaration.names : Declaration → List Name
  | .variable d => d.names
  | .function d => d.name.toList
  | .classOf d => d.name.toList

inductive ImportBinding where
  | default (localName : Name)
  | namespace (localName : Name)
  | named (imported localName : Name)
deriving DecidableEq, Repr, Inhabited

structure ExportEntry where
  localName : Name
  exported : Name
deriving DecidableEq, Repr, Inhabited

inductive DefaultExport where
  | expression (value : Expression)
  | function (declaration : FunctionDeclaration)
  | classOf (declaration : ClassDeclaration)
deriving DecidableEq, Repr, Inhabited

def DefaultExport.range : DefaultExport → Range
  | .expression value => value.range
  | .function d => d.range
  | .classOf d => d.range

inductive Statement where
  /-- An import; without bindings it only runs the module. -/
  | importFrom (bindings : List ImportBinding) (source : Quoted) (range : Range)
  | exportDefault (value : DefaultExport) (range : Range)
  | exportDeclaration (declaration : Declaration) (range : Range)
  /-- An export list, of this module's names or, with a source, of another module's. -/
  | exportList (entries : List ExportEntry) (source : Option Quoted) (range : Range)
  /-- All exports of a module under one name. -/
  | exportNamespace (exported : Name) (source : Quoted) (range : Range)
  /-- All exports of a module under their own names. -/
  | exportAll (source : Quoted) (range : Range)
  | declaration (declaration : Declaration)
  /-- Code that is not taken apart. -/
  | verbatim (text : String) (range : Range)
deriving DecidableEq, Repr, Inhabited

namespace Statement

def range : Statement → Range
  | importFrom _ _ range => range
  | exportDefault _ range => range
  | exportDeclaration _ range => range
  | exportList _ _ range => range
  | exportNamespace _ _ range => range
  | exportAll _ range => range
  | declaration d => d.range
  | verbatim _ range => range

def isModuleDeclaration : Statement → Bool
  | declaration _ => false
  | verbatim _ _ => false
  | _ => true

end Statement

structure Module where
  body : List Statement
deriving DecidableEq, Repr, Inhabited

def Module.hasModuleSyntax (m : Module) : Bool :=
  m.body.any Statement.isModuleDeclaration

end ModuleBridge
