import ModuleBridge.Grammar.Declaration

/-!
# Modules

Reading imports, exports and whole modules. The word at the start of a statement selects how it is
read; a statement that starts with none of the known words is kept verbatim.
-/

namespace ModuleBridge

/-- The forms of statement that a leading word selects. -/
inductive StatementForm where
  | importing
  | exporting
  | variable (kind : VariableKind)
  | function
  | classOf
deriving DecidableEq, Repr

def Keyword.form? : Keyword → Option StatementForm
  | importWord => some .importing
  | exportWord => some .exporting
  | constWord => some (.variable .const)
  | letWord => some (.variable .lexical)
  | varWord => some (.variable .var)
  | functionWord => some .function
  | classWord => some .classOf
  | _ => none

/-- Whether the statement that starts with `word` at `c` has that word's form. `import` followed by
a parenthesis or a point is an expression, and `let` is a name unless a binding follows. -/
def StatementForm.isAt (form : StatementForm) (word : Keyword) (c : Cursor) : Bool :=
  let next := match Scan.acceptWord word.text c with
    | .ok true d =>
      match Scan.space d with
      | .ok _ e => some e
      | .error _ _ => none
    | _ => none
  match form, next with
  | .importing, some e => !e.startsWith "(" && !e.startsWith "."
  | .variable _, some e => e.byte?.any isNameStart || e.startsWith "\x7b" || e.startsWith "["
  | .importing, none => false
  | .variable _, none => false
  | _, _ => true

namespace Scan

def statementForm? : Scan (Option StatementForm) := do
  if ← atAsyncFunction then return some .function
  let c ← get
  match Keyword.statementWords.find? (c.startsWithWord ·.text) with
  | none => return none
  | some word => return word.form?.filter (·.isAt word c)

/-- A list in braces of names, each with an optional `as` name, which else is the name itself. -/
def namePairs : Nat → Scan (List (Name × Name))
  | 0 => failHere .identifierExpected []
  | fuel + 1 => do
      space
      if ← accept "\x7d" then return []
      let first ← name
      space
      let second ←
        if ← acceptWord "as" then do
          space
          name
        else pure first
      space
      if ← accept "," then return (first, second) :: (← namePairs fuel)
      expect "\x7d"
      return [(first, second)]

def bracedPairs : Scan (List (Name × Name)) := do
  expect "\x7b"
  namePairs ((← get).after.length + 1)

/-- The `from` part of an import or export. -/
def fromClause : Scan Quoted := do
  expectWord "from"
  space
  quoted

/-- `* as name`, or a list in braces. -/
def importBindings : Scan (List ImportBinding) := do
  if ← accept "*" then
    space
    expectWord "as"
    space
    return [.namespace (← name)]
  else
    unless ← peek (·.startsWith "\x7b") do
      failHere .expected ["\x7b"]
    return (← bracedPairs).map fun (imported, localName) => .named imported localName

def importStatement : Scan Statement := do
  let start ← get
  expectWord "import"
  space
  if (← get).byte?.any isQuote then
    let source ← quoted
    optionalSemicolon
    return .importFrom [] source (← rangeFrom start)
  let bindings ←
    if ← atName then do
      let localName ← name
      space
      let more ←
        if ← accept "," then do
          space
          importBindings
        else pure []
      pure (.default localName :: more)
    else importBindings
  space
  let source ← fromClause
  optionalSemicolon
  return .importFrom bindings source (← rangeFrom start)

def defaultExport : Scan DefaultExport := do
  let c ← get
  if c.startsWithWord "function" || (← atAsyncFunction) then
    return .function (← functionDeclaration false)
  else if c.startsWithWord "class" then
    return .classOf (← classDeclaration false)
  else
    let expression ← value
    optionalSemicolon
    return .expression expression

def exportStatement : Scan Statement := do
  let start ← get
  expectWord "export"
  space
  if ← acceptWord "default" then
    space
    let value ← defaultExport
    return .exportDefault value (← rangeFrom start)
  else if ← accept "*" then
    space
    let exported ←
      if ← acceptWord "as" then do
        space
        let exported ← name
        space
        pure (some exported)
      else pure none
    let source ← fromClause
    optionalSemicolon
    let range ← rangeFrom start
    match exported with
    | some exported => return .exportNamespace exported source range
    | none => return .exportAll source range
  else if ← peek (·.startsWith "\x7b") then
    let entries := (← bracedPairs).map fun (localName, exported) => ⟨localName, exported⟩
    let source ← afterSpace do
      if ← peek (·.startsWithWord "from") then return some (← fromClause) else return none
    optionalSemicolon
    return .exportList entries source (← rangeFrom start)
  else
    let declaration ←
      match ← statementForm? with
      | some (.variable kind) => pure (Declaration.variable (← variableDeclaration kind))
      | some .function => pure (Declaration.function (← functionDeclaration true))
      | some .classOf => pure (Declaration.classOf (← classDeclaration true))
      | _ => failHere .statementExpected []
    return .exportDeclaration declaration (← rangeFrom start)

def verbatimStatement : Scan Statement := do
  let start ← get
  let range ← statement
  return .verbatim (start.textUpTo (← get)) range

def topLevelStatement : Scan Statement := do
  match ← statementForm? with
  | some .importing => importStatement
  | some .exporting => exportStatement
  | some (.variable kind) => return .declaration (.variable (← variableDeclaration kind))
  | some .function => return .declaration (.function (← functionDeclaration true))
  | some .classOf => return .declaration (.classOf (← classDeclaration true))
  | none => verbatimStatement

def statements : Nat → Scan (List Statement)
  | 0 => failHere .statementExpected []
  | fuel + 1 => do
      if (← get).isAtEnd then return []
      let first ← topLevelStatement
      space
      return first :: (← statements fuel)

def wholeModule : Scan Module := do
  skipShebang
  space
  return ⟨← statements ((← get).after.length + 1)⟩

end Scan

def parseModule (text : String) : Except Fault Module :=
  match Scan.wholeModule (Cursor.ofText text) with
  | .ok m _ => .ok m
  | .error fault _ => .error fault

end ModuleBridge
