import ModuleBridge.Grammar.Expression
import ModuleBridge.Grammar.Pattern

/-!
# Declarations

Reading variable, function and class declarations. Initial values, parameter lists and bodies are
passed as stretches and blocks.
-/

namespace ModuleBridge

namespace Scan

/-- Run `op` after the trivia that follows, and go back to before the trivia when it answers
nothing. -/
def afterSpace {α : Type} (op : Scan (Option α)) : Scan (Option α) := do
  let start ← get
  space
  match ← op with
  | some value => return some value
  | none =>
    set start
    return none

def optionalSemicolon : Scan Unit := do
  let _ ← afterSpace do
    return if ← accept ";" then some () else none

def rangeFrom (start : Cursor) : Scan Range :=
  peek start.rangeTo

/-- Whether a function declaration opened by `async` stands at the cursor: no line end may come
between the two words. -/
def atAsyncFunction : Scan Bool :=
  peek fun c =>
    match (acceptWord "async") c with
    | .ok true d =>
      match trivia d with
      | .ok false e => e.startsWithWord "function"
      | _ => false
    | _ => false

def declarator : Scan Declarator := do
  let start ← get
  let target ←
    if start.startsWith "\x7b" || start.startsWith "[" then do
      let names ← boundNames
      pure (Target.pattern names (← rangeFrom start))
    else pure (Target.name (← name))
  let value ← afterSpace do
    if ← atAssignment then
      let _ ← accept "="
      space
      return some (← Scan.value)
    else return none
  return ⟨target, value, ← rangeFrom start⟩

def declarators : Nat → Scan (List Declarator)
  | 0 => failHere .identifierExpected []
  | fuel + 1 => do
      space
      let first ← declarator
      let comma ← afterSpace do
        return if ← accept "," then some () else none
      match comma with
      | some () => return first :: (← declarators fuel)
      | none => return [first]

def variableDeclaration (kind : VariableKind) : Scan VariableDeclaration := do
  let start ← get
  expectWord kind.keyword.text
  let all ← declarators ((← get).after.length + 1)
  optionalSemicolon
  return ⟨kind, all, ← rangeFrom start⟩

/-- The parameter list of a function. A list that cannot be passed as a block ends at the next
closing parenthesis. -/
def parameters : Scan Range := do
  let start ← get
  unless start.startsWith "(" do
    failHere .expected ["("]
  match parentheses start with
  | .ok _ rest => set rest
  | .error _ _ =>
    set (start.advance 1)
    let _ ← skipPast (byte ')')
  rangeFrom start

/-- The name of a function or class, when it may be absent only unless `required`. -/
def declaredName (present required : Bool) : Scan (Option Name) := do
  if present then return some (← name)
  else if required then failHere .nameRequired []
  else return none

def functionDeclaration (nameRequired : Bool) : Scan FunctionDeclaration := do
  let start ← get
  let isAsync ← acceptWord "async"
  if isAsync then space
  expectWord "function"
  space
  let isGenerator ← accept "*"
  if isGenerator then space
  let name ← declaredName (← atName) nameRequired
  space
  let params ← parameters
  space
  let _ ← braces
  return ⟨name, isAsync, isGenerator, params, ← rangeFrom start⟩

def classDeclaration (nameRequired : Bool) : Scan ClassDeclaration := do
  let start ← get
  expectWord "class"
  space
  let hasName := (← atName) && !(← peek (·.startsWithWord "extends"))
  let name ← declaredName hasName nameRequired
  space
  let superclass ←
    if ← acceptWord "extends" then do
      space
      pure (some (← classified heritage))
    else pure none
  space
  let _ ← braces
  return ⟨name, superclass, ← rangeFrom start⟩

end Scan

end ModuleBridge
