import ModuleBridge.Grammar.Module
import ModuleBridge.Proofs.Source.Calculus

/-!
# Parts of statements

Declarations, imports and exports are read part by part. A part that may be absent, or that can be
read in several ways, is an operation of its own here, so that each reading is a plain sequence.
-/

namespace ModuleBridge

def Statement.exportStar : Option Name → Quoted → Range → Statement
  | some exported, source, range => .exportNamespace exported source range
  | none, source, range => .exportAll source range

namespace Scan

/-- What `op` finds, with the trivia that follows it. -/
def spaced (op : Scan Bool) : Scan Bool := do
  if ← op then
    space
    return true
  else return false

def heritageClause : Scan (Option Expression) := do
  if ← acceptWord "extends" then
    space
    return some (← classified heritage)
  else return none

/-- The second name of a pair, which else is the first one. -/
def secondName (first : Name) : Scan Name := do
  if ← acceptWord "as" then
    space
    name
  else return first

def namedBindings : Scan (List ImportBinding) := do
  return (← bracedPairs).map fun (imported, localName) => .named imported localName

def moreBindings : Scan (List ImportBinding) := do
  if ← accept "," then
    space
    importBindings
  else return []

def importClause : Scan (List ImportBinding) := do
  if ← atName then
    let localName ← name
    space
    let more ← moreBindings
    return .default localName :: more
  else importBindings

def starName : Scan (Option Name) := do
  if ← acceptWord "as" then
    space
    let exported ← name
    space
    return some exported
  else return none

def listSource : Scan (Option Quoted) := do
  if ← peek (·.startsWithWord "from") then return some (← fromClause) else return none

def declarationOf : Option StatementForm → Scan Declaration
  | some (.variable kind) => do return .variable (← variableDeclaration kind)
  | some .function => do return .function (← functionDeclaration true)
  | some .classOf => do return .classOf (← classDeclaration true)
  | _ => failHere .statementExpected []

theorem ite_bind {α β : Type} {p : Prop} [Decidable p] (op other : Scan α) (next : α → Scan β) :
    (if p then op else other) >>= next = if p then op >>= next else other >>= next := by
  split <;> rfl

theorem functionDeclaration_eq (nameRequired : Bool) :
    functionDeclaration nameRequired = (do
      let start ← get
      let isAsync ← spaced (acceptWord "async")
      expectWord "function"
      space
      let isGenerator ← spaced (accept "*")
      let name ← declaredName (← atName) nameRequired
      space
      let params ← parameters
      space
      let _ ← braces
      return ⟨name, isAsync, isGenerator, params, ← rangeFrom start⟩) := by
  unfold functionDeclaration spaced
  simp only [bind_assoc, ite_bind, pure_bind]
  refine bind_congr fun start => bind_congr fun isAsync => ?_
  have hstar : ∀ next : Bool → Scan FunctionDeclaration,
      (do let found ← accept "*"; if found then do space; next found else next found) =
        (do let found ← accept "*"; if found then do space; next true else next false) := fun _ =>
    bind_congr fun found => by cases found <;> rfl
  cases isAsync <;> simp only [hstar, if_true, Bool.false_eq_true, if_false]

theorem classDeclaration_eq (nameRequired : Bool) :
    classDeclaration nameRequired = (do
      let start ← get
      expectWord "class"
      space
      let hasName := (← atName) && !(← peek (·.startsWithWord "extends"))
      let name ← declaredName hasName nameRequired
      space
      let base ← heritageClause
      space
      let _ ← braces
      return ⟨name, base, ← rangeFrom start⟩) := by
  unfold classDeclaration heritageClause
  simp only [bind_assoc, ite_bind, pure_bind]

theorem namePairs_succ (fuel : Nat) :
    namePairs (fuel + 1) = (do
      space
      if ← accept "\x7d" then return []
      else
        let first ← name
        space
        let second ← secondName first
        space
        if ← accept "," then return (first, second) :: (← namePairs fuel)
        else
          expect "\x7d"
          return [(first, second)]) := by
  unfold secondName
  simp only [namePairs, bind_assoc, ite_bind, pure_bind]

theorem importBindings_eq :
    importBindings = (do
      if ← accept "*" then
        space
        expectWord "as"
        space
        return [.namespace (← name)]
      else if ← peek (·.startsWith "\x7b") then namedBindings
      else failHere .expected ["\x7b"]) := by
  unfold importBindings namedBindings
  rfl

theorem importStatement_eq :
    importStatement = (do
      let start ← get
      expectWord "import"
      space
      if (← get).byte?.any isQuote then
        let source ← quoted
        optionalSemicolon
        return .importFrom [] source (← rangeFrom start)
      else
        let bindings ← importClause
        space
        let source ← fromClause
        optionalSemicolon
        return .importFrom bindings source (← rangeFrom start)) := by
  unfold importStatement importClause moreBindings
  simp only [bind_assoc, ite_bind, pure_bind]

theorem exportStatement_eq :
    exportStatement = (do
      let start ← get
      expectWord "export"
      space
      if ← acceptWord "default" then
        space
        let value ← defaultExport
        return .exportDefault value (← rangeFrom start)
      else if ← accept "*" then
        space
        let exported ← starName
        let source ← fromClause
        optionalSemicolon
        return .exportStar exported source (← rangeFrom start)
      else if ← peek (·.startsWith "\x7b") then
        let pairs ← bracedPairs
        let source ← afterSpace listSource
        optionalSemicolon
        return .exportList (pairs.map fun (localName, exported) => ⟨localName, exported⟩) source
          (← rangeFrom start)
      else
        let declaration ← declarationOf (← statementForm?)
        return .exportDeclaration declaration (← rangeFrom start)) := by
  unfold exportStatement starName listSource
  simp only [bind_assoc, ite_bind, pure_bind, Statement.exportStar]
  refine bind_congr fun start => bind_congr fun _ => bind_congr fun _ => bind_congr fun _ => ?_
  congr 1
  refine bind_congr fun _ => ?_
  congr 1
  refine bind_congr fun _ => ?_
  congr 1
  refine bind_congr fun form => ?_
  unfold declarationOf
  split <;> simp only [bind_assoc, pure_bind]

/-! ## Patterns -/

/-- What comes after an entry of a pattern: a comma and more entries, or the end. -/
def patternRest (more : Scan (List Name)) (closer : String) (names : List Name) :
    Scan (List Name) := do
  space
  if ← accept "," then return names ++ (← more)
  expect closer
  return names

variable (binding object array : Scan (List Name)) (next : List Name → Scan (List Name))

/-- A target with its default value, and what comes after them. -/
def entry : Scan (List Name) := do
  let names ← binding
  defaultValue
  next names

/-- One property of an object pattern and what comes after it. -/
def property : Scan (List Name) := do
  if ← accept "..." then
    space
    let names ← binding
    next names
  else
    let key ← propertyKey
    space
    if ← accept ":" then
      space
      entry binding next
    else
      match key with
      | some name => do
          defaultValue
          next [name]
      | none => failHere .expected [":"]

def element : Scan (List Name) := do
  if ← accept "..." then
    space
    entry binding next
  else entry binding next

/-- A name, or a pattern of which the opening mark is read here. -/
def targetNames : Scan (List Name) := do
  if ← accept "\x7b" then object
  else if ← accept "[" then array
  else return [← name]

def properties : Scan (List Name) := do
  space
  if ← accept "\x7d" then return []
  else property binding (patternRest object "\x7d")

def elements : Scan (List Name) := do
  space
  if ← accept "]" then return []
  else if ← accept "," then array
  else element binding (patternRest array "]")

theorem bindingNames_succ (fuel : Nat) :
    bindingNames (fuel + 1) = targetNames (objectNames fuel) (arrayNames fuel) := by
  rw [bindingNames]
  rfl

theorem objectNames_succ (fuel : Nat) :
    objectNames (fuel + 1) = properties (bindingNames fuel) (objectNames fuel) := by
  rw [objectNames]
  rfl

theorem arrayNames_succ (fuel : Nat) :
    arrayNames (fuel + 1) = elements (bindingNames fuel) (arrayNames fuel) := by
  rw [arrayNames]
  rfl

/-- The three readings of patterns call each other; the fuel bounds how deep. -/
theorem patterns_induction {B O A : Scan (List Name) → Prop}
    (hfail : B (failHere .identifierExpected []) ∧ O (failHere .identifierExpected []) ∧
      A (failHere .identifierExpected []))
    (hbinding : ∀ object array, O object → A array → B (targetNames object array))
    (hobject : ∀ binding object, B binding → O object → O (properties binding object))
    (harray : ∀ binding array, B binding → A array → A (elements binding array)) (fuel : Nat) :
    B (bindingNames fuel) ∧ O (objectNames fuel) ∧ A (arrayNames fuel) := by
  induction fuel with
  | zero =>
    rw [bindingNames, objectNames, arrayNames]
    exact hfail
  | succ fuel ih =>
    rw [bindingNames_succ, objectNames_succ, arrayNames_succ]
    exact ⟨hbinding _ _ ih.2.1 ih.2.2, hobject _ _ ih.1 ih.2.1, harray _ _ ih.1 ih.2.2⟩

end Scan

end ModuleBridge
