import ModuleBridge.Source.Stretch
import ModuleBridge.Source.Token

/-!
# Destructuring patterns

Reading the names that a binding target introduces: a name, an object pattern or an array pattern.
Keys, default values and elisions are passed over. Nested patterns are followed with a fuel of two
steps a byte, which no pattern uses up.
-/

namespace ModuleBridge

namespace Scan

/-- Whether a single `=` stands at the cursor. -/
def atAssignment : Scan Bool :=
  peek fun c => c.startsWith "=" && !c.startsWith "=="

/-- Pass a default value, if there is one. -/
def defaultValue : Scan Unit := do
  space
  if ← atAssignment then
    let _ ← accept "="
    space
    let _ ← expression

/-- Pass a property key. A name is returned, because it may be a binding of its own. -/
def propertyKey : Scan (Option Name) := do
  match (← get).byte? with
  | some b =>
    if isQuote b then
      let _ ← quoted
      return none
    else if b == byte '[' then
      let _ ← brackets
      return none
    else if isDigitByte b then
      let _ ← number
      return none
    else return some (← name)
  | none => return some (← name)

mutual

def bindingNames : Nat → Scan (List Name)
  | 0 => failHere .identifierExpected []
  | fuel + 1 => do
      if ← accept "\x7b" then objectNames fuel
      else if ← accept "[" then arrayNames fuel
      else return [← name]

def objectNames : Nat → Scan (List Name)
  | 0 => failHere .identifierExpected []
  | fuel + 1 => do
      space
      if ← accept "\x7d" then return []
      let names ←
        if ← accept "..." then do
          space
          bindingNames fuel
        else do
          let key ← propertyKey
          space
          let names ←
            if ← accept ":" then do
              space
              bindingNames fuel
            else
              match key with
              | some name => pure [name]
              | none => failHere .expected [":"]
          defaultValue
          pure names
      space
      if ← accept "," then return names ++ (← objectNames fuel)
      expect "\x7d"
      return names

def arrayNames : Nat → Scan (List Name)
  | 0 => failHere .identifierExpected []
  | fuel + 1 => do
      space
      if ← accept "]" then return []
      if ← accept "," then arrayNames fuel
      else
        if ← accept "..." then space
        let names ← bindingNames fuel
        defaultValue
        space
        if ← accept "," then return names ++ (← arrayNames fuel)
        expect "]"
        return names

end

/-- The names that the binding target at the cursor introduces, in source order. -/
def boundNames : Scan (List Name) := do
  bindingNames (2 * (← get).after.length + 2)

end Scan

end ModuleBridge
