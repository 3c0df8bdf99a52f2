import ModuleBridge.Source.Stretch
import ModuleBridge.Source.Token
import ModuleBridge.Syntax.Statement

/-!
# Telling expressions apart

An expression is passed as a stretch and then classified: a stretch that one token covers completely
is that name, string or number, any other is kept verbatim.
-/

namespace ModuleBridge

/-- Whether a token read from `c` is complete at offset `stop`. -/
def coversTo {α : Type} (op : Scan α) (c : Cursor) (stop : Nat) : Option α :=
  match op c with
  | .ok value d => if d.pos = stop then some value else none
  | .error _ _ => none

/-- Classify the expression that goes from `c` to the offset `stop`. -/
def classifyExpression (c : Cursor) (stop : Nat) : Expression :=
  let range : Range := ⟨c.pos, stop⟩
  let text := Expression.verbatim (textOf (c.after.take (stop - c.pos))) range
  match c.byte? with
  | none => text
  | some b =>
    if isQuote b then
      match coversTo Scan.quoted c stop with
      | some token => .string token.value range
      | none => text
    else if isDigitByte b || b == byte '.' then
      match coversTo Scan.number c stop with
      | some token => .number token.value range
      | none => text
    else if isNameStart b then
      match coversTo Scan.name c stop with
      | some name => .name name
      | none => text
    else text

namespace Scan

/-- Classify what `stretch` passes, which must not be empty. -/
def classified (stretch : Scan Range) : Scan Expression := do
  let start ← get
  let range ← stretch
  if range.isEmpty then failHere .expressionExpected []
  return classifyExpression start range.stop

def value : Scan Expression :=
  classified expression

end Scan

end ModuleBridge
