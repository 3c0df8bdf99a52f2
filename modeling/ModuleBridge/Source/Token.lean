import ModuleBridge.Source.Scan
import ModuleBridge.Syntax.Name

/-!
# Tokens

Reading a name, a quoted string or a decimal number at the cursor.
-/

namespace ModuleBridge

namespace Scan

def name : Scan Name := fun c =>
  if c.byte?.any isNameStart then
    let d := c.advance (c.after.takeWhile isNamePart).length
    .ok ⟨c.textUpTo d, c.rangeTo d⟩ d
  else .error (c.fault .identifierExpected []) c

def quoted : Scan Quoted := fun c =>
  match c.after with
  | [] => .error (c.fault .stringExpected []) c
  | quote :: rest =>
    if isQuote quote then
      match quotedReach quote rest 0 with
      | .closed length =>
        let d := c.advance (length + 1)
        .ok ⟨textOf (rest.take (length - 1)), c.rangeTo d⟩ d
      | .broken length =>
        let d := c.advance (length + 1)
        .error ⟨.unterminatedString, [], (c.rangeTo d).toSpan⟩ d
    else .error (c.fault .stringExpected []) c

def digitsValue (digits : List UInt8) : Nat :=
  digits.foldl (fun value b => 10 * value + (b.toNat - 48)) 0

/-- Read a number: digits, or digits around a point, at least one in all. -/
def number : Scan NumberToken := fun c =>
  let whole := c.after.takeWhile isDigitByte
  let rest := c.after.dropWhile isDigitByte
  let (point, fraction) :=
    if rest.head? == some (byte '.') then (1, rest.tail.takeWhile isDigitByte) else (0, [])
  match whole ++ fraction with
  | [] => .error (c.fault .digitExpected []) c
  | digits =>
    let d := c.advance (whole.length + point + fraction.length)
    .ok ⟨Binary64.ofDecimal (digitsValue digits) fraction.length, c.rangeTo d⟩ d

end Scan

end ModuleBridge
