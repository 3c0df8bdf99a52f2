import ModuleBridge.Json.Fault
import ModuleBridge.Json.Tree

/-!
# JSON numbers

A number of a document is an unsigned or a negative integer of 64 bits, or else a double. The double
is found in two roundings, once for the digits kept and once for the power of ten, so it may differ
from the nearest one in its last place.
-/

namespace ModuleBridge

structure JsonNumber where
  isNegative : Bool
  whole : List Nat
  fraction : List Nat
  exponent : Int
  /-- How many digits follow the one that takes the exponent out of 32 bits. -/
  excess : Nat
  /-- Whether a point or an exponent is written. -/
  isDecimal : Bool
deriving DecidableEq, Repr

/-- The digits of a significand that fit 64 bits: the value of those kept, how many are kept, and
how many are left over. -/
def keepDigits (value : Nat) : List Nat → Nat × Nat × Nat
  | [] => (value, 0, 0)
  | d :: rest =>
    if value * 10 + d < twoTo 64 then
      let (final, kept, left) := keepDigits (value * 10 + d) rest
      (final, kept + 1, left)
    else (value, 0, rest.length + 1)

/-- The number of digits after the one that takes a number beyond `2147483647`. -/
def excessDigits (value : Nat) : List Nat → Nat
  | [] => 0
  | d :: rest =>
    if 2147483647 < value * 10 + d then rest.length else excessDigits (value * 10 + d) rest

namespace Binary64

def ofPowerOfTen (n : Nat) : Binary64 :=
  ofDecimal (tenTo n) 0

/-- Divide by ten to the power `n`, by at most 308 powers at a time. Three times suffice for a
significand of 64 bits to vanish. -/
def shrink (x : Binary64) : Nat → Nat → Binary64
  | 0, _ => ⟨0⟩
  | fuel + 1, n =>
    if n ≤ 308 then x.div (ofPowerOfTen n)
    else if x.bits = 0 then x
    else (x.div (ofPowerOfTen 308)).shrink fuel (n - 308)

/-- A significand times a power of ten; none when that is too large. -/
def ofScaled? (significand : Nat) (exponent : Int) : Option Binary64 :=
  let x := ofDecimal significand 0
  if exponent < 0 then some (x.shrink 4 exponent.natAbs)
  else if exponent ≤ 308 then
    let y := x.mul (ofPowerOfTen exponent.natAbs)
    if y.isInfinite then none else some y
  else if x.bits = 0 then some x
  else none

end Binary64

namespace JsonNumber

/-- The value of a number; none when it exceeds every double. -/
def found? (n : JsonNumber) : Option JsonFound :=
  let (whole, _, left) := keepDigits 0 n.whole
  let (significand, kept, _) := keepDigits whole n.fraction
  let double := (Binary64.ofScaled? significand (left - kept + n.exponent)).map fun x =>
    JsonFound.decimal ((if n.isNegative then "-" else "") ++ renderDouble x)
  if n.isDecimal || left ≠ 0 then double
  else if !n.isNegative then some (.integer whole)
  else if whole = 0 || twoTo 63 < whole then double
  else some (.integer (-whole))

end JsonNumber

end ModuleBridge
