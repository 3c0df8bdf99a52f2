/-!
# Double-precision numbers

A number literal denotes the double nearest to its decimal value, a tie going to the even
significand. Everything is exact integer arithmetic on the bit pattern.
-/

namespace ModuleBridge

def twoTo (n : Nat) : Nat :=
  Nat.pow 2 n

def tenTo (n : Nat) : Nat :=
  Nat.pow 10 n

/-- A non-negative double, by its bit pattern. -/
structure Binary64 where
  bits : Nat
deriving DecidableEq, Repr, Inhabited

/-- Divide and round to the nearest integer, a tie going to the even one. -/
def roundDivEven (num den : Nat) : Nat :=
  let quotient := num / den
  let rest := num % den
  if 2 * rest < den then quotient
  else if 2 * rest = den then quotient + quotient % 2
  else quotient + 1

/-- The fraction `num / den` times two to the power `e`, as a fraction. -/
def scaleByTwo (num den : Nat) (e : Int) : Nat × Nat :=
  if 0 ≤ e then (num * twoTo e.toNat, den) else (num, den * twoTo (-e).toNat)

namespace Binary64

def infinityBits : Nat := 0x7ff * twoTo 52

def isInfinite (x : Binary64) : Bool :=
  infinityBits ≤ x.bits

/-- The exponent of the last place of the double nearest to `num / den`: it leaves 53 bits before
the point, unless that falls below the smallest exponent there is. -/
def lastPlace (num den : Nat) : Int :=
  let guess : Int := (Nat.log2 num : Int) - (Nat.log2 den : Int) - 53
  let (n, d) := scaleByTwo num den (-guess)
  let e := if twoTo 53 ≤ n / d then guess + 1 else guess
  max e (-1074)

/-- The double nearest to the fraction `num / den`. -/
def ofFraction (num den : Nat) : Binary64 :=
  if num = 0 then ⟨0⟩
  else
    let e := lastPlace num den
    let (n, d) := scaleByTwo num den (-e)
    ⟨min infinityBits ((e + 1074).toNat * twoTo 52 + roundDivEven n d)⟩

/-- The double nearest to `digits` divided by ten to the power `scale`. -/
def ofDecimal (digits scale : Nat) : Binary64 :=
  ofFraction digits (tenTo scale)

/-- Significand and exponent of a finite double: its value is `significand * 2 ^ exponent`. -/
def parts (x : Binary64) : Nat × Int :=
  let exponent : Nat := x.bits / twoTo 52
  let fraction : Nat := x.bits % twoTo 52
  if exponent = 0 then (fraction, -1074)
  else (twoTo 52 + fraction, Int.ofNat exponent - 1075)

/-- The double nearest to the product of two finite ones. -/
def mul (x y : Binary64) : Binary64 :=
  let (m, e) := x.parts
  let (n, f) := y.parts
  let (num, den) := scaleByTwo (m * n) 1 (e + f)
  ofFraction num den

/-- The double nearest to the quotient of two finite ones, the second not zero. -/
def div (x y : Binary64) : Binary64 :=
  let (m, e) := x.parts
  let (n, f) := y.parts
  let (num, den) := scaleByTwo m n (e - f)
  ofFraction num den

end Binary64

end ModuleBridge
