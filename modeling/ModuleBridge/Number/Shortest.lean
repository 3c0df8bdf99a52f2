import ModuleBridge.Number.Binary64

/-!
# Shortest decimals

The shortest decimal that reads back as a given double: for one, two, up to seventeen digits the two
neighbours of the value on that decimal grid are tested against the interval of reals that round to
the double; the first grid with a hit wins, and of two hits the nearer one.
-/

namespace ModuleBridge

/-- A positive decimal: `0.d₁d₂…dₙ` times ten to the power `point`, where the digits are those of
`digits`. -/
structure ShortDecimal where
  digits : Nat
  point : Int
deriving DecidableEq, Repr, Inhabited

/-- The fraction `num / den` times ten to the power `e`, as a fraction. -/
def scaleByTen (num den : Nat) (e : Int) : Nat × Nat :=
  if 0 ≤ e then (num * tenTo e.toNat, den) else (num, den * tenTo (-e).toNat)

def decimalDigits (n : Nat) : List Char :=
  Nat.toDigits 10 n

/-- The reals that round to `significand * 2 ^ exponent`, as multiples of `2 ^ (exponent - 2)`; the
ends belong to the interval when `closed`. -/
structure RoundingInterval where
  low : Nat
  value : Nat
  high : Nat
  closed : Bool
deriving DecidableEq, Repr

/-- Below a power of two the doubles lie twice as dense, so the lower end is nearer there. -/
def RoundingInterval.of (significand : Nat) (exponent : Int) : RoundingInterval :=
  let below := if significand = twoTo 52 ∧ -1074 < exponent then 1 else 2
  ⟨4 * significand - below, 4 * significand, 4 * significand + 2, significand % 2 = 0⟩

/-- The ten's exponent `k` with `10 ^ (k - 1) ≤ num / den < 10 ^ k`. -/
def decimalPoint (num den : Nat) : Int :=
  let guess : Int := (decimalDigits num).length - (decimalDigits den).length
  let (n, d) := scaleByTen num den (-guess)
  if d ≤ n then guess + 1 else guess

/-- Look for a hit among the decimals with `count` digits and more; `fuel` counts the grids left. -/
def shortestFrom (i : RoundingInterval) (exponent point : Int) : Nat → Nat → ShortDecimal
  | 0, count =>
    let (n, d) := scaleByTwo i.value 1 (exponent - 2)
    let (n, d) := scaleByTen n d (count - point)
    ⟨n / d, point⟩
  | fuel + 1, count =>
    let (n, d) := scaleByTwo 1 1 (exponent - 2)
    let (n, d) := scaleByTen n d (count - point)
    let inside (x : Nat) : Bool :=
      if i.closed then i.low * n ≤ x * d && x * d ≤ i.high * n
      else i.low * n < x * d && x * d < i.high * n
    let lower := i.value * n / d
    let twice := 2 * (i.value * n)
    let preferLower := twice < (2 * lower + 1) * d ||
      (twice = (2 * lower + 1) * d && lower % 2 = 0)
    let pick (x : Nat) : ShortDecimal :=
      if x = tenTo count then ⟨1, point + 1⟩ else ⟨x, point⟩
    if inside lower && (preferLower || !inside (lower + 1)) then pick lower
    else if inside (lower + 1) then pick (lower + 1)
    else shortestFrom i exponent point fuel (count + 1)

def Binary64.shortest (x : Binary64) : ShortDecimal :=
  let (significand, exponent) := x.parts
  let (n, d) := scaleByTwo significand 1 exponent
  shortestFrom (RoundingInterval.of significand exponent) exponent (decimalPoint n d) 17 1

/-- How a decimal is laid out: positional notation for points above `low` and up to `high`,
exponents with a sign elsewhere. -/
structure NumberLayout where
  low : Int
  high : Int
deriving DecidableEq, Repr

def zeros (n : Int) : List Char :=
  List.replicate n.toNat '0'

/-- Write a decimal. Positional notation always has a digit on both sides of the point. -/
def NumberLayout.render (layout : NumberLayout) (x : ShortDecimal) : String :=
  let ds := decimalDigits x.digits
  let count : Int := ds.length
  String.ofList <|
    if layout.low < x.point && x.point ≤ layout.high then
      if x.point ≤ 0 then '0' :: '.' :: zeros (-x.point) ++ ds
      else if count ≤ x.point then ds ++ zeros (x.point - count) ++ ['.', '0']
      else ds.take x.point.toNat ++ '.' :: ds.drop x.point.toNat
    else
      let exponent := x.point - 1
      let sign := if exponent < 0 then '-' else '+'
      let mantissa := match ds with
        | d :: e :: rest => d :: '.' :: e :: rest
        | short => short
      mantissa ++ 'e' :: sign :: decimalDigits exponent.natAbs

end ModuleBridge
