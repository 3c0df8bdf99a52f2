import ModuleBridge.Url.Domain
import ModuleBridge.Url.Percent

/-!
# Hosts

A host is a name or a numeric address. Hosts of special schemes are domain names in ASCII, IPv4
addresses in any of their spellings, or IPv6 addresses in brackets; hosts of other schemes are taken
as they stand.
-/

namespace ModuleBridge

inductive Host where
  | name (text : String)
  | ipv4 (address : Nat)
  /-- The eight pieces of an address. -/
  | ipv6 (pieces : List Nat)
deriving DecidableEq, Repr, Inhabited

/-- The value of `digits` in `base`, if they are digits of it. -/
def readDigits? (base : Nat) (digits : List Char) : Option Nat :=
  digits.foldl (fun value? c => do
    let value ← value?
    let digit ← hexValue? c
    if digit < base then some (base * value + digit) else none) (some 0)

/-- One number of an IPv4 address: hexadecimal after `0x`, octal after `0`, else decimal. -/
def readIpv4Number? (text : List Char) : Option Nat :=
  match text with
  | [] => none
  | '0' :: x :: digits =>
    if x == 'x' || x == 'X' then readDigits? 16 digits else readDigits? 8 (x :: digits)
  | digits => readDigits? 10 digits

/-- The labels of a domain, without the empty one after a final point. -/
def domainLabels (domain : List Char) : List (List Char) :=
  let labels := splitAtAll (· == '.') domain
  if 1 < labels.length && labels.getLast? == some [] then labels.dropLast else labels

/-- Whether a domain has to be read as an IPv4 address: its last label is a number. -/
def endsInNumber (domain : List Char) : Bool :=
  match (domainLabels domain).getLast? with
  | none => false
  | some last => (!last.isEmpty && last.all Char.isDigit) || (readIpv4Number? last).isSome

/-- The address of up to four numbers: each but the last is one byte, the last fills the rest. -/
def ipv4OfNumbers? (numbers : List Nat) : Option Nat :=
  match numbers.reverse with
  | [] => none
  | last :: leading =>
    if 4 < numbers.length || Nat.pow 256 (5 - numbers.length) ≤ last ||
        leading.any (255 < ·) then none
    else
      let high := leading.reverse.foldl (fun value n => 256 * value + n) 0
      some (high * Nat.pow 256 (5 - numbers.length) + last)

def readIpv4? (domain : List Char) : Option Nat := do
  ipv4OfNumbers? (← (domainLabels domain).mapM readIpv4Number?)

/-! ## IPv6 -/

/-- Up to four hexadecimal digits at the front: their value, their number and the rest. -/
def takeHexPiece (text : List Char) : Nat × Nat × List Char :=
  let digits := (text.take 4).takeWhile fun c => (hexValue? c).isSome
  ((readDigits? 16 digits).getD 0, digits.length, text.drop digits.length)

def readByteNumber? (digits : List Char) : Option Nat :=
  match digits with
  | [] => none
  | ['0'] => some 0
  | '0' :: _ => none
  | _ => do
      if 3 < digits.length then none
      let value ← readDigits? 10 digits
      if value < 256 then some value else none

/-- The two pieces of an IPv4 address at the end of an IPv6 address. -/
def readIpv4Tail? (text : List Char) : Option (List Nat) := do
  match ← (splitAtAll (· == '.') text).mapM readByteNumber? with
  | [a, b, c, d] => some [256 * a + b, 256 * c + d]
  | _ => none

/-- The pieces read so far, last first, and how many of them stand before the compression mark. -/
structure Ipv6State where
  pieces : List Nat
  compressAt : Option Nat
deriving DecidableEq, Repr

/-- The pieces that are taken; a compression mark stands for one at least. -/
def Ipv6State.taken (state : Ipv6State) : Nat :=
  state.pieces.length + state.compressAt.toList.length

/-- Read pieces up to the end; `fuel` is the number of pieces and marks still allowed. -/
def readIpv6Pieces? : Nat → Ipv6State → List Char → Option Ipv6State
  | 0, state, text => if text.isEmpty then some state else none
  | fuel + 1, state, text =>
    if text.isEmpty then some state
    else if text.head? == some ':' then
      match state.compressAt with
      | some _ => none
      | none => readIpv6Pieces? fuel ⟨state.pieces, some state.pieces.length⟩ text.tail
    else
      let (value, count, rest) := takeHexPiece text
      match rest with
      | '.' :: _ =>
        if count = 0 || 6 < state.taken then none
        else do
          let tail ← readIpv4Tail? text
          some ⟨tail.reverse ++ state.pieces, state.compressAt⟩
      | ':' :: more =>
        if more.isEmpty then none
        else readIpv6Pieces? fuel ⟨value :: state.pieces, state.compressAt⟩ more
      | [] => some ⟨value :: state.pieces, state.compressAt⟩
      | _ => none

/-- An IPv6 address without its brackets. A double colon stands for as many zero pieces as are
missing. -/
def readIpv6? (text : List Char) : Option (List Nat) := do
  let state ← match text with
    | ':' :: ':' :: rest => readIpv6Pieces? 7 ⟨[], some 0⟩ rest
    | ':' :: _ => none
    | _ => readIpv6Pieces? 8 ⟨[], none⟩ text
  let pieces := state.pieces.reverse
  match state.compressAt with
  | some n =>
    some (pieces.take n ++ List.replicate (8 - pieces.length) 0 ++ pieces.drop n)
  | none => if pieces.length = 8 then some pieces else none

/-- Characters that no name of any scheme may hold. -/
def isForbiddenInHost (c : Char) : Bool :=
  ['\x00', '\t', '\n', '\r', ' ', '#', '/', ':', '<', '>', '?', '@', '[', '\\', ']', '^',
    '|'].contains c

/-- Characters that no name of a special scheme may hold. -/
def isForbiddenInDomain (c : Char) : Bool :=
  isForbiddenInHost c || isControl c || c == '%'

/-- The inside of an address in brackets. -/
def bracketed? (text : List Char) : Option (List Char) :=
  match text with
  | '[' :: rest => if rest.getLast? == some ']' then some rest.dropLast else none
  | _ => none

def readHost? (text : List Char) : Option Host := do
  if text.head? == some '[' then
    return .ipv6 (← readIpv6? (← bracketed? text))
  let domain ← Domain.toAscii? (textOf (percentDecode text)).toList
  if domain.isEmpty || domain.any isForbiddenInDomain then none
  if endsInNumber domain then return .ipv4 (← readIpv4? domain)
  return .name (String.ofList domain)

def readPlainHost? (text : List Char) : Option Host := do
  if text.head? == some '[' then
    return .ipv6 (← readIpv6? (← bracketed? text))
  if text.any isForbiddenInHost then none
  return .name (String.ofList (percentEncode escapesNothing text))

def renderIpv4 (address : Nat) : String :=
  ".".intercalate ([16777216, 65536, 256, 1].map fun unit => toString (address / unit % 256))

/-- Start and length of the first longest run of zeros in `pieces`, which start at `index`. -/
def longestZeroRun (pieces : List Nat) (index : Nat) : Nat × Nat :=
  match pieces with
  | [] => (index, 0)
  | _ :: rest =>
    let here := (pieces.takeWhile (· == 0)).length
    let later := longestZeroRun rest (index + 1)
    if later.2 ≤ here then (index, here) else later

def renderPieces (pieces : List Nat) : String :=
  ":".intercalate (pieces.map fun piece => String.ofList (Nat.toDigits 16 piece))

/-- The longest run of at least two zero pieces is written as a double colon. -/
def renderIpv6 (pieces : List Nat) : String :=
  let (start, length) := longestZeroRun pieces 0
  if length < 2 then renderPieces pieces
  else renderPieces (pieces.take start) ++ "::" ++ renderPieces (pieces.drop (start + length))

def Host.render : Host → String
  | .name text => text
  | .ipv4 address => renderIpv4 address
  | .ipv6 pieces => "[" ++ renderIpv6 pieces ++ "]"

end ModuleBridge
