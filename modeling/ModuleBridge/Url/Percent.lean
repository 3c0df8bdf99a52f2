import ModuleBridge.Text.Range

/-!
# Percent encoding

Control characters and characters outside ASCII are always encoded, byte by byte; each part of a URL
adds characters of its own.
-/

namespace ModuleBridge

def isControl (c : Char) : Bool :=
  c < ' ' || c == '\x7f'

/-- Hexadecimal digits are written in upper case. -/
def percentByte (b : UInt8) : List Char :=
  let digit (n : Nat) : Char := (Nat.digitChar n).toUpper
  ['%', digit (b.toNat / 16), digit (b.toNat % 16)]

/-- Encode controls, characters outside ASCII, and those that `escape` selects. -/
def percentEncode (escape : Char → Bool) (text : List Char) : List Char :=
  text.flatMap fun c =>
    if isControl c || '\x7f' < c || escape c then
      (bytesOf (String.singleton c)).flatMap percentByte
    else [c]

/-- Nothing beyond what is always encoded. -/
def escapesNothing (_ : Char) : Bool :=
  false

def escapesInFragment (c : Char) : Bool :=
  c == ' ' || c == '"' || c == '<' || c == '>' || c == '\x60'

def escapesInPath (c : Char) : Bool :=
  escapesInFragment c || c == '#' || c == '?' || c == '\x7b' || c == '\x7d'

def escapesInUserinfo (c : Char) : Bool :=
  escapesInPath c || ['/', ':', ';', '=', '@', '[', '\\', ']', '^', '|'].contains c

/-- In the query of a special scheme a single quote is encoded, too. -/
def escapesInQuery (special : Bool) (c : Char) : Bool :=
  c == ' ' || c == '"' || c == '#' || c == '<' || c == '>' || (special && c == '\'')

def hexValue? (c : Char) : Option Nat :=
  if '0' ≤ c && c ≤ '9' then some (c.toNat - 48)
  else if 'a' ≤ c && c ≤ 'f' then some (c.toNat - 87)
  else if 'A' ≤ c && c ≤ 'F' then some (c.toNat - 55)
  else none

/-- Replace each percent sign with two hexadecimal digits after it by the byte they spell. -/
def percentDecode : List Char → List UInt8
  | [] => []
  | [a] => bytesOf (String.singleton a)
  | [a, b] => bytesOf (String.singleton a) ++ bytesOf (String.singleton b)
  | a :: b :: c :: rest =>
    match a == '%', hexValue? b, hexValue? c with
    | true, some high, some low => (16 * high + low).toUInt8 :: percentDecode rest
    | _, _, _ => bytesOf (String.singleton a) ++ percentDecode (b :: c :: rest)

end ModuleBridge
