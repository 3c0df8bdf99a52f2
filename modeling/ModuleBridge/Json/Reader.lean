import ModuleBridge.Json.Number
import ModuleBridge.Source.Cursor

/-!
# Reading JSON documents

Readers take values of a wanted type straight from the text, from left to right, so that the first
fault decides. Values nobody wants are passed over with `skipValue`, which checks only that they are
well formed.
-/

namespace ModuleBridge

/-- A reader of a JSON text; on failure the cursor stays where reading stopped. -/
abbrev JsonRead (α : Type) := EStateM JsonFault Cursor α

def isJsonBlank (b : UInt8) : Bool :=
  b == 0x20 || b == 0x0a || b == 0x09 || b == 0x0d

namespace JsonRead

variable {α : Type}

def fail (problem : JsonProblem) : JsonRead α := fun c =>
  .error ⟨problem, some c.pos⟩ c

/-- Fail at the byte after the cursor, which has been looked at. -/
def failAtNext (problem : JsonProblem) : JsonRead α := fun c =>
  .error ⟨problem, some (c.advance 1).pos⟩ c

/-- Fail `count` bytes before the cursor. -/
def failEarlier (count : Nat) (problem : JsonProblem) : JsonRead α := fun c =>
  .error ⟨problem, some (c.pos - count)⟩ c

/-- Fail at a place that is found later. -/
def failSomewhere (problem : JsonProblem) : JsonRead α := fun c =>
  .error ⟨problem, none⟩ c

def peek : JsonRead (Option UInt8) := do
  return (← get).byte?

def step : JsonRead Unit :=
  modify (·.advance 1)

def next : JsonRead (Option UInt8) := do
  let b ← peek
  step
  return b

/-- The first byte that is not blank, with the cursor in front of it. -/
def peekToken : JsonRead (Option UInt8) := do
  modify fun c => c.advance (c.after.takeWhile isJsonBlank).length
  peek

def remaining : JsonRead Nat := do
  return (← get).after.length

/-! ## Words and numbers -/

/-- The rest of a word whose first letter has been taken. -/
def wordRest : List UInt8 → JsonRead Unit
  | [] => return
  | b :: rest => do
      match ← next with
      | none => fail .endInValue
      | some found => if found = b then wordRest rest else fail .wordExpected

def word (text : String) : JsonRead Unit := do
  step
  wordRest (bytesOf text).tail

def digits : JsonRead (List Nat) := do
  let found := (← get).after.takeWhile isDigitByte
  modify (·.advance found.length)
  return found.map fun b => b.toNat - 0x30

/-- Fail because a number breaks off: `atEnd` if the text ends there. -/
def failNumber (atEnd : JsonProblem) : JsonRead α := do
  match ← peek with
  | some _ => failAtNext .invalidNumber
  | none => failAtNext atEnd

/-- The digits before the point. Zero stands alone. -/
def wholeDigits (atEnd : JsonProblem) : JsonRead (List Nat) := do
  match ← next with
  | none => fail atEnd
  | some b =>
    if b = 0x30 then
      if (← peek).any isDigitByte then failAtNext .invalidNumber else return [0]
    else if isDigitByte b then return (b.toNat - 0x30) :: (← digits)
    else fail .invalidNumber

def isExponentMark (b : Option UInt8) : Bool :=
  b == some 0x65 || b == some 0x45

/-- The exponent, from its mark on, and its excess digits. -/
def exponentPart (atEnd : JsonProblem) : JsonRead (Int × Nat) := do
  step
  let sign ← peek
  if sign == some 0x2b || sign == some 0x2d then step
  match ← next with
  | none => fail atEnd
  | some b =>
    if isDigitByte b then
      let all := (b.toNat - 0x30) :: (← digits)
      let value : Nat := all.foldl (fun n d => n * 10 + d) 0
      return (if sign == some 0x2d then -value else value, excessDigits 0 all)
    else fail .invalidNumber

/-- A number after its sign. When the text ends inside of it, `atEnd` is the problem. -/
def number (isNegative : Bool) (atEnd : JsonProblem) : JsonRead JsonNumber := do
  let whole ← wholeDigits atEnd
  let hasPoint := (← peek) == some 0x2e
  let mut fraction := []
  if hasPoint then
    step
    fraction ← digits
    if fraction.isEmpty then failNumber atEnd
  if isExponentMark (← peek) then
    let (exponent, excess) ← exponentPart atEnd
    return ⟨isNegative, whole, fraction, exponent, excess, true⟩
  else
    return ⟨isNegative, whole, fraction, 0, 0, hasPoint⟩

/-! ## Strings -/

def hexDigit? (b : UInt8) : Option Nat :=
  if isDigitByte b then some (b.toNat - 0x30)
  else if 0x61 ≤ b && b ≤ 0x66 then some (b.toNat - 0x57)
  else if 0x41 ≤ b && b ≤ 0x46 then some (b.toNat - 0x37)
  else none

def hexUnit : JsonRead Nat := do
  let found := (← get).after.take 4
  modify (·.advance 4)
  if found.length < 4 then fail .endInString
  else
    match found.mapM hexDigit? with
    | some values => return values.foldl (fun n d => n * 16 + d) 0
    | none => fail .invalidEscape

def isHighSurrogate (unit : Nat) : Bool :=
  0xd800 ≤ unit && unit ≤ 0xdbff

def isLowSurrogate (unit : Nat) : Bool :=
  0xdc00 ≤ unit && unit ≤ 0xdfff

/-- The next byte has to be `b` for a pair of escapes to go on. -/
def pairByte (b : UInt8) : JsonRead Unit := do
  match ← peek with
  | none => fail .endInString
  | some found =>
    step
    if found ≠ b then fail .escapeCutShort

/-- The character of an escape by code units, after its mark. -/
def unitEscape : JsonRead Char := do
  let unit ← hexUnit
  if isLowSurrogate unit then fail .loneSurrogate
  else if isHighSurrogate unit then
    pairByte 0x5c
    pairByte 0x75
    let second ← hexUnit
    if isLowSurrogate second then
      return Char.ofNat ((unit - 0xd800) * 0x400 + (second - 0xdc00) + 0x10000)
    else fail .loneSurrogate
  else return Char.ofNat unit

/-- The character that a one-letter escape stands for. -/
def simpleEscape? (b : UInt8) : Option Char :=
  if b = 0x22 then some '"'
  else if b = 0x5c then some '\\'
  else if b = 0x2f then some '/'
  else if b = 0x62 then some '\x08'
  else if b = 0x66 then some '\x0c'
  else if b = 0x6e then some '\n'
  else if b = 0x72 then some '\r'
  else if b = 0x74 then some '\t'
  else none

def escape : JsonRead Char := do
  match ← next with
  | none => fail .endInString
  | some b =>
    if b = 0x75 then unitEscape
    else
      match simpleEscape? b with
      | some c => return c
      | none => fail .invalidEscape

/-- The bytes of a string up to its closing quote; `taken` holds those read so far, last first. -/
def stringBytes : Nat → List UInt8 → JsonRead (List UInt8)
  | 0, _ => fail .endInString
  | fuel + 1, taken => do
      match ← next with
      | none => fail .endInString
      | some b =>
        if b = 0x22 then return taken.reverse
        else if b = 0x5c then
          let c ← escape
          stringBytes fuel ((bytesOf (String.singleton c)).reverse ++ taken)
        else if b < 0x20 then fail .controlCharacter
        else stringBytes fuel (b :: taken)

def string : JsonRead String := do
  step
  return textOf (← stringBytes ((← remaining) + 1) [])

/-- Pass over an escape, after the backslash. Code units need not form characters here. -/
def skipEscape : JsonRead Unit := do
  match ← next with
  | none => fail .endInString
  | some b =>
    if b = 0x75 then
      let _ ← hexUnit
    else if (simpleEscape? b).isNone then fail .invalidEscape

def skipStringRest : Nat → JsonRead Unit
  | 0 => fail .endInString
  | fuel + 1 => do
      match ← peek with
      | none => fail .endInString
      | some b =>
        if b = 0x22 then step
        else if b = 0x5c then
          step
          skipEscape
          skipStringRest fuel
        else if b < 0x20 then fail .controlCharacter
        else
          step
          skipStringRest fuel

def skipString : JsonRead Unit := do
  step
  skipStringRest ((← remaining) + 1)

/-! ## Values of any kind -/

inductive Bracket where
  | array
  | object
deriving DecidableEq, Repr

def Bracket.closer : Bracket → UInt8
  | .array => 0x5d
  | .object => 0x7d

def Bracket.endProblem : Bracket → JsonProblem
  | .array => .endInArray
  | .object => .endInObject

def Bracket.separatorProblem : Bracket → JsonProblem
  | .array => .arrayEndExpected
  | .object => .objectEndExpected

/-- Pass over a value without brackets. False if the byte at the cursor opens a bracket. -/
def skipScalar (b : UInt8) : JsonRead Bool := do
  if b = 0x6e then word "null"; return true
  else if b = 0x74 then word "true"; return true
  else if b = 0x66 then word "false"; return true
  else if b = 0x2d then
    step
    let _ ← number true .invalidNumber
    return true
  else if isDigitByte b then
    let _ ← number false .invalidNumber
    return true
  else if b = 0x22 then skipString; return true
  else if b = 0x5b || b = 0x7b then return false
  else failAtNext .valueExpected

/-- The name of a member and its colon, inside an object; nothing in an array. -/
def skipName : Bracket → JsonRead Unit
  | .array => return
  | .object => do
      match ← peekToken with
      | some 0x22 => skipString
      | some _ => failAtNext .nameExpected
      | none => failAtNext .endInObject
      match ← peekToken with
      | some 0x3a => step
      | some _ => failAtNext .colonExpected
      | none => failAtNext .endInObject

/-- Close brackets after a value as far as the text does, up to the comma in front of the next
value. The result holds the brackets that are still open then. -/
def closeBrackets : List Bracket → JsonRead (List Bracket)
  | [] => return []
  | bracket :: outer => do
      match ← peekToken with
      | none => failAtNext bracket.endProblem
      | some b =>
        if b = 0x2c then step; return bracket :: outer
        else if b = bracket.closer then step; closeBrackets outer
        else failAtNext bracket.separatorProblem

def closesAtOnce (bracket : Bracket) : JsonRead Bool := do
  match ← peekToken with
  | none => failAtNext bracket.endProblem
  | some b => if b = bracket.closer then step; return true else return false

/-- Pass over the value at the cursor and all that follows inside of the brackets `opened`. -/
def skipValueIn : Nat → List Bracket → JsonRead Unit
  | 0, _ => fail .endInValue
  | fuel + 1, opened => do
      match ← peekToken with
      | none => failAtNext .endInValue
      | some b =>
        let isScalar ← skipScalar b
        let bracket := if b = 0x5b then Bracket.array else .object
        if !isScalar then step
        let isComplete ← if isScalar then pure true else closesAtOnce bracket
        let left ← if isComplete then closeBrackets opened else pure (bracket :: opened)
        match left with
        | [] => return
        | inner :: _ =>
          skipName inner
          skipValueIn fuel left

def skipValue : JsonRead Unit := do
  skipValueIn ((← remaining) + 1) []

end JsonRead

end ModuleBridge
