import ModuleBridge.Json.Reader

/-!
# Typed JSON values

Readers for texts, flags, lists, choices and records. A record is written as an object, whose
members may come in any order and may be joined by unknown ones, or as an array of its fields in
order.
-/

namespace ModuleBridge

namespace JsonRead

variable {α σ : Type}

/-- Fail because the value at the cursor is not what is wanted. A scalar is read first, and may be
at fault itself. -/
def mismatch (expected : String) : JsonRead α := do
  let found : JsonFound ← match ← peek with
    | some 0x6e => word "null"; pure .null
    | some 0x74 => word "true"; pure (.bool true)
    | some 0x66 => word "false"; pure (.bool false)
    | some 0x22 => pure (.string (← string))
    | some 0x5b => pure .array
    | some 0x7b => pure .object
    | some b =>
      if b = 0x2d then step
      if b = 0x2d || isDigitByte b then
        let n ← number (b = 0x2d) .endInValue
        match n.found? with
        | some found => pure found
        | none => failEarlier n.excess .numberTooLarge
      else failAtNext .valueExpected
    | none => failAtNext .valueExpected
  fail (.wrongType found expected)

def valueStart : JsonRead UInt8 := do
  match ← peekToken with
  | some b => return b
  | none => failAtNext .endInValue

def text : JsonRead String := do
  if (← valueStart) = 0x22 then string else mismatch "a string"

def flag : JsonRead Bool := do
  let b ← valueStart
  if b = 0x74 then word "true"; return true
  else if b = 0x66 then word "false"; return false
  else mismatch "a boolean"

/-- Null, or a value. -/
def optional (read : JsonRead α) : JsonRead (Option α) := do
  match ← peekToken with
  | some 0x6e => word "null"; return none
  | _ => return some (← read)

/-! ## Brackets -/

/-- Whether another element follows in an array, after its comma if it is not the first. -/
def hasElement (isFirst : Bool) : JsonRead Bool := do
  match ← peekToken with
  | none => failAtNext .endInArray
  | some b =>
    if b = 0x5d then return false
    else if isFirst then return true
    else if b = 0x2c then
      step
      match ← peekToken with
      | some 0x5d => failAtNext .trailingComma
      | some _ => return true
      | none => failAtNext .endInValue
    else failAtNext .arrayEndExpected

/-- Whether another member follows in an object, after its comma if it is not the first. -/
def hasMember (isFirst : Bool) : JsonRead Bool := do
  match ← peekToken with
  | none => failAtNext .endInObject
  | some b =>
    if b = 0x7d then return false
    else if isFirst then
      if b = 0x22 then return true else failAtNext .nameExpected
    else if b = 0x2c then
      step
      match ← peekToken with
      | some 0x22 => return true
      | some 0x7d => failAtNext .trailingComma
      | some _ => failAtNext .nameExpected
      | none => failAtNext .endInValue
    else failAtNext .objectEndExpected

def colon : JsonRead Unit := do
  match ← peekToken with
  | some 0x3a => step
  | some _ => failAtNext .colonExpected
  | none => failAtNext .endInObject

def closeArray : JsonRead Unit := do
  match ← peekToken with
  | some 0x5d => step
  | some 0x2c =>
    step
    match ← peekToken with
    | some 0x5d => failAtNext .trailingComma
    | _ => failAtNext .trailingText
  | some _ => failAtNext .trailingText
  | none => failAtNext .endInArray

def closeObject : JsonRead Unit := do
  match ← peekToken with
  | some 0x7d => step
  | some 0x2c => failAtNext .trailingComma
  | some _ => failAtNext .trailingText
  | none => failAtNext .endInObject

/-- Read what stands inside a bracket, then close it. A fault of the inside wins; if it has no
place, it gets the one where an attempt to close the bracket ends. -/
def enclosed (inside : JsonRead α) (close : JsonRead Unit) : JsonRead α := fun c =>
  match inside (c.advance 1) with
  | .ok value d => (close.map fun _ => value) d
  | .error fault d =>
    let stop := match close d with
      | .ok _ e => e
      | .error _ e => e
    .error (fault.placedAt stop.pos) stop

/-! ## Lists, choices and records -/

/-- The elements of an array; `taken` holds those read so far, last first. -/
def elements (read : JsonRead α) : Nat → List α → JsonRead (List α)
  | 0, _ => fail .endInArray
  | fuel + 1, taken => do
      if ← hasElement taken.isEmpty then elements read fuel ((← read) :: taken)
      else return taken.reverse

def list (read : JsonRead α) : JsonRead (List α) := do
  if (← valueStart) = 0x5b then
    enclosed (elements read ((← remaining) + 1) []) closeArray
  else mismatch "a sequence"

def choiceName (choices : List (String × α)) : JsonRead α := do
  if (← valueStart) = 0x22 then
    let name ← string
    match choices.lookup name with
    | some value => return value
    | none => fail (.unknownChoice name (choices.map (·.1)))
  else mismatch "variant identifier"

/-- One of the named values: its name, or an object with the name and null. -/
def choice (choices : List (String × α)) : JsonRead α := do
  match ← peekToken with
  | some 0x22 => choiceName choices
  | some 0x7b =>
    step
    let value ← choiceName choices
    colon
    if (← valueStart) = 0x6e then word "null" else mismatch "unit"
    match ← peekToken with
    | some 0x7d => step; return value
    | some _ => fail .valueExpected
    | none => fail .endInObject
  | some _ => failAtNext .valueExpected
  | none => failAtNext .endInValue

/-- A field of a record that is built up in a state: its name, and how its value is read. -/
structure Field (σ : Type) where
  name : String
  read : σ → JsonRead σ

structure Shape (σ : Type) where
  title : String
  fields : List (Field σ)
  /-- Whether the array form has to hold all fields. -/
  isComplete : Bool

/-- The members of an object, where `seen` names the fields already read. -/
def members (shape : Shape σ) : Nat → Bool → List String → σ → JsonRead σ
  | 0, _, _, _ => fail .endInObject
  | fuel + 1, isFirst, seen, state => do
      if ← hasMember isFirst then
        let name ← string
        match shape.fields.find? (·.name == name) with
        | none =>
          colon
          skipValue
          members shape fuel false seen state
        | some field =>
          if seen.contains name then failSomewhere (.repeatedMember name)
          else
            colon
            members shape fuel false (name :: seen) (← field.read state)
      else return state

/-- The fields of an array from number `index` on. -/
def fieldsInOrder (shape : Shape σ) : Nat → List (Field σ) → σ → JsonRead σ
  | _, [], state => return state
  | index, field :: rest, state => do
      if ← hasElement (index = 0) then fieldsInOrder shape (index + 1) rest (← field.read state)
      else if shape.isComplete then
        failSomewhere (.wrongLength index
          s!"struct {shape.title} with {shape.fields.length} elements")
      else return state

/-- A record that starts out as `initial`. -/
def record (shape : Shape σ) (initial : σ) : JsonRead σ := do
  let b ← valueStart
  if b = 0x5b then enclosed (fieldsInOrder shape 0 shape.fields initial) closeArray
  else if b = 0x7b then
    enclosed (members shape ((← remaining) + 1) true [] initial) closeObject
  else mismatch ("struct " ++ shape.title)

def run (read : JsonRead α) (text : String) : Except JsonFault α :=
  let whole : JsonRead α := do
    let value ← read
    match ← peekToken with
    | none => return value
    | some _ => failAtNext .trailingText
  match whole (Cursor.ofText text) with
  | .ok value _ => .ok value
  | .error fault _ => .error fault

end JsonRead

end ModuleBridge
