import ModuleBridge.Text.Line
import ModuleBridge.Text.Shown

/-!
# Faults of JSON documents

Why a document could not be read as a value of the wanted type. A document may end too early, it may
not be JSON at all, or it may be JSON of the wrong shape; the first fault met from the left is the
one that is reported.
-/

namespace ModuleBridge

/-- What stands in a document at a place where something else is wanted. -/
inductive JsonFound where
  | null
  | bool (value : Bool)
  | integer (value : Int)
  /-- A number that is no integer of 64 bits, by its shortest text. -/
  | decimal (text : String)
  | string (value : String)
  | array
  | object
deriving DecidableEq, Repr

def JsonFound.describe : JsonFound → String
  | .null => "null"
  | .bool value => s!"boolean \x60{value}\x60"
  | .integer value => s!"integer \x60{value}\x60"
  | .decimal text => s!"floating point \x60{text}\x60"
  | .string value => "string " ++ showQuoted value
  | .array => "sequence"
  | .object => "map"

inductive JsonProblem where
  | endInArray
  | endInObject
  | endInString
  | endInValue
  | colonExpected
  | arrayEndExpected
  | objectEndExpected
  | wordExpected
  | valueExpected
  | invalidEscape
  | invalidNumber
  | numberTooLarge
  | controlCharacter
  | nameExpected
  | loneSurrogate
  | escapeCutShort
  | trailingComma
  | trailingText
  | wrongType (found : JsonFound) (expected : String)
  | wrongLength (length : Nat) (expected : String)
  | repeatedMember (name : String)
  | unknownChoice (name : String) (choices : List String)
deriving DecidableEq, Repr

inductive JsonProblem.Kind where
  | endsEarly
  | malformed
  | wrongShape
deriving DecidableEq, Repr

namespace JsonProblem

def kind : JsonProblem → Kind
  | endInArray | endInObject | endInString | endInValue => .endsEarly
  | wrongType .. | wrongLength .. | repeatedMember .. | unknownChoice .. => .wrongShape
  | _ => .malformed

def quoteName (name : String) : String :=
  "\x60" ++ name ++ "\x60"

/-- The names to choose from, as a phrase. -/
def choicePhrase : List String → String
  | [] => "there are no variants"
  | [only] => "expected " ++ quoteName only
  | [first, second] => "expected " ++ quoteName first ++ " or " ++ quoteName second
  | many => "expected one of " ++ ", ".intercalate (many.map quoteName)

def text : JsonProblem → String
  | endInArray => "EOF while parsing a list"
  | endInObject => "EOF while parsing an object"
  | endInString => "EOF while parsing a string"
  | endInValue => "EOF while parsing a value"
  | colonExpected => "expected \x60:\x60"
  | arrayEndExpected => "expected \x60,\x60 or \x60]\x60"
  | objectEndExpected => "expected \x60,\x60 or \x60\x7d\x60"
  | wordExpected => "expected ident"
  | valueExpected => "expected value"
  | invalidEscape => "invalid escape"
  | invalidNumber => "invalid number"
  | numberTooLarge => "number out of range"
  | controlCharacter => "control character (\\u0000-\\u001F) found while parsing a string"
  | nameExpected => "key must be a string"
  | loneSurrogate => "lone leading surrogate in hex escape"
  | escapeCutShort => "unexpected end of hex escape"
  | trailingComma => "trailing comma"
  | trailingText => "trailing characters"
  | wrongType found expected => s!"invalid type: {found.describe}, expected {expected}"
  | wrongLength length expected => s!"invalid length {length}, expected {expected}"
  | repeatedMember name => "duplicate field " ++ quoteName name
  | unknownChoice name choices =>
    "unknown variant " ++ quoteName name ++ ", " ++ choicePhrase choices

end JsonProblem

/-- A problem and the byte offset that is reported for it. A problem with a record as a whole has no
place until the reader has left the record. -/
structure JsonFault where
  problem : JsonProblem
  offset : Option Nat
deriving DecidableEq, Repr

namespace JsonFault

def placedAt (fault : JsonFault) (offset : Nat) : JsonFault :=
  { fault with offset := fault.offset.or (some offset) }

/-- The fault with its place in `text`: lines count from one, columns are the bytes before. -/
def describe (fault : JsonFault) (text : String) : String :=
  match fault.offset with
  | none => fault.problem.text
  | some offset =>
    let place := (LineMap.ofText text).lineColumnOf offset
    s!"{fault.problem.text} at line {place.line + 1} column {place.column}"

end JsonFault

end ModuleBridge
