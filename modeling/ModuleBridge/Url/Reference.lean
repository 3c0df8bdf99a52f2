import ModuleBridge.Url.Basic

/-!
# Text of references

What is dropped from a reference before it is read, and the slashes and drive letters that its
readers look for.
-/

namespace ModuleBridge

def isBreak (c : Char) : Bool :=
  c == '\t' || c == '\n' || c == '\r'

/-- A reference without its breaks. Each break is kept as the number of characters after it. -/
structure Reference where
  text : List Char
  breaks : List Nat
deriving DecidableEq, Repr

namespace Reference

def ofChars : List Char → Reference
  | [] => ⟨[], []⟩
  | c :: rest =>
    let later := ofChars rest
    if isBreak c then ⟨later.text, later.text.length :: later.breaks⟩
    else ⟨c :: later.text, later.breaks⟩

/-- Drop blanks and controls at both ends, and breaks everywhere. -/
def ofText (text : String) : Reference :=
  let isOuter (c : Char) : Bool := c ≤ ' '
  ofChars ((text.toList.dropWhile isOuter).reverse.dropWhile isOuter).reverse

end Reference

def isSlash (kind : SchemeKind) (c : Char) : Bool :=
  c == '/' || (c == '\\' && kind != .other)

def isAnySlash (c : Char) : Bool :=
  c == '/' || c == '\\'

def isDriveLetter (segment : List Char) : Bool :=
  match segment with
  | [a, b] => a.isAlpha && (b == ':' || b == '|')
  | _ => false

def isNormalDriveLetter (segment : List Char) : Bool :=
  isDriveLetter segment && segment.getLast? == some ':'

/-- Whether a drive letter stands at the front of `input` as a whole segment. -/
def startsWithDriveLetter (input : List Char) : Bool :=
  isDriveLetter (input.take 2) &&
    (input.drop 2).head?.all fun c => isAnySlash c || c == '?' || c == '#'

end ModuleBridge
