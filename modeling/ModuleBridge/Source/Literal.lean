import ModuleBridge.Source.Cursor

/-!
# Literals without nesting

How far a quoted string and a regular expression reach. Both are measured from just after their
first byte. Template literals hold code and are treated with the enclosures.
-/

namespace ModuleBridge

/-- The end of a literal, or the place where it is found to have none. -/
inductive Reach where
  | closed (length : Nat)
  | broken (length : Nat)
deriving DecidableEq, Repr

/-- Follow a string up to its closing `quote`, which is counted. A line end or the end of the text
breaks it; a backslash takes the next byte along, or a whole carriage-return line-feed pair. -/
def quotedReach (quote : UInt8) : List UInt8 → Nat → Reach
  | [], length => .broken length
  | b :: rest, length =>
    if isLineEndByte b then .broken length
    else if b == byte '\\' then
      match rest with
      | [] => .broken (length + 1)
      | [_] => .broken (length + 2)
      | a :: d :: tail =>
        if a == byte '\r' && d == byte '\n' then quotedReach quote tail (length + 3)
        else quotedReach quote (d :: tail) (length + 2)
    else if b == quote then .closed (length + 1)
    else quotedReach quote rest (length + 1)

/-- Follow a regular expression up to its closing slash and flags. A slash inside a bracketed class
does not close it; none when the line ends first. -/
def patternReach : Bool → List UInt8 → Nat → Option Nat
  | _, [], _ => none
  | inClass, b :: rest, length =>
    if isLineEndByte b then none
    else if b == byte '\\' then
      match rest with
      | [] => none
      | _ :: tail => patternReach inClass tail (length + 2)
    else if b == byte '[' then patternReach true rest (length + 1)
    else if b == byte ']' then patternReach false rest (length + 1)
    else if b == byte '/' && !inClass then
      some (length + 1 + (rest.takeWhile isNamePart).length)
    else patternReach inClass rest (length + 1)

/-- Whether a slash after the bytes `before` (nearest first) opens a regular expression. The last
token decides: nothing, a punctuator, or a word such as `return` that is not a property name. -/
def patternAllowedAfter (before : List UInt8) : Bool :=
  match before.dropWhile isSpacingByte with
  | [] => true
  | last :: rest =>
    if isNamePart last then
      let word := last :: rest.takeWhile isNamePart
      let isMember := (rest.dropWhile isNamePart).head? == some (byte '.')
      !isMember && startsPatternAfterWord word.reverse
    else startsPatternAfter last

end ModuleBridge
