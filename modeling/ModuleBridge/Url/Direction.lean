import ModuleBridge.Text.Mark

/-!
# Directions of domain names

Some scripts run from right to left. A label may be shown in either direction only if its characters
keep together, so where a name has characters of such a script, each label has to keep to one
direction.
-/

namespace ModuleBridge

inductive Direction where
  | left
  | right
  /-- Digits that run with a script from right to left. -/
  | arabic
  /-- Digits of all other kinds. -/
  | european
  /-- Marks, which follow the character before. -/
  | mark
  | neutral
deriving DecidableEq, Repr

/-- Directions other than left to right, by ranges of code points of Unicode 16 outside ASCII. Code
points that no label can hold may lie inside of them. -/
def directionRanges : List (Nat × Nat × Direction) :=
  classRanges
    [(.neutral, [161, 55, 31, 1, 449, 2, 7, 14, 2, 28, 1, 17, 117, 1, 128, 1, 403, 6, 118, 2, 1, 2,
        1, 1, 1, 2, 90, 1, 115, 1, 10, 1, 268, 4, 504, 2, 7, 1, 245, 1, 257, 8, 125, 7, 448, 1, 250,
        4, 1106, 10, 102, 1, 666, 2, 318, 1, 20, 27, 309, 6, 152, 34, 1548, 181, 67, 74, 60, 428,
        69, 26, 1, 790, 1, 339, 256, 768, 229, 6, 14, 7, 256, 517, 3, 25, 15, 1, 6, 1, 5, 3, 96, 1,
        90, 1, 196, 38, 7130, 64, 22160, 55, 326, 3, 99, 1, 10, 2, 128, 34, 102, 1, 159, 4, 12, 2,
        58, 4, 754, 2, 20946, 194, 69, 2, 698, 1, 62, 77, 3, 17, 1918, 1, 537, 7, 558, 1, 739, 20,
        1530, 13, 2408, 29, 20464, 1, 23581, 692, 821, 89, 3, 1, 186, 87, 4008, 1, 3056, 576, 61, 3,
        61, 1, 178, 2448]),
      (.right, [1470, 1, 1, 1, 2, 1, 2, 1, 9, 37, 19, 1, 2, 1, 1, 1, 13, 48, 34, 3, 1, 101, 15, 2,
        7, 2, 10, 23, 1, 30, 29, 89, 11, 58, 9, 2, 4, 1, 3, 24, 4, 1, 9, 1, 3, 1, 7, 41, 5, 49, 17,
        42, 62184, 17, 688, 1, 2444, 284, 4, 225, 15, 38, 10, 165, 6, 75, 10, 484, 38, 6, 31, 33,
        240, 42, 3, 24, 59, 70, 11, 49, 4, 113, 55305, 208, 82, 34, 7, 1011]),
      (.arabic, [1632, 10, 1, 2, 67267, 26, 278, 31]), (.european, [1776, 10, 64487, 27])]

def Direction.of (c : Char) : Direction :=
  if c.toNat < 128 then
    if c.isAlpha then left else if c.isDigit then european else neutral
  else
    match directionRanges.find? fun (low, high, _) => low ≤ c.toNat && c.toNat ≤ high with
    | some (_, _, direction) => direction
    | none => if isNonspacing c then mark else left

def runsRightToLeft (label : List Char) : Bool :=
  label.any fun c => Direction.of c == .right || Direction.of c == .arabic

/-- Whether a label keeps to the direction of its first character. Marks at its end do not count,
and digits of both kinds do not mix. -/
def keepsDirection (label : List Char) : Bool :=
  match label.map Direction.of with
  | [] => true
  | first :: others =>
    let others := (others.reverse.dropWhile (· == .mark)).reverse
    let last := others.getLast?
    match first with
    | .left =>
      others.all (fun d => d != .right && d != .arabic) &&
        last.all fun d => d == .left || d == .european
    | .right =>
      others.all (· != .left) &&
        last.all (fun d => d == .right || d == .arabic || d == .european) &&
        !(others.contains .arabic && others.contains .european)
    | _ => false

end ModuleBridge
