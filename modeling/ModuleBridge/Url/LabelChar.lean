import ModuleBridge.Text.Void

/-!
# Characters of domain names

The characters of Unicode 16 outside ASCII that a domain name may be written with: a few of the void
ones and most of the others. Most stand for themselves, some are dropped and some are replaced.
-/

namespace ModuleBridge

/-- The void code points that names may hold all the same. -/
def voidNameRanges : List (Nat × Nat) :=
  rangesOf
    [160, 14, 5984, 1, 2033, 14, 33, 54, 5, 6, 3984, 1, 52990, 1, 48544, 4, 5327, 8]

def namelessRanges : List (Nat × Nat) :=
  rangesOf
    [0, 128, 8100, 3, 1121, 20, 2900, 16, 495, 1, 466, 1, 4, 1, 16, 1, 51769, 1, 6, 1, 22, 1, 33, 1,
      425, 2, 61698, 1]

def droppedRanges : List (Nat × Nat) :=
  rangesOf
    [173, 1, 673, 1, 3599, 2, 1619, 2, 85, 5, 2043, 1, 84, 5, 5, 6, 4340, 1, 52379, 16, 239, 1, 160,
      1, 48383, 4, 5327, 8, 798597, 240]

def isNameChar (c : Char) : Bool :=
  !isInRanges namelessRanges c && (!isVoid c || isInRanges voidNameRanges c)

def isDroppedChar (c : Char) : Bool :=
  isInRanges droppedRanges c

end ModuleBridge
