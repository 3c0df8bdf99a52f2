import ModuleBridge.Text.Mark

/-!
# Characters without a look of their own

Controls and other void code points, marks that take no room, and further characters that extend the
one before them.
-/

namespace ModuleBridge

def extendingRanges : List (Nat × Nat) :=
  rangesOf
    [2494, 1, 24, 1, 358, 1, 24, 1, 102, 1, 24, 1, 231, 2, 1, 1, 3, 17, 103, 1, 24, 1, 119, 1, 15,
      1, 2357, 1, 30, 1, 127, 2, 85, 5, 805, 9, 5, 2, 101, 1, 71, 2, 5178, 2, 31011, 1, 108, 1,
      21567, 16, 398, 2, 4640, 1, 116, 1, 264, 1, 14, 1, 9, 1, 96, 1, 9, 8, 5, 1, 224, 1, 12, 1,
      241, 1, 262, 1, 633, 1, 12, 1, 201, 2, 566, 1, 769, 1, 20654, 2, 24947, 2, 6, 6, 798605, 240]

/-- A character that cannot be told by its look. -/
def isUnseen (c : Char) : Bool :=
  if c.toNat < 128 then c < ' ' || c == '\x7f'
  else isVoid c || isNonspacing c || isInRanges extendingRanges c

end ModuleBridge
