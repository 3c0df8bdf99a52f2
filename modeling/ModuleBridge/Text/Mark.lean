import ModuleBridge.Text.Void

/-!
# Marks

The characters of Unicode 16 that combine with the one before them. All are outside ASCII. Most take
no room of their own.
-/

namespace ModuleBridge

def nonspacingRanges : List (Nat × Nat) :=
  rangesOf
    [768, 112, 275, 7, 263, 45, 1, 1, 1, 2, 1, 2, 1, 1, 72, 11, 48, 21, 16, 1, 101, 7, 2, 6, 2, 2,
      1, 4, 35, 1, 30, 27, 91, 11, 58, 9, 9, 1, 24, 4, 1, 9, 1, 3, 1, 5, 43, 3, 59, 9, 42, 57, 55,
      1, 1, 1, 4, 8, 4, 1, 3, 7, 10, 2, 29, 1, 58, 1, 4, 4, 8, 1, 20, 2, 26, 5, 57, 1, 4, 17, 30, 2,
      3, 1, 11, 2, 57, 1, 4, 8, 4, 1, 20, 2, 22, 8, 58, 1, 2, 1, 1, 4, 8, 10, 11, 2, 30, 1, 61, 1,
      12, 1, 50, 1, 3, 1, 55, 1, 1, 3, 5, 17, 11, 2, 29, 1, 58, 1, 15, 2, 20, 2, 28, 2, 57, 2, 4, 4,
      8, 1, 20, 2, 29, 1, 72, 1, 7, 5, 90, 1, 2, 7, 12, 8, 98, 1, 2, 9, 11, 7, 73, 2, 27, 1, 1, 1,
      1, 1, 55, 14, 1, 5, 1, 2, 5, 48, 9, 1, 102, 4, 1, 6, 1, 2, 2, 2, 25, 2, 4, 3, 16, 4, 13, 1, 2,
      2, 6, 1, 15, 1, 703, 3, 946, 3, 29, 2, 30, 2, 30, 2, 67, 7, 8, 1, 2, 11, 9, 1, 167, 2, 34, 1,
      118, 3, 4, 2, 9, 1, 6, 3, 219, 2, 2, 1, 58, 1, 1, 9, 1, 1, 2, 8, 6, 13, 48, 84, 48, 1, 1, 5,
      1, 1, 5, 1, 40, 9, 12, 2, 32, 4, 2, 2, 1, 3, 56, 1, 1, 2, 3, 1, 1, 3, 58, 8, 2, 2, 152, 3, 1,
      13, 1, 7, 4, 1, 6, 1, 3, 2, 198, 64, 720, 33, 3070, 3, 141, 1, 96, 32, 554, 4, 107, 2, 30164,
      4, 1, 10, 32, 2, 80, 2, 272, 1, 3, 1, 4, 1, 25, 2, 5, 1, 151, 2, 26, 18, 13, 1, 38, 8, 25, 11,
      46, 3, 48, 1, 2, 4, 2, 2, 39, 1, 67, 6, 2, 2, 2, 2, 12, 1, 8, 1, 47, 1, 51, 1, 1, 3, 2, 2, 5,
      2, 1, 1, 42, 2, 8, 1, 238, 1, 2, 1, 4, 1, 20272, 1, 769, 16, 973, 1, 226, 1, 149, 5, 1670, 15,
      40, 8, 165, 2, 573, 4, 65, 5, 317, 2, 79, 4, 70, 11, 49, 4, 123, 1, 54, 15, 41, 1, 2, 2, 10,
      3, 49, 4, 2, 2, 7, 1, 61, 3, 36, 5, 1, 8, 62, 1, 12, 2, 52, 9, 10, 4, 2, 1, 95, 3, 2, 1, 1, 2,
      6, 1, 2, 1, 157, 1, 3, 8, 21, 2, 57, 2, 3, 1, 37, 15, 70, 6, 13, 1, 1, 1, 1, 1, 14, 2, 85, 8,
      2, 3, 1, 1, 23, 1, 84, 6, 1, 1, 4, 2, 1, 2, 238, 4, 6, 2, 1, 2, 27, 2, 85, 8, 2, 1, 1, 2, 106,
      1, 1, 1, 2, 6, 1, 1, 101, 1, 1, 1, 2, 4, 1, 5, 259, 9, 1, 2, 256, 2, 1, 1, 4, 1, 144, 8, 4, 1,
      32, 6, 2, 2, 40, 6, 2, 4, 8, 1, 9, 6, 2, 3, 46, 13, 1, 2, 406, 14, 84, 22, 2, 7, 1, 2, 1, 2,
      122, 21, 1, 1, 72, 2, 3, 1, 1, 1, 347, 2, 11, 2, 52, 5, 5, 1, 1, 1, 23, 1, 5349, 1, 6, 15,
      11464, 12, 3, 3, 2496, 5, 59, 7, 1048, 1, 63, 4, 81, 1, 19640, 2, 4705, 71, 544, 3, 17, 8, 2,
      7, 30, 4, 148, 3, 1979, 55, 4, 50, 8, 1, 14, 1, 22, 21, 1360, 43, 100, 1, 160, 7, 375, 1, 61,
      4, 508, 4, 254, 2, 736, 7, 109, 7]

def isNonspacing (c : Char) : Bool :=
  isInRanges nonspacingRanges c

def spacingRanges : List (Nat × Nat) :=
  rangesOf
    [2307, 1, 55, 1, 2, 18, 50, 2, 58, 15, 10, 1, 43, 1, 58, 3, 66, 1, 58, 15, 53, 2, 58, 26, 102,
      15, 10, 1, 41, 3, 61, 4, 61, 2, 58, 25, 28, 17, 58, 15, 10, 1, 42, 2, 75, 17, 18, 2, 330, 2,
      63, 1, 171, 18, 25, 2, 10, 3, 2, 7, 21, 10, 2, 1, 10, 3, 1656, 1, 30, 1, 127, 21, 66, 5, 275,
      22, 224, 2, 58, 30, 145, 1, 48, 16, 61, 1, 30, 10, 60, 13, 48, 18, 171, 1, 21, 1, 4918, 2,
      30707, 5, 88, 2, 50, 16, 142, 2, 47, 1, 48, 13, 110, 6, 24, 1, 45, 3, 109, 5, 5, 1, 237, 8, 1,
      1, 21011, 16, 4592, 3, 127, 1, 45, 9, 115, 1, 24, 2, 59, 1, 48, 14, 13, 1, 93, 10, 170, 3, 31,
      2, 58, 16, 9, 1, 10, 2, 84, 24, 101, 17, 106, 18, 237, 16, 113, 15, 109, 11, 103, 9, 261, 13,
      247, 14, 2, 1, 1, 1, 142, 15, 4, 1, 34, 2, 48, 1, 29, 2, 62, 1, 407, 17, 105, 12, 213, 13,
      350, 2, 12, 1, 48, 14, 16872, 3, 3620, 55, 104, 2, 24947, 2, 6, 6, 798605, 240]

def isMark (c : Char) : Bool :=
  !isVoid c && (isNonspacing c || isInRanges spacingRanges c)

end ModuleBridge
