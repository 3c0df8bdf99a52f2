import ModuleBridge.Text.Void

/-!
# Word characters

Letters, marks, decimal digits, connectors and joiners of Unicode 16. Outside ASCII they are all but
the void code points and the punctuation, symbols and other numbers of a table.
-/

namespace ModuleBridge

def wordlessRanges : List (Nat × Nat) :=
  rangesOf
    [161, 9, 1, 10, 1, 4, 1, 5, 23, 1, 31, 1, 458, 4, 12, 14, 5, 7, 1, 1, 1, 17, 117, 1, 8, 1, 5, 2,
      1, 1, 110, 1, 139, 1, 215, 6, 41, 7, 46, 1, 1, 1, 2, 1, 2, 1, 44, 29, 11, 5, 74, 4, 102, 1, 9,
      1, 10, 1, 19, 2, 1, 14, 232, 4, 4, 2, 48, 15, 31, 1, 41, 1, 219, 2, 10, 1, 129, 10, 1, 1, 120,
      1, 121, 2, 126, 1, 1, 6, 120, 11, 124, 9, 4, 1, 202, 1, 8, 7, 17, 10, 122, 1, 74, 1, 15, 1,
      10, 2, 165, 23, 2, 6, 10, 11, 1, 1, 1, 1, 1, 4, 71, 1, 56, 8, 1, 20, 111, 6, 78, 2, 91, 1,
      612, 29, 19, 10, 102, 1, 620, 2, 44, 2, 78, 3, 71, 2, 157, 3, 1, 4, 20, 27, 309, 6, 148, 38,
      30, 2, 128, 7, 1, 6, 160, 2, 10, 17, 9, 12, 124, 4, 59, 5, 62, 2, 64, 8, 11, 1, 745, 1, 1, 3,
      11, 3, 13, 3, 13, 3, 13, 66, 2, 19, 1, 28, 3, 11, 1, 15, 17, 33, 63, 2, 1, 4, 1, 2, 10, 1, 1,
      3, 5, 6, 1, 1, 1, 1, 1, 1, 4, 1, 11, 2, 4, 5, 5, 4, 1, 17, 41, 813, 52, 1814, 229, 6, 14, 7,
      112, 1, 143, 47, 1, 469, 3, 25, 15, 1, 5, 2, 5, 3, 91, 2, 3, 1, 90, 1, 148, 16, 32, 48, 16,
      512, 6592, 64, 22160, 55, 55, 2, 269, 3, 99, 1, 10, 1, 115, 37, 9, 2, 103, 2, 157, 4, 4, 10,
      58, 4, 86, 2, 40, 3, 1, 1, 49, 2, 47, 1, 97, 13, 16, 2, 124, 4, 23, 3, 100, 2, 16, 2, 105, 1,
      14, 2, 127, 1, 20285, 1, 136, 17, 379, 18, 127, 1, 44, 4, 16, 10, 22, 3, 2, 24, 3, 28, 149,
      15, 10, 7, 26, 4, 1, 1, 26, 11, 122, 30, 258, 64, 53, 136, 228, 27, 36, 4, 123, 1, 48, 1, 414,
      1, 743, 9, 23, 9, 39, 9, 75, 5, 22, 10, 31, 1, 124, 2, 2, 64, 64, 25, 36, 3, 29, 3, 40, 1, 34,
      12, 66, 7, 24, 8, 24, 8, 25, 23, 330, 6, 110, 1, 31, 241, 46, 1, 111, 10, 42, 9, 44, 4, 59, 7,
      123, 31, 85, 7, 126, 4, 48, 2, 79, 4, 4, 1, 13, 1, 1, 24, 67, 6, 107, 1, 298, 5, 114, 5, 10,
      4, 104, 1, 250, 23, 105, 3, 28, 13, 76, 1, 128, 6, 251, 1, 174, 9, 81, 3, 155, 1, 92, 8, 83,
      3, 1, 5, 93, 10, 215, 1, 95, 5, 20, 24, 645, 2, 74, 13, 112, 64, 1136, 5, 2940, 2, 14971, 2,
      133, 1, 65, 9, 4, 2, 21, 7, 523, 3, 272, 27, 327, 1, 19641, 1, 2, 4177, 16, 436, 156, 533, 5,
      3, 22, 2, 7, 30, 4, 148, 3, 308, 840, 1, 25, 1, 31, 1, 25, 1, 31, 1, 25, 1, 31, 1, 25, 1, 31,
      1, 25, 1, 60, 512, 55, 4, 50, 8, 1, 14, 1, 7, 1731, 1, 431, 1, 767, 1, 711, 9, 142, 992, 434,
      576, 26, 6, 26, 6, 26, 2662]

def isWordChar (c : Char) : Bool :=
  if c.toNat < 128 then c.isAlphanum || c == '_'
  else c == '\u200c' || c == '\u200d' || (!isVoid c && !isInRanges wordlessRanges c)

end ModuleBridge
