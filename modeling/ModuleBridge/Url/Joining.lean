import ModuleBridge.Text.CombiningClass
import ModuleBridge.Url.Direction

/-!
# Joiners

Two invisible characters tell whether their neighbours are written joined. A label may hold one only
where it makes a difference.
-/

namespace ModuleBridge

inductive Joining where
  | both
  | following
  | preceding
deriving DecidableEq, Repr

/-- Letters that are written joined, by ranges of code points of Unicode 16. Code points that no
label can hold may lie inside of them. -/
def joiningRanges : List (Nat × Nat × Joining) :=
  classRanges
    [(.both, [1568, 1, 5, 1, 1, 1, 1, 5, 4, 13, 1, 7, 1, 2, 35, 2, 9, 15, 18, 38, 1, 2, 9, 1, 1, 1,
        1, 2, 40, 3, 2, 1, 18, 3, 5, 4, 1, 9, 1, 1, 1, 1, 1, 2, 31, 11, 3, 15, 2, 4, 1, 1, 2, 3, 2,
        6, 74, 33, 86, 5, 2, 1, 1, 10, 1, 1, 10, 1, 1, 4, 2, 1, 29, 1, 2, 5, 18, 10, 5, 2, 2, 6, 1,
        15, 3902, 1, 24, 89, 14, 34, 1, 1, 36757, 50, 25166, 5, 14, 4, 1, 5, 1, 3, 10, 4, 145, 1,
        1, 1, 3, 3, 1, 2, 1, 1, 2, 1, 28, 2, 338, 33, 1, 1, 415, 2, 107, 3, 1, 17, 12, 3, 28, 4, 2,
        12, 46, 1, 1, 2, 4, 1, 2, 2, 1, 2, 1, 1, 2, 1, 5, 1, 55639, 34]), (.preceding, [1570, 4, 1,
        1, 1, 1, 5, 4, 21, 1, 40, 3, 20, 18, 38, 1, 2, 9, 1, 1, 1, 1, 2, 2, 1, 1, 24, 2, 32, 1, 4,
        5, 4, 1, 9, 1, 1, 1, 1, 1, 2, 1, 29, 1, 11, 3, 15, 2, 4, 1, 1, 2, 3, 2, 198, 1, 5, 2, 1, 1,
        10, 1, 1, 3, 14, 1, 1, 26, 11, 1, 27, 3, 1, 1, 2, 2, 6, 1, 66059, 1, 1, 1, 1, 2, 3, 5, 10,
        1, 3, 1, 2, 1, 10, 1, 145, 1, 1, 3, 3, 1, 2, 1, 1, 2, 1, 1, 23, 4, 373, 1, 415, 1, 112, 1,
        32, 1, 31, 2, 62, 3, 2, 2, 2, 1, 4, 2, 5, 1]),
      (.following, [43122, 1, 25178, 1, 9, 1, 552, 1, 714, 1])]

def joining? (c : Char) : Option Joining :=
  (joiningRanges.find? fun (low, high, _) => low ≤ c.toNat && c.toNat ≤ high).map (·.2.2)

/-- Characters that joined letters pass over: marks, and a few signs that are shown beside their
letter. -/
def isPassedOver (c : Char) : Bool :=
  Direction.of c == .mark || [0xcbf, 0xcc6, 0x11a07, 0x11a08, 0x11c3f, 0x1e94b].contains c.toNat

/-- Whether the next letter of `text` joins as wanted. -/
def nextJoins (text : List Char) (wanted : Joining) : Bool :=
  match (text.dropWhile isPassedOver).head?.bind joining? with
  | some joining => joining == .both || joining == wanted
  | none => false

def nonJoiner : Char := '\u200c'

def joiner : Char := '\u200d'

/-- Whether both kinds of joiners stand where they may: after a sign that silences a vowel, or, for
the one that keeps letters apart, between two letters that would be joined. The characters before
`text` are given last first. -/
def joinersFit (before : List Char) : List Char → Bool
  | [] => true
  | c :: rest =>
    let afterVirama := before.head?.any (combiningClass · == viramaClass)
    let fits :=
      if c == joiner then afterVirama
      else if c == nonJoiner then
        afterVirama || (nextJoins before .following && nextJoins rest .preceding)
      else true
    fits && joinersFit (c :: before) rest

end ModuleBridge
