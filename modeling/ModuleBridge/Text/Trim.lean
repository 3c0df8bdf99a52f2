/-!
# Trimming and searching

Dropping every repetition of a mark from an end of a list, and looking for one list in another.
-/

namespace ModuleBridge

variable {α : Type} [BEq α]

/-- Drop repetitions of `mark` from the front, at most as many as the first argument says. -/
def dropRepeatedAux (mark : List α) : Nat → List α → List α
  | 0, list => list
  | fuel + 1, list =>
    if mark.isPrefixOf list then dropRepeatedAux mark fuel (list.drop mark.length) else list

/-- Drop every repetition of the non-empty `mark` from the front. -/
def dropRepeated (mark list : List α) : List α :=
  dropRepeatedAux mark list.length list

/-- Drop every repetition of the non-empty `mark` from the end. -/
def dropRepeatedEnd (mark list : List α) : List α :=
  (dropRepeated mark.reverse list.reverse).reverse

/-- Split a list in front of the first occurrence of `mark`; the second part begins with it. -/
def splitBefore? (mark : List α) : List α → Option (List α × List α)
  | [] => if mark.isEmpty then some ([], []) else none
  | a :: rest =>
    if mark.isPrefixOf (a :: rest) then some ([], a :: rest)
    else (splitBefore? mark rest).map fun (front, back) => (a :: front, back)

/-- Whether `part` occurs somewhere in `list`. -/
def occursIn (part list : List α) : Bool :=
  (splitBefore? part list).isSome

end ModuleBridge
