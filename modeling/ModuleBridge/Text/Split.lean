/-!
# Splitting lists

Cutting a list, such as the characters of a text, into the parts between its separators.
-/

namespace ModuleBridge

/-- Cut a list at every element that `isCut` selects. There is one part more than cuts. -/
def splitAtAll {α : Type} (isCut : α → Bool) : List α → List (List α)
  | [] => [[]]
  | a :: rest =>
    if isCut a then [] :: splitAtAll isCut rest
    else
      match splitAtAll isCut rest with
      | [] => [[a]]
      | part :: parts => (a :: part) :: parts

end ModuleBridge
