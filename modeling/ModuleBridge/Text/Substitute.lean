/-!
# Substitution in texts

Replacing every occurrence of a pattern, and filling the numbered places of a message template.
-/

namespace ModuleBridge

/-- Replace the occurrences of `pattern`, from left to right and without overlap. The first
argument counts characters of an occurrence that are still to be dropped. -/
def replaceAllAux (pattern replacement : List Char) : Nat → List Char → List Char
  | _, [] => []
  | 0, c :: rest =>
    if pattern.isPrefixOf (c :: rest) then
      replacement ++ replaceAllAux pattern replacement (pattern.length - 1) rest
    else
      c :: replaceAllAux pattern replacement 0 rest
  | skip + 1, _ :: rest => replaceAllAux pattern replacement skip rest

/-- Replace every occurrence of the non-empty `pattern`. -/
def replaceAll (pattern replacement text : List Char) : List Char :=
  replaceAllAux pattern replacement 0 text

/-- The mark of the argument number `index` in a template: the number in braces. -/
def placeholder (index : Nat) : List Char :=
  '\x7b' :: (Nat.toDigits 10 index ++ ['\x7d'])

/-- Fill the places of `template` from number `index` on. The arguments are put in one after the
other, so a place that an argument's own text brings in is filled by a later argument. -/
def fillFrom (template : List Char) : Nat → List (List Char) → List Char
  | _, [] => template
  | index, arg :: args => fillFrom (replaceAll (placeholder index) arg template) (index + 1) args

/-- Fill the places of `template` with `args`. -/
def fillTemplate (template : String) (args : List String) : String :=
  String.ofList (fillFrom template.toList 0 (args.map String.toList))

end ModuleBridge
