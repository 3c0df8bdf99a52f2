import ModuleBridge.Text.Mark
import ModuleBridge.Text.Normal
import ModuleBridge.Text.Split
import ModuleBridge.Url.Joining
import ModuleBridge.Url.LabelChar
import ModuleBridge.Url.LabelMapping
import ModuleBridge.Url.Punycode

/-!
# Domain names

A domain name is a sequence of labels between points. It is brought to one spelling: characters are
replaced or dropped, the text is put in normal form, and labels outside ASCII are spelt in ASCII
behind `xn--`. A label that comes in that spelling has to spell a text that this leaves as it is.
-/

namespace ModuleBridge

namespace Domain

/-- What a character of a name becomes; none if names may not hold it. -/
def spell? (c : Char) : Option (List Char) :=
  if c.toNat < 128 then some [c.toLower]
  else if !isNameChar c then none
  else if isDroppedChar c then some []
  else some ((replacementOf? c).getD [c])

def spelling? (name : List Char) : Option (List Char) := do
  return normalForm (← name.mapM spell?).flatten

def isSpelt (text : List Char) : Bool :=
  text.all (fun c => spell? c == some [c]) && normalForm text == text

/-- The longest label that is not ASCII. -/
def longestShown : Nat := 1000

/-- Whether the marks and joiners of a label have something to stand on, and it is not too long. -/
def isSound (label : List Char) : Bool :=
  !label.head?.any isMark && joinersFit [] label && label.length ≤ longestShown

/-- A label: the text that is shown, and its spelling in ASCII. -/
structure Label where
  shown : List Char
  ascii : List Char
deriving DecidableEq, Repr

def isAscii (text : List Char) : Bool :=
  text.all (·.toNat < 128)

/-- The longest text behind `xn--` that is read. -/
def longestCode : Nat := 2000

def readLabel? (label : List Char) : Option Label :=
  match label with
  | 'x' :: 'n' :: '-' :: '-' :: code =>
    if !isAscii code || code.getLast?.all (· == '-') || longestCode < code.length then none
    else do
      let shown ← Punycode.decode? code
      if isSpelt shown && isSound shown then some ⟨shown, label⟩ else none
  | _ =>
    if isAscii label then some ⟨label, label⟩
    else if isSound label then some ⟨label, "xn--".toList ++ Punycode.encode label⟩
    else none

def toAscii? (name : List Char) : Option (List Char) := do
  let labels ← (splitAtAll (· == '.') (← spelling? name)).mapM readLabel?
  if labels.any (runsRightToLeft ·.shown) && !labels.all (keepsDirection ·.shown) then none
  return ['.'].intercalate (labels.map Label.ascii)

end Domain

end ModuleBridge
