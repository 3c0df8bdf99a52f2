import ModuleBridge.Lossy.Recogniser
import ModuleBridge.Text.Split

/-!
# Names in lists and patterns

Reading the names out of the text of an export or import list, or of a flat destructuring pattern.
-/

namespace ModuleBridge

/-- A name and the name it goes by elsewhere. -/
structure Alias where
  name : List Char
  other : List Char
deriving DecidableEq, Repr

/-- One item of a list: `name`, or `name as other`. -/
def aliasOf? (item : List Char) : Option Alias :=
  match splitWords item with
  | [] => none
  | name :: word :: other :: _ =>
    if word = ['a', 's'] then some ⟨name, other⟩ else some ⟨name, name⟩
  | name :: _ => some ⟨name, name⟩

def aliasesOf (list : List Char) : List Alias :=
  (splitAtAll (· == ',') list).filterMap aliasOf?

def isBindingName (text : List Char) : Bool :=
  match text with
  | c :: rest => Recogniser.isNameFirst c && rest.all Recogniser.isNameRest
  | [] => false

/-- The name that one element of a flat pattern binds, if it is plain enough: what comes before a
default value, without a rest mark, and in an object pattern after the last colon. -/
def elementName? (inObject : Bool) (element : List Char) : Option (List Char) :=
  let target := trim (element.takeWhile (· != '='))
  let target := if ['.', '.', '.'].isPrefixOf target then target.drop 3 else target
  let name :=
    if inObject then trim (target.reverse.takeWhile (· != ':')).reverse else target
  if isBindingName name then some name else none

/-- The names that the inside of a flat object or array pattern binds. -/
def flatPatternNames (inObject : Bool) (inside : List Char) : List (List Char) :=
  (splitAtAll (· == ',') inside).filterMap (elementName? inObject)

end ModuleBridge
