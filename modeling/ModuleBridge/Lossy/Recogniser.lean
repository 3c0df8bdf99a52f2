import ModuleBridge.Text.Blank
import ModuleBridge.Text.WordChar

/-!
# Recognisers

A recogniser takes a piece off the front of a text or refuses it. Runs are as long as possible and
are never shortened again; every run used here is followed by something it cannot hold.
-/

namespace ModuleBridge

/-- Take a piece off the front of a text. -/
abbrev Recogniser (α : Type) := StateT (List Char) Option α

namespace Recogniser

def refuse {α : Type} : Recogniser α := fun _ => none

/-- The longest run of characters that `p` selects. -/
def run (p : Char → Bool) : Recogniser (List Char) := fun text =>
  some (text.takeWhile p, text.dropWhile p)

def run1 (p : Char → Bool) : Recogniser (List Char) := do
  let chars ← run p
  if chars.isEmpty then refuse else return chars

def exactly (word : String) : Recogniser Unit := fun text =>
  if word.toList.isPrefixOf text then some ((), text.drop word.toList.length) else none

/-- One of the words, the first that fits. -/
def oneOf : List String → Recogniser Unit
  | [] => refuse
  | word :: words => fun text =>
    match exactly word text with
    | some result => some result
    | none => oneOf words text

/-- Try a recogniser, and take nothing when it refuses. -/
def optionally {α : Type} (p : Recogniser α) : Recogniser Unit := fun text =>
  match p text with
  | some (_, rest) => some ((), rest)
  | none => some ((), text)

/-- The text that a recogniser takes, with its result. -/
def taken {α : Type} (p : Recogniser α) : Recogniser (α × List Char) := fun text =>
  match p text with
  | some (value, rest) => some ((value, text.take (text.length - rest.length)), rest)
  | none => none

/-- Refuse unless what follows satisfies `p`, which sees no character at the end of the text. -/
def followedBy (p : Option Char → Bool) : Recogniser Unit := fun text =>
  if p text.head? then some ((), text) else none

def space : Recogniser Unit := do
  let _ ← run isWhiteSpace

def space1 : Recogniser Unit := do
  let _ ← run1 isWhiteSpace

def isIndentChar (c : Char) : Bool :=
  c == ' ' || c == '\t'

def indent : Recogniser (List Char) :=
  run isIndentChar

def isNameFirst (c : Char) : Bool :=
  c.isAlpha || c == '_' || c == '$'

def isNameRest (c : Char) : Bool :=
  isWordChar c || c == '$'

/-- A name: a letter, `_` or `$`, then word characters and `$`. -/
def name : Recogniser (List Char) := fun text =>
  match text with
  | c :: rest =>
    if isNameFirst c then some (c :: rest.takeWhile isNameRest, rest.dropWhile isNameRest)
    else none
  | [] => none

def wordEnd : Recogniser Unit :=
  followedBy fun next => !next.any isWordChar

/-- A semicolon that may follow on the same line. -/
def semicolon : Recogniser Unit := do
  let _ ← indent
  optionally (exactly ";")

def isQuoteChar (c : Char) : Bool :=
  c == '\'' || c == '"'

/-- A source between quotes of either kind, in one line and not empty. -/
def source : Recogniser (List Char) := do
  let _ ← oneOf ["'", "\""]
  let value ← run1 fun c => !(isQuoteChar c || c == '\n')
  let _ ← oneOf ["'", "\""]
  return value

/-- `from` and a source, up to the semicolon. -/
def fromSource : Recogniser (List Char) := do
  exactly "from"
  space
  let value ← source
  semicolon
  return value

def braces : Recogniser (List Char) := do
  exactly "\x7b"
  let list ← run (· != '\x7d')
  exactly "\x7d"
  return list

end Recogniser

end ModuleBridge
