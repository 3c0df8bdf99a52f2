import ModuleBridge.Number.Binary64
import ModuleBridge.Text.Range

/-!
# Names, strings and numbers

The smallest parts of a module that are understood, each with the range it was read from.
-/

namespace ModuleBridge

structure Name where
  text : String
  range : Range
deriving DecidableEq, Repr, Inhabited

/-- A quoted string. The value is the text between the quotes as written, escapes included; the
range takes in the quotes. -/
structure Quoted where
  value : String
  range : Range
deriving DecidableEq, Repr, Inhabited

structure NumberToken where
  value : Binary64
  range : Range
deriving DecidableEq, Repr, Inhabited

inductive Keyword where
  | importWord
  | exportWord
  | constWord
  | letWord
  | varWord
  | functionWord
  | classWord
  | asyncWord
  | defaultWord
  | fromWord
  | asWord
  | extendsWord
  | awaitWord
deriving DecidableEq, Repr, Inhabited

namespace Keyword

def text : Keyword → String
  | importWord => "import"
  | exportWord => "export"
  | constWord => "const"
  | letWord => "let"
  | varWord => "var"
  | functionWord => "function"
  | classWord => "class"
  | asyncWord => "async"
  | defaultWord => "default"
  | fromWord => "from"
  | asWord => "as"
  | extendsWord => "extends"
  | awaitWord => "await"

/-- The words that open a statement, in the order in which they are tried. -/
def statementWords : List Keyword :=
  [importWord, exportWord, constWord, letWord, varWord, functionWord, classWord]

end Keyword

end ModuleBridge
