/-!
# White space

The characters with the White_Space property of Unicode, and trimming and splitting at them.
-/

namespace ModuleBridge

/-- A white-space character: besides the blanks of ASCII the next line, the no-break space, the
spaces of general punctuation, the two separators and the ideographic space. -/
def isWhiteSpace (c : Char) : Bool :=
  ('\t' ≤ c && c ≤ '\r') || c == ' ' || c == '\u0085' || c == '\u00a0' || c == '\u1680' ||
    ('\u2000' ≤ c && c ≤ '\u200a') || c == '\u2028' || c == '\u2029' || c == '\u202f' ||
    c == '\u205f' || c == '\u3000'

def trimStart (text : List Char) : List Char :=
  text.dropWhile isWhiteSpace

def trimEnd (text : List Char) : List Char :=
  (text.reverse.dropWhile isWhiteSpace).reverse

def trim (text : List Char) : List Char :=
  trimEnd (trimStart text)

/-- The words of a text, where `word` holds the characters of an unfinished one, last first. -/
def splitWordsAux : List Char → List Char → List (List Char)
  | [], [] => []
  | [], word => [word.reverse]
  | c :: rest, word =>
    if isWhiteSpace c then
      match word with
      | [] => splitWordsAux rest []
      | _ => word.reverse :: splitWordsAux rest []
    else splitWordsAux rest (c :: word)

/-- The pieces of a text between runs of white space. -/
def splitWords (text : List Char) : List (List Char) :=
  splitWordsAux text []

end ModuleBridge
