import ModuleBridge.Text.Range

/-!
# Classes of bytes and characters

What the scanning operations ask about a single byte, a character or a word. Names are plain ASCII:
a letter, `_` or `$`, then letters, digits, `_` or `$`.
-/

namespace ModuleBridge

abbrev byte (c : Char) : UInt8 :=
  c.val.toUInt8

def isLineBreak (c : Char) : Bool :=
  c == '\n' || c == '\r' || c == '\u2028' || c == '\u2029'

/-- A blank that does not end a line. -/
def isBlank (c : Char) : Bool :=
  c == ' ' || c == '\t' || c == '\x0b' || c == '\x0c' || c == '\u00a0' || c == '\u1680' ||
    ('\u2000' ≤ c && c ≤ '\u200a') || c == '\u202f' || c == '\u205f' || c == '\u3000' ||
    c == '\ufeff'

def isLineEndByte (b : UInt8) : Bool :=
  b == byte '\n' || b == byte '\r'

def isBlankByte (b : UInt8) : Bool :=
  b == byte ' ' || b == byte '\t' || b == byte '\x0b' || b == byte '\x0c'

/-- The bytes that may stand between a token and the slash after it: blanks, form feeds and line
ends, but no vertical tab. -/
def isSpacingByte (b : UInt8) : Bool :=
  b == byte ' ' || b == byte '\t' || b == byte '\x0c' || isLineEndByte b

def isDigitByte (b : UInt8) : Bool :=
  byte '0' ≤ b && b ≤ byte '9'

def isNameStart (b : UInt8) : Bool :=
  (byte 'a' ≤ b && b ≤ byte 'z') || (byte 'A' ≤ b && b ≤ byte 'Z') || b == byte '_' || b == byte '$'

def isNamePart (b : UInt8) : Bool :=
  isNameStart b || isDigitByte b

def isQuote (b : UInt8) : Bool :=
  b == byte '\'' || b == byte '"'

def isOpener (b : UInt8) : Bool :=
  b == byte '(' || b == byte '[' || b == byte '\x7b'

def isCloser (b : UInt8) : Bool :=
  b == byte ')' || b == byte ']' || b == byte '\x7d'

/-- Whether `b` is one of the ASCII characters `cs`. -/
def isAnyOf (cs : List Char) (b : UInt8) : Bool :=
  cs.any (byte · == b)

/-- After one of these punctuators a slash opens a regular expression. -/
def startsPatternAfter (b : UInt8) : Bool :=
  isAnyOf ['(', ',', '=', ':', '[', '!', '&', '|', '?', '\x7b', '\x7d', ';', '+', '-', '*', '%',
    '<', '>', '~', '^'] b

/-- The words after which a slash opens a regular expression. -/
def patternWords : List String :=
  ["return", "typeof", "case", "throw", "in", "of", "void", "delete", "yield", "await",
    "instanceof", "new", "else", "do"]

def startsPatternAfterWord (word : List UInt8) : Bool :=
  patternWords.any (bytesOf · == word)

/-- An expression that ends in one of these goes on in the next line. -/
def expectsContinuation (b : UInt8) : Bool :=
  isAnyOf ['=', '+', '-', '*', '/', '%', '&', '|', '^', '!', '~', '?', ':', '.', ',', '<', '>',
    '(', '[', '\x7b'] b

/-- A line that starts with one of these continues the expression before it. -/
def continuesExpression (b : UInt8) : Bool :=
  isAnyOf ['.', '(', '[', '?', '+', '-', '*', '/', '%', '&', '|', '^', '=', '<', '>', ',',
    '\x60'] b

end ModuleBridge
