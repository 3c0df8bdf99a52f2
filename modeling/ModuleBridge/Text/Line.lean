import ModuleBridge.Text.Range

/-!
# Lines

A line map turns byte offsets into line and column numbers; only a line feed ends a line there.
`splitLines` cuts a text into lines for line-by-line work and drops one carriage return in
front of a line feed.
-/

namespace ModuleBridge

/-- Byte offsets at which the lines of a text start, in increasing order. -/
structure LineMap where
  starts : List Nat
deriving DecidableEq, Repr, Inhabited

/-- A place in a text, counted from zero; the column is in bytes. -/
structure LineColumn where
  line : Nat
  column : Nat
deriving DecidableEq, Repr, Inhabited

/-- Lines and columns are shown counted from one. -/
def LineColumn.render (p : LineColumn) : String :=
  s!"{p.line + 1}:{p.column + 1}"

namespace LineMap

/-- Offsets just after each line feed of `bytes`, where the first byte stands at `offset`. -/
def startsAfterFeeds : List UInt8 → Nat → List Nat
  | [], _ => []
  | b :: rest, offset =>
    if b = 10 then (offset + 1) :: startsAfterFeeds rest (offset + 1)
    else startsAfterFeeds rest (offset + 1)

def ofText (text : String) : LineMap :=
  ⟨0 :: startsAfterFeeds (bytesOf text) 0⟩

/-- Where the search for a number in an increasing list ends. -/
inductive SearchEnd where
  | found (index : Nat)
  /-- The number is missing; it would have to be put at the index. -/
  | missing (index : Nat)
deriving DecidableEq, Repr

/-- Halve the `size` entries from `base` on until one is left: the last that is at most `pos`. -/
def narrow (starts : List Nat) (pos base size : Nat) : Nat :=
  if size ≤ 1 then base
  else if starts.getD (base + size / 2) 0 ≤ pos then
    narrow starts pos (base + size / 2) (size - size / 2)
  else narrow starts pos base (size - size / 2)
termination_by size

def search (starts : List Nat) (pos : Nat) : SearchEnd :=
  let index := narrow starts pos 0 starts.length
  match starts[index]? with
  | none => .missing 0
  | some start =>
    if start = pos then .found index
    else if start < pos then .missing (index + 1)
    else .missing index

/-- The line that holds offset `pos`: the last one that starts at or before it. -/
def lineOf (m : LineMap) (pos : Nat) : Nat :=
  match search m.starts pos with
  | .found line => line
  | .missing line => line - 1

def lineColumnOf (m : LineMap) (pos : Nat) : LineColumn :=
  let line := m.lineOf pos
  ⟨line, pos - m.starts.getD line 0⟩

end LineMap

/-- Cut `chars` at line feeds. `line` holds the current line's characters, last first. -/
def splitLinesAux : List Char → List Char → List (List Char)
  | [], [] => []
  | [], line => [line.reverse]
  | '\n' :: rest, '\r' :: line => line.reverse :: splitLinesAux rest []
  | '\n' :: rest, line => line.reverse :: splitLinesAux rest []
  | c :: rest, line => splitLinesAux rest (c :: line)

/-- The lines of a text without their ends. A line ends at a line feed, which takes one carriage
return before it along; text after the last line feed is a line only if it is not empty. -/
def splitLines (chars : List Char) : List (List Char) :=
  splitLinesAux chars []

end ModuleBridge
