/-!
# Ranges of source text

Positions are byte offsets into the UTF-8 form of a text. A range names a stretch by its two ends, a
span by its start and its length; diagnostics carry spans, everything else carries ranges.
-/

namespace ModuleBridge

def bytesOf (text : String) : List UInt8 :=
  text.toUTF8.data.toList

/-- The text that `bytes` encode, or the empty text when they are not well-formed UTF-8. -/
def textOf (bytes : List UInt8) : String :=
  (String.fromUTF8? ⟨bytes.toArray⟩).getD ""

structure Range where
  pos : Nat
  stop : Nat
deriving DecidableEq, Repr, Inhabited

/-- `length` bytes from `start` on. -/
structure Span where
  start : Nat
  length : Nat
deriving DecidableEq, Repr, Inhabited

namespace Range

def isEmpty (r : Range) : Bool :=
  r.pos == r.stop

def toSpan (r : Range) : Span :=
  ⟨r.pos, r.stop - r.pos⟩

/-- The part of `text` inside the range. The range is first clamped to the text; a range that
splits a character covers no text at all. -/
def slice (r : Range) (text : String) : String :=
  let bytes := text.toUTF8
  let stop := min r.stop bytes.size
  let pos := min r.pos stop
  (String.fromUTF8? (bytes.extract pos stop)).getD ""

def render (r : Range) : String :=
  s!"{r.pos}..{r.stop}"

end Range

namespace Span

def toRange (s : Span) : Range :=
  ⟨s.start, s.start + s.length⟩

def render (s : Span) : String :=
  s.toRange.render

end Span

end ModuleBridge
