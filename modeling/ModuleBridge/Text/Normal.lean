import ModuleBridge.Text.CombiningClass
import ModuleBridge.Text.Composite

/-!
# Normal form of texts

Texts that differ only in how characters are composed, or in the order of marks that do not touch,
have one normal form: all composites are taken apart, marks are put in order, and what can be
composed is composed again.
-/

namespace ModuleBridge

namespace Hangul

/-- Syllables are numbered by their lead, vowel and tail; the first tail is none. -/
def partsOf? (c : Char) : Option (List Char) :=
  let index := c.toNat - 0xac00
  if c.toNat < 0xac00 || 11172 ≤ index then none
  else
    let lead := Char.ofNat (0x1100 + index / 588)
    let vowel := Char.ofNat (0x1161 + index % 588 / 28)
    let tail := index % 28
    some (lead :: vowel :: if tail = 0 then [] else [Char.ofNat (0x11a7 + tail)])

/-- A lead and a vowel make a syllable, and so do a syllable without a tail and a tail. -/
def compositeOf? (first second : Char) : Option Char :=
  let a := first.toNat
  let b := second.toNat
  if 0x1100 ≤ a && a < 0x1113 && 0x1161 ≤ b && b < 0x1176 then
    some (Char.ofNat (0xac00 + ((a - 0x1100) * 21 + (b - 0x1161)) * 28))
  else if 0xac00 ≤ a && a - 0xac00 < 11172 && (a - 0xac00) % 28 == 0 && 0x11a7 < b &&
      b < 0x11c3 then
    some (Char.ofNat (a + (b - 0x11a7)))
  else none

end Hangul

/-- Take a character apart, and its parts up to `depth` times. -/
def takeApart : Nat → Char → List Char
  | 0, c => [c]
  | depth + 1, c =>
    match (Hangul.partsOf? c).or (partsOf? c) with
    | some parts => parts.flatMap (takeApart depth)
    | none => [c]

/-- No character has parts of parts beyond this depth. -/
def partDepth : Nat := 4

/-- Put a mark behind a text, which is given last character first. It moves in front of marks of
higher classes. -/
def placeMark (c : Char) : List Char → List Char
  | [] => [c]
  | last :: before =>
    if combiningClass c ≠ 0 && combiningClass c < combiningClass last then
      last :: placeMark c before
    else c :: last :: before

def orderMarks (text : List Char) : List Char :=
  (text.foldl (fun placed c => placeMark c placed) []).reverse

/-- A text that is being composed, last characters first: what is finished, the character that marks
may still join, and the marks behind it that did not. -/
structure Composing where
  finished : List Char
  starter : Option Char
  marks : List Char

namespace Composing

def text (s : Composing) : List Char :=
  (s.marks ++ s.starter.toList ++ s.finished).reverse

/-- Add a character. It joins the starter if they have a composite, unless a mark of its own class
or of a higher one stands between. -/
def add (s : Composing) (c : Char) : Composing :=
  match s.starter with
  | none =>
    if combiningClass c = 0 then ⟨s.finished, some c, []⟩ else ⟨c :: s.finished, none, []⟩
  | some starter =>
    let isBlocked := s.marks.head?.any fun mark => combiningClass c ≤ combiningClass mark
    let composite := (Hangul.compositeOf? starter c).or (compositeOf? starter c)
    match isBlocked, composite with
    | false, some composed => ⟨s.finished, some composed, s.marks⟩
    | _, _ =>
      if combiningClass c = 0 then ⟨s.marks ++ starter :: s.finished, some c, []⟩
      else ⟨s.finished, some starter, c :: s.marks⟩

end Composing

/-- The normal form of a text. Below the first mark, `0x300`, nothing has to be composed. -/
def normalForm (text : List Char) : List Char :=
  if text.all (·.toNat < 0x300) then text
  else ((orderMarks (text.flatMap (takeApart partDepth))).foldl Composing.add ⟨[], none, []⟩).text

end ModuleBridge
