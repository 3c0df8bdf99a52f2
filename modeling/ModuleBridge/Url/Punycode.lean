/-!
# Punycode

A label outside ASCII is spelt in ASCII: first its ASCII characters and a hyphen, then numbers that
tell which other characters to insert where. The numbers are written in base 36 with digits of
varying range, adapted to the numbers before, and are kept in 32 bits.
-/

namespace ModuleBridge

namespace Punycode

def digit? (c : Char) : Option Nat :=
  if 'a' ≤ c && c ≤ 'z' then some (c.toNat - 97)
  else if '0' ≤ c && c ≤ '9' then some (c.toNat - 22)
  else none

def limit : Nat := 4294967296

/-- A digit below the threshold of its place is the last one of its number. -/
def threshold (place bias : Nat) : Nat :=
  if place ≤ bias then 1 else if bias + 26 ≤ place then 26 else place - bias

/-- Add the number at the front of the digits to `sum`. Also gives the digits after it. -/
def addNumber? (bias : Nat) : Nat → Nat → Nat → List Char → Option (Nat × List Char)
  | _, _, _, [] => none
  | place, weight, sum, c :: rest =>
    match digit? c with
    | none => none
    | some digit =>
      let sum := sum + digit * weight
      let weight := weight * (36 - threshold place bias)
      if limit ≤ sum then none
      else if digit < threshold place bias then some (sum, rest)
      else if limit ≤ weight then none
      else addNumber? bias (place + 36) weight sum rest

theorem addNumber?_lt {bias place weight sum total : Nat} {digits rest : List Char}
    (h : addNumber? bias place weight sum digits = some (total, rest)) :
    rest.length < digits.length := by
  induction digits generalizing place weight sum with
  | nil => simp [addNumber?] at h
  | cons c more ih =>
    rw [addNumber?] at h
    split at h
    · simp at h
    · dsimp only at h
      split at h
      · simp at h
      · split at h
        · injection h with h
          injection h with _ hrest
          rw [← hrest]
          exact Nat.lt_succ_self more.length
        · split at h
          · simp at h
          · exact Nat.lt_succ_of_lt (ih h)

def adaptFrom (delta bias : Nat) : Nat :=
  if 455 < delta then adaptFrom (delta / 35) (bias + 36) else bias + 36 * delta / (delta + 38)
termination_by delta
decreasing_by exact Nat.div_lt_self (by omega) (by omega)

/-- The bias after a number `delta`, when the text has come to `count` characters. -/
def adapt (delta count : Nat) (isFirst : Bool) : Nat :=
  let delta := if isFirst then delta / 700 else delta / 2
  adaptFrom (delta + delta / count) 0

/-- Insert the characters that the digits tell into `text`. The one inserted last was `code`, and
the next place is `place`. -/
def insertAll? (place code bias : Nat) (text digits : List Char) : Option (List Char) :=
  if digits.isEmpty then some text
  else
    match _ : addNumber? bias 36 1 place digits with
    | none => none
    | some (total, rest) =>
      let count := text.length + 1
      let next := code + total / count
      let index := total % count
      if next.isValidChar then
        insertAll? (index + 1) next (adapt (total - place) count (place == 0))
          (text.take index ++ Char.ofNat next :: text.drop index) rest
      else none
termination_by digits.length
decreasing_by exact addNumber?_lt ‹_›

/-- The text that a label spells; the last hyphen ends its ASCII characters. -/
def decode? (label : List Char) : Option (List Char) :=
  let tail := (label.reverse.takeWhile (· != '-')).reverse
  let ascii := label.take (label.length - tail.length - 1)
  insertAll? 0 128 72 ascii (if ascii.isEmpty then label else tail)

/-! ## Writing -/

def digitChar (digit : Nat) : Char :=
  Char.ofNat (if digit < 26 then digit + 97 else digit + 22)

theorem threshold_pos (place bias : Nat) : 0 < threshold place bias := by
  unfold threshold
  split
  · omega
  · split <;> omega

/-- The digits of a number from a place on. -/
def writeNumber (bias place value : Nat) : List Char :=
  let least := threshold place bias
  if value < least then [digitChar value]
  else
    digitChar (least + (value - least) % (36 - least)) ::
      writeNumber bias (place + 36) ((value - least) / (36 - least))
termination_by value
decreasing_by
  have hpos := threshold_pos place bias
  have hle := Nat.div_le_self (value - threshold place bias) (36 - threshold place bias)
  omega

/-- What has been written: the code point that comes next, the number of steps to it so far, and the
number of characters that are placed. -/
structure Writing where
  next : Nat
  steps : Nat
  bias : Nat
  count : Nat
  isFirst : Bool
  digits : List Char

/-- Pass a character on the way round the text that places the code point `next`. -/
def Writing.pass (w : Writing) (c : Char) : Writing :=
  if c.toNat < w.next then { w with steps := w.steps + 1 }
  else if c.toNat = w.next then
    ⟨w.next, 0, adapt w.steps (w.count + 1) w.isFirst, w.count + 1, false,
      w.digits ++ writeNumber w.bias 36 w.steps⟩
  else w

/-- Place all characters of `text` with one code point, after those with lower ones. -/
def Writing.place (text : List Char) (w : Writing) (code : Nat) : Writing :=
  let steps := w.steps + (code - w.next) * (w.count + 1)
  let w := text.foldl Writing.pass { w with next := code, steps := steps }
  { w with next := code + 1, steps := w.steps + 1 }

def encode (text : List Char) : List Char :=
  let ascii := text.filter (·.toNat < 128)
  let codes := ((text.map Char.toNat).filter (128 ≤ ·)).eraseDups.mergeSort fun a b => a ≤ b
  let start := if ascii.isEmpty then [] else ascii ++ ['-']
  let written := codes.foldl (Writing.place text) ⟨128, 0, 72, ascii.length, true, []⟩
  start ++ written.digits

end Punycode

end ModuleBridge
