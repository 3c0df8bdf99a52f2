import ModuleBridge.Source.Byte

/-!
# Cursors

A cursor is a place between two bytes of a text. The bytes before it are kept nearest first, so that
looking back is reading a list, and the bytes after it are what scanning functions recurse on.
Every move is `advance`, which stops at the end of the text.
-/

namespace ModuleBridge

/-- The first character that `bytes` encode, if they start with a whole one. -/
def decodeFirst? (bytes : List UInt8) : Option Char :=
  ByteArray.utf8DecodeChar? ⟨(bytes.take 4).toArray⟩ 0

structure Cursor where
  /-- The bytes before the cursor, nearest first. -/
  before : List UInt8
  /-- The bytes from the cursor on. -/
  after : List UInt8
  /-- The offset of the cursor. -/
  pos : Nat
  pos_eq : pos = before.length
deriving DecidableEq

namespace Cursor

def atStart (bytes : List UInt8) : Cursor :=
  ⟨[], bytes, 0, rfl⟩

def ofText (text : String) : Cursor :=
  atStart (bytesOf text)

instance : Inhabited Cursor := ⟨atStart []⟩

/-- Move over the next `n` bytes, or to the end when fewer are left. -/
def advance (c : Cursor) (n : Nat) : Cursor :=
  let taken := c.after.take n
  ⟨taken.reverseAux c.before, c.after.drop n, c.pos + taken.length, by
    simp only [List.reverseAux_eq, List.length_append, List.length_reverse, c.pos_eq]
    omega⟩

def bytes (c : Cursor) : List UInt8 :=
  c.before.reverse ++ c.after

/-- Move to the offset `pos`, or to the end when the text is shorter. -/
def moveTo (c : Cursor) (pos : Nat) : Cursor :=
  (atStart c.bytes).advance pos

def isAtEnd (c : Cursor) : Bool :=
  c.after.isEmpty

def byte? (c : Cursor) : Option UInt8 :=
  c.after.head?

/-- The character that starts `offset` bytes after the cursor. -/
def charAt? (c : Cursor) (offset : Nat) : Option Char :=
  decodeFirst? (c.after.drop offset)

/-- The character at the cursor; none at the end or inside a character. -/
def char? (c : Cursor) : Option Char :=
  decodeFirst? c.after

/-- How many bytes to step over to pass what stands at the cursor: a whole character, or a single
byte inside one. -/
def stepLength (c : Cursor) : Nat :=
  match c.char? with
  | some ch => ch.utf8Size
  | none => 1

def startsWith (c : Cursor) (text : String) : Bool :=
  (bytesOf text).isPrefixOf c.after

/-- Whether `word` stands at the cursor and is not the beginning of a longer name. -/
def startsWithWord (c : Cursor) (word : String) : Bool :=
  c.startsWith word && !(c.after[(bytesOf word).length]?).any isNamePart

/-- The text from `c` up to the later cursor `d`. -/
def textUpTo (c d : Cursor) : String :=
  textOf (c.after.take (d.pos - c.pos))

def rangeTo (c d : Cursor) : Range :=
  ⟨c.pos, d.pos⟩

@[simp] theorem after_advance (c : Cursor) (n : Nat) : (c.advance n).after = c.after.drop n := rfl

theorem advance_le (c : Cursor) (n : Nat) : (c.advance n).after.length ≤ c.after.length := by
  simp

theorem advance_lt {c : Cursor} {n : Nat} {b : UInt8} {rest : List UInt8} (hn : 0 < n)
    (hc : c.after = b :: rest) : (c.advance n).after.length < c.after.length := by
  simp only [after_advance, List.length_drop, hc, List.length_cons]
  omega

@[simp] theorem bytes_advance (c : Cursor) (n : Nat) : (c.advance n).bytes = c.bytes := by
  simp [bytes, advance, List.reverseAux_eq]

theorem stepLength_pos (c : Cursor) : 0 < c.stepLength := by
  unfold stepLength
  split
  · exact Char.utf8Size_pos _
  · exact Nat.one_pos

end Cursor

end ModuleBridge
