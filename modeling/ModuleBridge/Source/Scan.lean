import ModuleBridge.Diagnostic.Basic
import ModuleBridge.Source.Literal
import ModuleBridge.Source.Trivia

/-!
# Scanning operations

A scanning operation moves a cursor and either answers or stops with a fault; in both cases it
leaves a cursor behind. The matching operations consume their text or leave the cursor untouched.
-/

namespace ModuleBridge

/-- An operation on a cursor that may stop with a fault. -/
abbrev Scan (α : Type) := EStateM Fault Cursor α

/-- A fault at the cursor, as long as the character there. -/
def Cursor.fault (c : Cursor) (message : Message) (args : List String) : Fault :=
  ⟨message, args, ⟨c.pos, (c.char?.map Char.utf8Size).getD 0⟩⟩

namespace Scan

def failHere {α : Type} (message : Message) (args : List String) : Scan α := do
  throw ((← get).fault message args)

def peek {α : Type} (op : Cursor → α) : Scan α := do
  return op (← get)

/-- Move past a first line that starts with `#!`, up to its end. -/
def skipShebang : Scan Unit :=
  modify fun c =>
    if c.pos == 0 && c.startsWith "#!" then c.advance (lineLength c.after) else c

/-- Move past blanks, line ends and comments, and tell whether a line end was crossed. -/
def trivia : Scan Bool := fun c =>
  match triviaReach c.after with
  | .clear length crossesLine => .ok crossesLine (c.advance length)
  | .unclosed length =>
    let d := c.advance length
    .error ⟨.commentEndExpected, [], ⟨d.pos, 2⟩⟩ d

def space : Scan Unit := do
  let _ ← trivia

/-- Consume `text` if it stands at the cursor. -/
def accept (text : String) : Scan Bool := fun c =>
  if c.startsWith text then .ok true (c.advance (bytesOf text).length) else .ok false c

/-- Consume `word` if it stands at the cursor as a whole word. -/
def acceptWord (word : String) : Scan Bool := fun c =>
  if c.startsWithWord word then .ok true (c.advance (bytesOf word).length) else .ok false c

def expect (text : String) : Scan Unit := do
  unless ← accept text do
    failHere .expected [text]

def expectWord (word : String) : Scan Unit := do
  unless ← acceptWord word do
    failHere .expected [word]

def atName : Scan Bool :=
  peek fun c => c.byte?.any isNameStart

/-- Move just past the next `b`, or to the end when there is none. -/
def skipPast (b : UInt8) : Scan Bool := fun c =>
  let length := (c.after.takeWhile (· != b)).length
  let d := c.advance (length + 1)
  .ok ((c.after.drop length).head? == some b) d

end Scan

end ModuleBridge
