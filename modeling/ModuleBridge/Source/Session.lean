import ModuleBridge.Source.Stretch
import ModuleBridge.Source.Token
import ModuleBridge.Source.Word

/-!
# Scanning sessions

A session runs commands on one cursor, each from where the one before left it, and collects their
answers. A command that stops with a fault answers the fault, and the session goes on.
-/

namespace ModuleBridge

inductive Command where
  | moveTo (pos : Nat)
  | isAtEnd
  | character
  | characterAt (offset : Nat)
  | remaining
  | wholeText
  | textOfRange (range : Range)
  | faultHere (message : Message) (args : List String)
  /-- Run the commands and put the cursor back. -/
  | lookAhead (commands : List Command)
  | skipShebang
  | space
  | trivia
  | peek (text : String)
  | accept (text : String)
  | peekWord (word : String)
  | acceptWord (word : String)
  /-- Without a keyword nothing is accepted. -/
  | acceptKeyword (keyword : Option Keyword)
  | expect (text : String)
  | expectWord (word : String)
  | atName
  | skipPast (b : UInt8)
  | name
  | quoted
  | number
  | block (opener closer : UInt8)
  | parentheses
  | expression
  | statement
  | heritage
  | nextWord
deriving Repr

inductive Answer where
  | done
  | flag (value : Bool)
  | character (value : Option Char)
  | text (value : String)
  | word (value : Option String)
  | fault (value : Fault)
  | name (value : Name)
  | quoted (value : Quoted)
  | number (value : NumberToken)
  | range (value : Range)
  /-- The answers of commands run ahead, each with the position it left. -/
  | steps (value : List (Answer × Nat))
deriving Repr

/-- Run an operation and put its result or its fault into an answer. -/
def Scan.answer {α : Type} (op : Scan α) (wrap : α → Answer) (c : Cursor) : Answer × Cursor :=
  match op c with
  | .ok value d => (wrap value, d)
  | .error fault d => (.fault fault, d)

mutual

def Command.run : Command → Cursor → Answer × Cursor
  | .moveTo pos, c => (.done, c.moveTo pos)
  | .isAtEnd, c => (.flag c.isAtEnd, c)
  | .character, c => (.character c.char?, c)
  | .characterAt offset, c => (.character (c.charAt? offset), c)
  | .remaining, c => (.text (textOf c.after), c)
  | .wholeText, c => (.text (textOf c.bytes), c)
  | .textOfRange range, c => (.text (range.slice (textOf c.bytes)), c)
  | .faultHere message args, c => (.fault (c.fault message args), c)
  | .lookAhead commands, c => (.steps (Command.runAll commands c).1, c)
  | .skipShebang, c => Scan.skipShebang.answer (fun _ => .done) c
  | .space, c => Scan.space.answer (fun _ => .done) c
  | .trivia, c => Scan.trivia.answer .flag c
  | .peek text, c => (.flag (c.startsWith text), c)
  | .accept text, c => (Scan.accept text).answer .flag c
  | .peekWord word, c => (.flag (c.startsWithWord word), c)
  | .acceptWord word, c => (Scan.acceptWord word).answer .flag c
  | .acceptKeyword none, c => (.flag false, c)
  | .acceptKeyword (some keyword), c => (Scan.acceptWord keyword.text).answer .flag c
  | .expect text, c => (Scan.expect text).answer (fun _ => .done) c
  | .expectWord word, c => (Scan.expectWord word).answer (fun _ => .done) c
  | .atName, c => Scan.atName.answer .flag c
  | .skipPast b, c => (Scan.skipPast b).answer .flag c
  | .name, c => Scan.name.answer .name c
  | .quoted, c => Scan.quoted.answer .quoted c
  | .number, c => Scan.number.answer .number c
  | .block opener closer, c => (Scan.block opener closer).answer .range c
  | .parentheses, c => Scan.parentheses.answer .range c
  | .expression, c => Scan.expression.answer .range c
  | .statement, c => Scan.statement.answer .range c
  | .heritage, c => Scan.heritage.answer .range c
  | .nextWord, c => Scan.nextWord.answer .word c

/-- Run commands one after the other; each answer comes with the position left behind. -/
def Command.runAll : List Command → Cursor → List (Answer × Nat) × Cursor
  | [], c => ([], c)
  | command :: rest, c =>
    let (answer, d) := command.run c
    let (answers, e) := Command.runAll rest d
    ((answer, d.pos) :: answers, e)

end

def runSession (text : String) (commands : List Command) : List (Answer × Nat) :=
  (Command.runAll commands (Cursor.ofText text)).1

end ModuleBridge
