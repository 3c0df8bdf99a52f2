import ModuleBridge.Source.Session

/-!
# Scanning by offset

The scanning operations once more, on the bytes of a text and an offset into them. Here nothing is
safe by construction: each slice, each byte that is taken for granted, each difference and each
count that goes down is asked for, and an operation that asks for something out of range comes to
nothing. Loops count down from more rounds than the text has bytes, and one that runs out of rounds
comes to nothing as well.
-/

namespace ModuleBridge

/-- What an operation comes to: an answer or a fault, and the offset it leaves; nothing if it
reached out of range. -/
abbrev Outcome (α : Type) := Option (Except Fault α × Nat)

/-- Go on from an answer; a fault stays. -/
def Outcome.andThen {α β : Type} (outcome : Outcome α) (next : α → Nat → Outcome β) : Outcome β :=
  match outcome with
  | none => none
  | some (.error fault, stop) => some (.error fault, stop)
  | some (.ok value, stop) => next value stop

namespace Indexed

def difference? (m n : Nat) : Option Nat :=
  if n ≤ m then some (m - n) else none

def slice? (bytes : List UInt8) (lo hi : Nat) : Option (List UInt8) :=
  if lo ≤ hi ∧ hi ≤ bytes.length then some ((bytes.drop lo).take (hi - lo)) else none

/-- The text from `lo` up to `hi`, which must not cut a character. -/
def sliceText? (text : String) (lo hi : Nat) : Option String :=
  if lo ≤ hi ∧ String.Pos.Raw.IsValid text ⟨lo⟩ ∧ String.Pos.Raw.IsValid text ⟨hi⟩ then
    some (textOf (((bytesOf text).drop lo).take (hi - lo)))
  else none

/-- A range, whose ends must be in order, and its end. -/
def rangeTo? (start stop : Nat) : Outcome Range :=
  if start ≤ stop then some (.ok ⟨start, stop⟩, stop) else none

variable (bytes : List UInt8)

def runEnd (p : UInt8 → Bool) (pos : Nat) : Nat :=
  pos + ((bytes.drop pos).takeWhile p).length

def stepLength (pos : Nat) : Nat :=
  match decodeFirst? (bytes.drop pos) with
  | some ch => ch.utf8Size
  | none => 1

def faultAt (pos : Nat) (message : Message) (args : List String) : Fault :=
  ⟨message, args, ⟨pos, ((decodeFirst? (bytes.drop pos)).map Char.utf8Size).getD 0⟩⟩

/-- Just after a `;` that follows on the same line, or `pos`. -/
def pastSemicolon (pos : Nat) : Nat :=
  let stop := runEnd bytes (fun b => b == byte ' ' || b == byte '\t') pos
  if bytes[stop]? == some (byte ';') then stop + 1 else pos

def commentEnd (body : List UInt8) : Option Nat :=
  (commentBody body 0 false).map (·.1)

def triviaFrom : Nat → Nat → Bool → Outcome Bool
  | 0, _, _ => none
  | rounds + 1, pos, crossed =>
    match bytes[pos]? with
    | none => some (.ok crossed, pos)
    | some b =>
      if isBlankByte b then triviaFrom rounds (pos + 1) crossed
      else if isLineEndByte b then triviaFrom rounds (pos + 1) true
      else if b == byte '/' && bytes[pos + 1]? == some (byte '/') then
        (slice? bytes pos bytes.length).bind fun rest =>
          triviaFrom rounds (pos + lineLength rest) crossed
      else if b == byte '/' && bytes[pos + 1]? == some (byte '*') then
        (slice? bytes (pos + 2) bytes.length).bind fun body =>
          match commentEnd body with
          | none => some (.error ⟨.commentEndExpected, [], ⟨pos, 2⟩⟩, pos)
          | some length =>
            (slice? body 0 length).bind fun inner =>
              triviaFrom rounds (pos + 2 + length + 2) (crossed || inner.any isLineEndByte)
      else if b < 128 then some (.ok crossed, pos)
      else
        match decodeFirst? (bytes.drop pos) with
        | none => some (.ok crossed, pos)
        | some ch =>
          if isLineBreak ch then triviaFrom rounds (pos + ch.utf8Size) true
          else if isBlank ch then triviaFrom rounds (pos + ch.utf8Size) crossed
          else some (.ok crossed, pos)

def trivia (pos : Nat) : Outcome Bool :=
  triviaFrom bytes (bytes.length + 1) pos false

/-! ## Literals -/

/-- Follow a string opened at `start`; a backslash may take `pos` past the end of the text. -/
def quotedFrom (quote : UInt8) (start : Nat) : Nat → Nat → Outcome Unit
  | 0, _ => none
  | rounds + 1, pos =>
    match bytes[pos]? with
    | none => broken pos
    | some b =>
      if isLineEndByte b then broken pos
      else if b == byte '\\' then
        if bytes[pos + 1]? == some (byte '\r') && bytes[pos + 2]? == some (byte '\n') then
          quotedFrom quote start rounds (pos + 3)
        else quotedFrom quote start rounds (pos + 2)
      else if b == quote then some (.ok (), pos + 1)
      else quotedFrom quote start rounds (pos + 1)
where
  broken (pos : Nat) : Outcome Unit :=
    let stop := min pos bytes.length
    (difference? stop start).bind fun length =>
      some (.error ⟨.unterminatedString, [], ⟨start, length⟩⟩, stop)

def string (quote : UInt8) (pos : Nat) : Outcome Unit :=
  quotedFrom bytes quote pos (bytes.length + 1) (pos + 1)

/-- Follow a regular expression opened at `start` and answer where it ends. -/
def patternFrom (start : Nat) : Nat → Bool → Nat → Option Nat
  | 0, _, _ => none
  | rounds + 1, inClass, pos =>
    match bytes[pos]? with
    | none => some (start + 1)
    | some b =>
      if isLineEndByte b then some (start + 1)
      else if b == byte '\\' then patternFrom start rounds inClass (pos + 2)
      else if b == byte '[' then patternFrom start rounds true (pos + 1)
      else if b == byte ']' then patternFrom start rounds false (pos + 1)
      else if b == byte '/' && !inClass then some (runEnd bytes isNamePart (pos + 1))
      else patternFrom start rounds inClass (pos + 1)

/-- The last place in `bytes` with a byte of the class `p`. -/
def lastIndex? (p : UInt8 → Bool) : List UInt8 → Option Nat
  | [] => none
  | b :: rest =>
    match lastIndex? p rest with
    | some i => some (i + 1)
    | none => if p b then some 0 else none

def runStart (p : UInt8 → Bool) (front : List UInt8) : Nat :=
  match lastIndex? (!p ·) front with
  | none => 0
  | some i => i + 1

/-- Whether a slash after the name that ends with the byte at `last` opens a regular expression. -/
def patternAllowedAfterName (before : List UInt8) (last : Nat) : Option Bool := do
  let front ← slice? before 0 last
  let start := runStart isNamePart front
  let isMember ← if 0 < start then do
      let i ← difference? start 1
      let point ← before[i]?
      some (point == byte '.')
    else some false
  if isMember then some false
  else do
    let word ← slice? before start (last + 1)
    some (startsPatternAfterWord word)

def patternAllowedAt (pos : Nat) : Option Bool := do
  let before ← slice? bytes 0 pos
  match lastIndex? (!isSpacingByte ·) before with
  | none => some true
  | some last => do
      let b ← before[last]?
      if isNamePart b then patternAllowedAfterName before last else some (startsPatternAfter b)

/-- How the literal that starts with the byte at an offset goes on. -/
inductive LiteralStep where
  | absent
  /-- A string or regular expression that ends at `stop`. -/
  | passed (stop : Nat)
  | broken (fault : Fault) (stop : Nat)
  | template

def literalStep (pos : Nat) (b : UInt8) : Option LiteralStep :=
  if isQuote b then
    match string bytes b pos with
    | none => none
    | some (.ok _, stop) => some (.passed stop)
    | some (.error fault, stop) => some (.broken fault stop)
  else if b == byte '\x60' then some .template
  else if b == byte '/' then do
    if ← patternAllowedAt bytes pos then
      let stop ← patternFrom bytes pos (bytes.length + 1) false (pos + 1)
      some (.passed stop)
    else some .absent
  else some .absent

/-- Scan until every construct of the stack has ended. The depth of a block counts its first opener,
and inside a template a backslash may take `pos` past the end of the text. -/
def closeFrom : Nat → List Enclosure → Nat → Outcome Unit
  | 0, _, _ => none
  | _ + 1, [], pos => some (.ok (), pos)
  | rounds + 1, .template start :: outer, pos =>
    match bytes[pos]? with
    | none =>
      (difference? bytes.length start).bind fun length =>
        some (.error ⟨.unterminatedTemplate, [], ⟨start, length⟩⟩, bytes.length)
    | some b =>
      if b == byte '\\' then closeFrom rounds (.template start :: outer) (pos + 2)
      else if b == byte '\x60' then closeFrom rounds outer (pos + 1)
      else if b == byte '$' && bytes[pos + 1]? == some (byte '\x7b') then
        closeFrom rounds
          (.block (byte '\x7b') (byte '\x7d') 1 (pos + 1) :: .template start :: outer) (pos + 2)
      else closeFrom rounds (.template start :: outer) (pos + 1)
  | rounds + 1, .block opener closer depth start :: outer, pos =>
    (trivia bytes pos).andThen fun _ pos =>
      match bytes[pos]? with
      | none => some (.error ⟨.expected, [delimiterText closer], ⟨start, 1⟩⟩, pos)
      | some b =>
        match literalStep bytes pos b with
        | none => none
        | some (.passed stop) => closeFrom rounds (.block opener closer depth start :: outer) stop
        | some (.broken fault stop) => some (.error fault, stop)
        | some .template =>
          closeFrom rounds (.template pos :: .block opener closer depth start :: outer)
            (pos + 1)
        | some .absent =>
          if b == opener then
            closeFrom rounds (.block opener closer (depth + 1) start :: outer) (pos + 1)
          else if b == closer then
            (difference? depth 1).bind fun depth =>
              if depth = 0 then closeFrom rounds outer (pos + 1)
              else closeFrom rounds (.block opener closer depth start :: outer) (pos + 1)
          else closeFrom rounds (.block opener closer depth start :: outer) (pos + 1)

def literal (pos : Nat) (b : UInt8) : Outcome Bool :=
  match literalStep bytes pos b with
  | none => none
  | some .absent => some (.ok false, pos)
  | some (.passed stop) => some (.ok true, stop)
  | some (.broken fault stop) => some (.error fault, stop)
  | some .template =>
    (closeFrom bytes (bytes.length + 1) [.template pos] (pos + 1)).andThen
      fun _ stop => some (.ok true, stop)

def block (opener closer : UInt8) (pos : Nat) : Outcome Range :=
  if bytes[pos]? == some opener then
    (closeFrom bytes (bytes.length + 1) [.block opener closer 1 pos] (pos + 1)).andThen
      fun _ stop => rangeTo? pos stop
  else some (.error (faultAt bytes pos .expected [delimiterText opener]), pos)

/-! ## Stretches -/

/-- Whether a line end before the byte `b` ends the stretch from `start` to `last`. -/
def endsAtLineBreak? (start last : Nat) (crossed : Bool) (b : UInt8) : Option Bool :=
  if crossed && start < last then
    (difference? last 1).bind fun i =>
      (bytes[i]?).bind fun previous =>
        some (!expectsContinuation previous && !continuesExpression b)
  else some false

def boundary? (kind : StretchKind) (start last : Nat) (crossed : Bool) (b : UInt8) :
    Option Boundary :=
  (endsAtLineBreak? bytes start last crossed b).bind fun ends =>
    if ends then some .before
    else if b == byte ';' then
      match kind with
      | .expression => some .before
      | .statement => some .after
    else if b == byte ',' && kind == .expression then some .before
    else if isCloser b then
      if kind == .statement && last == start then some .after else some .before
    else some .inside

def stretchFrom (kind : StretchKind) (start : Nat) : Nat → Nat → Nat → Nat → Outcome Range
  | 0, _, _, _ => none
  | rounds + 1, last, depth, pos =>
    (trivia bytes pos).andThen fun crossed pos =>
      match bytes[pos]? with
      | none => rangeTo? start last
      | some b =>
        match if depth = 0 then boundary? bytes kind start last crossed b else some .inside with
        | none => none
        | some .before => rangeTo? start last
        | some .after => rangeTo? start (pos + 1)
        | some .inside =>
          (literal bytes pos b).andThen fun found stop =>
            if found then stretchFrom kind start rounds stop depth stop
            else if isOpener b then stretchFrom kind start rounds (pos + 1) (depth + 1) (pos + 1)
            else if isCloser b then
              (difference? depth 1).bind fun depth =>
                if depth = 0 && b == byte '\x7d' && kind == .statement then
                  rangeTo? start (pastSemicolon bytes (pos + 1))
                else stretchFrom kind start rounds (pos + 1) depth (pos + 1)
            else if isNamePart b then
              let stop := runEnd bytes isNamePart pos
              stretchFrom kind start rounds stop depth stop
            else
              let stop := pos + stepLength bytes pos
              stretchFrom kind start rounds stop depth stop

def stretch (kind : StretchKind) (pos : Nat) : Outcome Range :=
  stretchFrom bytes kind pos (bytes.length + 1) pos 0 pos

def heritageFrom (start : Nat) : Nat → Nat → Nat → Nat → Outcome Range
  | 0, _, _, _ => none
  | rounds + 1, last, depth, pos =>
    (trivia bytes pos).andThen fun _ pos =>
      match bytes[pos]? with
      | none => some (.error (faultAt bytes pos .expected ["\x7b"]), pos)
      | some b =>
        if depth = 0 && b == byte '\x7b' then
          (rangeTo? start last).andThen fun range _ => some (.ok range, pos)
        else
          (literal bytes pos b).andThen fun found stop =>
            let next := pos + stepLength bytes pos
            if found then heritageFrom start rounds stop depth stop
            else if isOpener b then heritageFrom start rounds next (depth + 1) next
            else if isCloser b then heritageFrom start rounds next (depth - 1) next
            else heritageFrom start rounds next depth next

def heritage (pos : Nat) : Outcome Range :=
  heritageFrom bytes pos (bytes.length + 1) pos 0 pos

/-! ## Matching and reading -/

def startsWith? (text : String) (pos : Nat) : Option Bool := do
  let rest ← slice? bytes pos bytes.length
  some ((bytesOf text).isPrefixOf rest)

def startsWithWord? (word : String) (pos : Nat) : Option Bool := do
  if ← startsWith? bytes word pos then
    some (!(bytes[pos + (bytesOf word).length]?).any isNamePart)
  else some false

def accept (found? : Option Bool) (text : String) (pos : Nat) : Outcome Bool :=
  found?.bind fun found =>
    if found then some (.ok true, pos + (bytesOf text).length) else some (.ok false, pos)

def expect (found? : Option Bool) (text : String) (pos : Nat) : Outcome Unit :=
  (accept found? text pos).andThen fun found stop =>
    if found then some (.ok (), stop) else some (.error (faultAt bytes stop .expected [text]), stop)

def skipShebang (pos : Nat) : Nat :=
  if pos == 0 && (bytesOf "#!").isPrefixOf bytes then lineLength bytes else pos

def skipPast (b : UInt8) (pos : Nat) : Outcome Bool :=
  (slice? bytes pos bytes.length).bind fun rest =>
    let length := (rest.takeWhile (· != b)).length
    if length < rest.length then some (.ok true, pos + (length + 1))
    else some (.ok false, bytes.length)

section Text

variable (text : String)

def name (pos : Nat) : Outcome Name :=
  if ((bytesOf text)[pos]?).any isNameStart then
    let stop := runEnd (bytesOf text) isNamePart (pos + 1)
    (sliceText? text pos stop).bind fun found =>
      some (.ok ⟨found, ⟨pos, stop⟩⟩, stop)
  else some (.error (faultAt (bytesOf text) pos .identifierExpected []), pos)

def quoted (pos : Nat) : Outcome Quoted :=
  match (bytesOf text)[pos]? with
  | none => some (.error (faultAt (bytesOf text) pos .stringExpected []), pos)
  | some quote =>
    if isQuote quote then
      (string (bytesOf text) quote pos).andThen fun _ stop =>
        (difference? stop 1).bind fun last =>
          (sliceText? text (pos + 1) last).bind fun value =>
            some (.ok ⟨value, ⟨pos, stop⟩⟩, stop)
    else some (.error (faultAt (bytesOf text) pos .stringExpected []), pos)

def decimalValue (raw : List UInt8) : Binary64 :=
  Binary64.ofDecimal (Scan.digitsValue (raw.filter isDigitByte))
    (raw.dropWhile isDigitByte).tail.length

def number (pos : Nat) : Outcome NumberToken :=
  let whole := runEnd (bytesOf text) isDigitByte pos
  let stop :=
    if (bytesOf text)[whole]? == some (byte '.') then
      runEnd (bytesOf text) isDigitByte (whole + 1)
    else whole
  (sliceText? text pos stop).bind fun raw =>
    if (bytesOf raw).any isDigitByte then
      some (.ok ⟨decimalValue (bytesOf raw), ⟨pos, stop⟩⟩, stop)
    else some (.error (faultAt (bytesOf text) pos .digitExpected []), pos)

def nextWordFrom : Nat → Nat → Outcome (Option String)
  | 0, _ => none
  | rounds + 1, pos =>
    (trivia (bytesOf text) pos).andThen fun _ pos =>
      match (bytesOf text)[pos]? with
      | none => some (.ok none, pos)
      | some b =>
        (literal (bytesOf text) pos b).andThen fun found next =>
          let stop := runEnd (bytesOf text) isNamePart pos
          if found then nextWordFrom rounds next
          else if isNameStart b then
            (sliceText? text pos stop).bind fun word => some (.ok (some word), stop)
          else if isDigitByte b then nextWordFrom rounds stop
          else nextWordFrom rounds (pos + stepLength (bytesOf text) pos)

def nextWord (pos : Nat) : Outcome (Option String) :=
  nextWordFrom text ((bytesOf text).length + 1) pos

/-! ## Sessions -/

def answer {α : Type} (outcome : Outcome α) (wrap : α → Answer) : Option (Answer × Nat) :=
  match outcome with
  | none => none
  | some (.ok value, stop) => some (wrap value, stop)
  | some (.error fault, stop) => some (.fault fault, stop)

mutual

def run : Command → Nat → Option (Answer × Nat)
  | .moveTo target, _ => some (.done, min target (bytesOf text).length)
  | .isAtEnd, pos => some (.flag ((bytesOf text).length ≤ pos), pos)
  | .character, pos => some (.character (decodeFirst? ((bytesOf text).drop pos)), pos)
  | .characterAt offset, pos =>
    some (.character (decodeFirst? ((bytesOf text).drop (pos + offset))), pos)
  | .remaining, pos => some (.text ((sliceText? text pos text.utf8ByteSize).getD ""), pos)
  | .wholeText, pos => some (.text text, pos)
  | .textOfRange range, pos => some (.text (range.slice text), pos)
  | .faultHere message args, pos =>
    some (.fault (faultAt (bytesOf text) pos message args), pos)
  | .lookAhead commands, pos => do
      let (steps, _) ← runAll commands pos
      some (.steps steps, pos)
  | .skipShebang, pos => some (.done, skipShebang (bytesOf text) pos)
  | .space, pos => answer (trivia (bytesOf text) pos) fun _ => .done
  | .trivia, pos => answer (trivia (bytesOf text) pos) .flag
  | .peek lit, pos => do
      let found ← startsWith? (bytesOf text) lit pos
      some (.flag found, pos)
  | .accept lit, pos => answer (accept (startsWith? (bytesOf text) lit pos) lit pos) .flag
  | .peekWord word, pos => do
      let found ← startsWithWord? (bytesOf text) word pos
      some (.flag found, pos)
  | .acceptWord word, pos =>
    answer (accept (startsWithWord? (bytesOf text) word pos) word pos) .flag
  | .acceptKeyword none, pos => some (.flag false, pos)
  | .acceptKeyword (some keyword), pos =>
    answer (accept (startsWithWord? (bytesOf text) keyword.text pos) keyword.text pos) .flag
  | .expect lit, pos =>
    answer (expect (bytesOf text) (startsWith? (bytesOf text) lit pos) lit pos) fun _ => .done
  | .expectWord word, pos =>
    answer (expect (bytesOf text) (startsWithWord? (bytesOf text) word pos) word pos)
      fun _ => .done
  | .atName, pos => some (.flag (((bytesOf text)[pos]?).any isNameStart), pos)
  | .skipPast b, pos => answer (skipPast (bytesOf text) b pos) .flag
  | .name, pos => answer (name text pos) .name
  | .quoted, pos => answer (quoted text pos) .quoted
  | .number, pos => answer (number text pos) .number
  | .block opener closer, pos => answer (block (bytesOf text) opener closer pos) .range
  | .parentheses, pos => answer (block (bytesOf text) (byte '(') (byte ')') pos) .range
  | .expression, pos => answer (stretch (bytesOf text) .expression pos) .range
  | .statement, pos => answer (stretch (bytesOf text) .statement pos) .range
  | .heritage, pos => answer (heritage (bytesOf text) pos) .range
  | .nextWord, pos => answer (nextWord text pos) .word

def runAll : List Command → Nat → Option (List (Answer × Nat) × Nat)
  | [], pos => some ([], pos)
  | command :: rest, pos => do
      let (answer, stop) ← run command pos
      let (answers, last) ← runAll rest stop
      some ((answer, stop) :: answers, last)

end

/-- The answers of a session on `text`; nothing if any command reached out of range. -/
def session (commands : List Command) : Option (List (Answer × Nat)) := do
  let (answers, _) ← runAll text commands 0
  some answers

end Text

end Indexed

end ModuleBridge
