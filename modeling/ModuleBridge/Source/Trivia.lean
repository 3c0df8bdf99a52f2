import ModuleBridge.Source.Cursor

/-!
# Trivia

Blanks, line ends and comments between tokens. `triviaItem` recognises one item at the front of a
byte list and `triviaReach` counts how far the items reach. A line comment leaves its line end in
place; a line end inside a block comment counts as crossed.
-/

namespace ModuleBridge

inductive TriviaItem where
  | nothing
  | item (more : Nat) (breaksLine : Bool)
  | unclosedComment
deriving DecidableEq, Repr

/-- The bytes up to the next line feed or carriage return. -/
def lineLength (bytes : List UInt8) : Nat :=
  (bytes.takeWhile (!isLineEndByte ·)).length

/-- Find the end of a block comment's body: its length, and whether it holds a line end. -/
def commentBody : List UInt8 → Nat → Bool → Option (Nat × Bool)
  | [], _, _ => none
  | [_], _, _ => none
  | a :: b :: rest, length, breaksLine =>
    if a == byte '*' && b == byte '/' then some (length, breaksLine)
    else commentBody (b :: rest) (length + 1) (breaksLine || isLineEndByte a)

def triviaItem : List UInt8 → TriviaItem
  | [] => .nothing
  | b :: rest =>
    if isBlankByte b then .item 0 false
    else if isLineEndByte b then .item 0 true
    else if b == byte '/' then
      match rest with
      | [] => .nothing
      | d :: body =>
        if d == byte '/' then .item (1 + lineLength body) false
        else if d == byte '*' then
          match commentBody body 0 false with
          | some (length, breaksLine) => .item (length + 3) breaksLine
          | none => .unclosedComment
        else .nothing
    else if b < 128 then .nothing
    else
      match decodeFirst? (b :: rest) with
      | none => .nothing
      | some ch =>
        if isLineBreak ch then .item (ch.utf8Size - 1) true
        else if isBlank ch then .item (ch.utf8Size - 1) false
        else .nothing

/-- How far a run of trivia items reaches. -/
inductive TriviaReach where
  /-- `length` bytes of trivia, and whether a line end is among them. -/
  | clear (length : Nat) (crossesLine : Bool)
  /-- After `length` bytes of trivia stands a block comment without end. -/
  | unclosed (length : Nat)
deriving DecidableEq, Repr

/-- Continue a run of trivia that has taken `length` bytes. -/
def triviaReachFrom (bytes : List UInt8) (length : Nat) (crossesLine : Bool) : TriviaReach :=
  match bytes with
  | [] => .clear length crossesLine
  | b :: rest =>
    match triviaItem (b :: rest) with
    | .nothing => .clear length crossesLine
    | .unclosedComment => .unclosed length
    | .item more breaksLine =>
      triviaReachFrom (rest.drop more) (length + more + 1) (crossesLine || breaksLine)
termination_by bytes.length
decreasing_by
  simp only [List.length_drop, List.length_cons]
  omega

/-- The longest run of trivia at the front of `bytes`. -/
def triviaReach (bytes : List UInt8) : TriviaReach :=
  triviaReachFrom bytes 0 false

end ModuleBridge
