import ModuleBridge.Source.Enclosure

/-!
# Stretches of code

Code that is not taken apart is passed as a stretch: an expression, a whole statement, or the part
of a class head before its body. A stretch ends at the right bracket depth only; strings,
templates, regular expressions and comments are passed as units. Trailing trivia is never part of a
stretch.
-/

namespace ModuleBridge

inductive StretchKind where
  /-- An initial value or a default-exported value: ends before a `,` or `;`. -/
  | expression
  /-- A statement: takes a closing `;` along, or ends after a block. -/
  | statement
deriving DecidableEq, Repr

/-- What a byte outside all brackets means for the stretch before it. -/
inductive Boundary where
  /-- The stretch ends before the byte. -/
  | before
  /-- The byte is the last of the stretch. -/
  | after
  | inside
deriving DecidableEq, Repr

/-- Whether a line end between the stretch that ends at `last` and the byte `b` ends it: neither
side may ask for a continuation. -/
def endsAtLineBreak (last : Cursor) (b : UInt8) : Bool :=
  !last.before.head?.any expectsContinuation && !continuesExpression b

/-- Judge byte `b` outside all brackets, for a stretch that goes from `start` to `last` so far. -/
def StretchKind.boundary (kind : StretchKind) (start last : Cursor) (crossesLine : Bool)
    (b : UInt8) : Boundary :=
  if crossesLine && start.pos < last.pos && endsAtLineBreak last b then .before
  else if b == byte ';' then
    match kind with
    | .expression => .before
    | .statement => .after
  else if b == byte ',' && kind == .expression then .before
  else if isCloser b then
    if kind == .statement && last.pos == start.pos then .after else .before
  else .inside

/-- Pass a `;` that follows on the same line. -/
def Cursor.pastSemicolon (c : Cursor) : Cursor :=
  let blanks := (c.after.takeWhile fun b => b == byte ' ' || b == byte '\t').length
  if (c.after.drop blanks).head? == some (byte ';') then c.advance (blanks + 1) else c

/-- Continue a stretch that began at `start` and whose last token ended at `last`; `depth` counts
the open brackets. -/
def stretchFrom (kind : StretchKind) (start last : Cursor) (depth : Nat) (c : Cursor) :
    EStateM.Result Fault Cursor Range :=
  match triviaReach c.after with
  | .unclosed length =>
    let d := c.advance length
    .error ⟨.commentEndExpected, [], ⟨d.pos, 2⟩⟩ d
  | .clear length crossesLine =>
    let d := c.advance length
    match _ : d.after with
    | [] => .ok (start.rangeTo last) last
    | b :: rest =>
      match if depth = 0 then kind.boundary start last crossesLine b else .inside with
      | .before => .ok (start.rangeTo last) last
      | .after =>
        let e := d.advance 1
        .ok (start.rangeTo e) e
      | .inside =>
        match _ : Scan.literal d with
        | .error fault e => .error fault e
        | .ok true e => stretchFrom kind start e depth e
        | .ok false _ =>
          if isOpener b then
            let e := d.advance 1
            stretchFrom kind start e (depth + 1) e
          else if isCloser b then
            let e := d.advance 1
            if depth = 1 && b == byte '\x7d' && kind == .statement then
              let f := e.pastSemicolon
              .ok (start.rangeTo f) f
            else stretchFrom kind start e (depth - 1) e
          else if isNamePart b then
            let e := d.advance ((rest.takeWhile isNamePart).length + 1)
            stretchFrom kind start e depth e
          else
            let e := d.advance d.stepLength
            stretchFrom kind start e depth e
termination_by c.after.length
decreasing_by
  all_goals
    refine Nat.lt_of_lt_of_le ?_ (Cursor.advance_le c length)
    first
      | exact Scan.literal_lt ‹_›
      | exact Cursor.advance_lt (by omega) ‹_›
      | exact Cursor.advance_lt (Cursor.stepLength_pos _) ‹_›

/-- Continue the head of a class up to the opening brace of its body. -/
def heritageFrom (start last : Cursor) (depth : Nat) (c : Cursor) :
    EStateM.Result Fault Cursor Range :=
  match triviaReach c.after with
  | .unclosed length =>
    let d := c.advance length
    .error ⟨.commentEndExpected, [], ⟨d.pos, 2⟩⟩ d
  | .clear length _ =>
    let d := c.advance length
    match _ : d.after with
    | [] => .error (d.fault .expected ["\x7b"]) d
    | b :: _ =>
      if depth = 0 && b == byte '\x7b' then .ok (start.rangeTo last) d
      else
        match _ : Scan.literal d with
        | .error fault e => .error fault e
        | .ok true e => heritageFrom start e depth e
        | .ok false _ =>
          let e := d.advance d.stepLength
          if isOpener b then heritageFrom start e (depth + 1) e
          else if isCloser b then heritageFrom start e (depth - 1) e
          else heritageFrom start e depth e
termination_by c.after.length
decreasing_by
  all_goals
    refine Nat.lt_of_lt_of_le ?_ (Cursor.advance_le c length)
    first
      | exact Scan.literal_lt ‹_›
      | exact Cursor.advance_lt (Cursor.stepLength_pos _) ‹_›

namespace Scan

/-- Pass an expression: up to a `;` or `,`, an unmatched closer, the end of the text, or a line end
that ends it. The cursor is left at the end of the expression. -/
def expression : Scan Range := fun c =>
  stretchFrom .expression c c 0 c

/-- Pass a statement: through the next `;`, through the end of a block, or up to a line end that
ends it. A closer that nothing opened is a statement of its own. -/
def statement : Scan Range := fun c =>
  stretchFrom .statement c c 0 c

/-- Pass what a class extends and leave the cursor at the brace that opens the class body. -/
def heritage : Scan Range := fun c =>
  heritageFrom c c 0 c

end Scan

end ModuleBridge
