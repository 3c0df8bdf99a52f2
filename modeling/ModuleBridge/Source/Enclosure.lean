import ModuleBridge.Source.Scan

/-!
# Enclosures

Blocks and template literals enclose code and may hold one another to any depth: a block ends at
its matching closer, a template at its backtick, and a template's substitution is a brace block.
The constructs that are still open form a stack, innermost first; `closeEnclosures` scans until the
stack is empty.
-/

namespace ModuleBridge

/-- A construct whose end has not been found yet. -/
inductive Enclosure where
  /-- A block opened at `start`, with `depth + 1` of its openers not yet closed. -/
  | block (opener closer : UInt8) (depth start : Nat)
  | template (start : Nat)
deriving DecidableEq, Repr

/-- The literal that starts with byte `b` at the cursor. -/
inductive LiteralStart where
  | none
  /-- A string or regular expression of `more + 1` bytes. -/
  | span (more : Nat)
  /-- A string that breaks off after `more + 1` bytes. -/
  | broken (more : Nat)
  | template
deriving DecidableEq, Repr

/-- Recognise the literal at a cursor whose next bytes are `b :: rest`. A slash that opens no
regular expression on its line is a division and is passed alone. -/
def literalStart (before : List UInt8) (b : UInt8) (rest : List UInt8) : LiteralStart :=
  if isQuote b then
    match quotedReach b rest 0 with
    | .closed length => .span length
    | .broken length => .broken length
  else if b == byte '\x60' then .template
  else if b == byte '/' && patternAllowedAfter before then
    .span ((patternReach false rest 0).getD 0)
  else .none

def delimiterText (b : UInt8) : String :=
  if isOpener b || isCloser b then textOf [b] else "?"

/-- The fault of a string that is opened at `c` and breaks off at `d`. -/
def unterminatedString (c d : Cursor) : Fault :=
  ⟨.unterminatedString, [], (c.rangeTo d).toSpan⟩

/-- What is open after the byte `b` of code inside a block. -/
def blockAfter (opener closer : UInt8) (depth start : Nat) (outer : List Enclosure) (b : UInt8) :
    List Enclosure :=
  if b == opener then .block opener closer (depth + 1) start :: outer
  else if b == closer then
    match depth with
    | 0 => outer
    | less + 1 => .block opener closer less start :: outer
  else .block opener closer depth start :: outer

/-- Scan until every construct of the stack has ended. -/
def closeEnclosures (stack : List Enclosure) (c : Cursor) : EStateM.Result Fault Cursor Unit :=
  match stack with
  | [] => .ok () c
  | .template start :: outer =>
    match _ : c.after with
    | [] => .error ⟨.unterminatedTemplate, [], ⟨start, c.pos - start⟩⟩ c
    | b :: rest =>
      if b == byte '\\' then closeEnclosures stack (c.advance 2)
      else if b == byte '\x60' then closeEnclosures outer (c.advance 1)
      else if b == byte '$' && rest.head? == some (byte '\x7b') then
        closeEnclosures (.block (byte '\x7b') (byte '\x7d') 0 (c.pos + 1) :: stack)
          (c.advance 2)
      else closeEnclosures stack (c.advance 1)
  | .block opener closer depth start :: outer =>
    match triviaReach c.after with
    | .unclosed length =>
      let d := c.advance length
      .error ⟨.commentEndExpected, [], ⟨d.pos, 2⟩⟩ d
    | .clear length _ =>
      let d := c.advance length
      match _ : d.after with
      | [] => .error ⟨.expected, [delimiterText closer], ⟨start, 1⟩⟩ d
      | b :: rest =>
        match literalStart d.before b rest with
        | .span more => closeEnclosures stack (d.advance (more + 1))
        | .broken more =>
          let e := d.advance (more + 1)
          .error (unterminatedString d e) e
        | .template => closeEnclosures (.template d.pos :: stack) (d.advance 1)
        | .none => closeEnclosures (blockAfter opener closer depth start outer b) (d.advance 1)
termination_by c.after.length
decreasing_by
  all_goals first
    | exact Cursor.advance_lt (by omega) ‹_›
    | exact Nat.lt_of_lt_of_le (Cursor.advance_lt (by omega) ‹_›) (Cursor.advance_le _ _)

theorem closeEnclosures_le {stack : List Enclosure} {c d : Cursor}
    (h : closeEnclosures stack c = .ok () d) : d.after.length ≤ c.after.length := by
  fun_induction closeEnclosures stack c with
  | case1 => cases h; exact Nat.le_refl _
  | case2 | case7 | case8 | case10 => cases h
  | case3 | case4 | case5 | case6 =>
    rename_i ih
    exact Nat.le_trans (ih h) (Cursor.advance_le _ _)
  | case9 | case11 | case12 =>
    rename_i ih
    exact Nat.le_trans (ih h) (Nat.le_trans (Cursor.advance_le _ _) (Cursor.advance_le _ _))

namespace Scan

/-- Pass the string, template or regular expression at the cursor, and tell whether there was
one. -/
def literal : Scan Bool := fun c =>
  match c.after with
  | [] => .ok false c
  | b :: rest =>
    match literalStart c.before b rest with
    | .none => .ok false c
    | .span more => .ok true (c.advance (more + 1))
    | .broken more =>
      let d := c.advance (more + 1)
      .error (unterminatedString c d) d
    | .template =>
      match closeEnclosures [.template c.pos] (c.advance 1) with
      | .ok _ d => .ok true d
      | .error fault d => .error fault d

theorem literal_lt {c d : Cursor} (h : literal c = .ok true d) :
    d.after.length < c.after.length := by
  unfold literal at h
  split at h
  · simp at h
  · rename_i b rest hc
    split at h
    · simp at h
    · cases h
      exact Cursor.advance_lt (by omega) hc
    · simp at h
    · split at h
      · rename_i e he
        cases h
        exact Nat.lt_of_le_of_lt (closeEnclosures_le he) (Cursor.advance_lt (by omega) hc)
      · simp at h

/-- Pass the block that opens with `opener` at the cursor, up to its matching `closer`. -/
def block (opener closer : UInt8) : Scan Range := fun c =>
  if c.byte? == some opener then
    match closeEnclosures [.block opener closer 0 c.pos] (c.advance 1) with
    | .ok _ d => .ok (c.rangeTo d) d
    | .error fault d => .error fault d
  else .error (c.fault .expected [delimiterText opener]) c

def braces : Scan Range :=
  block (byte '\x7b') (byte '\x7d')

def brackets : Scan Range :=
  block (byte '[') (byte ']')

def parentheses : Scan Range :=
  block (byte '(') (byte ')')

end Scan

end ModuleBridge
