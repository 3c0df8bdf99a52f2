import ModuleBridge.Source.Enclosure

/-!
# Words of code

Names, strings and numbers read off the cursor, and the walk over the words of a piece of code that
decides whether it awaits at its top level.
-/

namespace ModuleBridge

/-- Find the next word outside strings, templates, regular expressions and comments. -/
def nextWordFrom (c : Cursor) : EStateM.Result Fault Cursor (Option String) :=
  match triviaReach c.after with
  | .unclosed length =>
    let d := c.advance length
    .error ⟨.commentEndExpected, [], ⟨d.pos, 2⟩⟩ d
  | .clear length _ =>
    let d := c.advance length
    match _ : d.after with
    | [] => .ok none d
    | b :: rest =>
      match _ : Scan.literal d with
      | .error fault e => .error fault e
      | .ok true e => nextWordFrom e
      | .ok false _ =>
        let e := d.advance ((rest.takeWhile isNamePart).length + 1)
        if isNameStart b then .ok (some (d.textUpTo e)) e
        else if isDigitByte b then nextWordFrom e
        else nextWordFrom (d.advance d.stepLength)
termination_by c.after.length
decreasing_by
  all_goals
    refine Nat.lt_of_lt_of_le ?_ (Cursor.advance_le c length)
    first
      | exact Scan.literal_lt ‹_›
      | exact Cursor.advance_lt (by omega) ‹_›
      | exact Cursor.advance_lt (Cursor.stepLength_pos _) ‹_›

theorem nextWordFrom_lt {c d : Cursor} {word : String} (h : nextWordFrom c = .ok (some word) d) :
    d.after.length < c.after.length := by
  fun_induction nextWordFrom c with
  | case1 | case2 | case3 => cases h
  | case4 =>
    rename_i hl ih
    exact Nat.lt_trans (ih h) (Nat.lt_of_lt_of_le (Scan.literal_lt hl) (Cursor.advance_le _ _))
  | case5 =>
    injection h with _ hd
    rw [← hd]
    exact Nat.lt_of_lt_of_le (Cursor.advance_lt (by omega) ‹_›) (Cursor.advance_le _ _)
  | case6 | case7 =>
    rename_i ih
    exact Nat.lt_of_lt_of_le (ih h) (Nat.le_trans (Cursor.advance_le _ _) (Cursor.advance_le _ _))

/-- Whether the word `await` comes before any word `async`. Code that cannot be scanned to that
point does not await. -/
def awaitsFrom (c : Cursor) : Bool :=
  match _ : nextWordFrom c with
  | .ok (some word) d =>
    if word = "await" then true
    else if word = "async" then false
    else awaitsFrom d
  | _ => false
termination_by c.after.length
decreasing_by exact nextWordFrom_lt ‹_›

/-- Whether `code` awaits outside any async function. -/
def awaitsAtTopLevel (code : String) : Bool :=
  awaitsFrom (Cursor.ofText code)

namespace Scan

def nextWord : Scan (Option String) :=
  nextWordFrom

end Scan

end ModuleBridge
