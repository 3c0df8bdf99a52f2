import ModuleBridge.Proofs.Grammar.Onward
import ModuleBridge.Proofs.Source.IndexedToken

/-!
# Safety of scanning sessions

Along every session the cursor stays in the text and between two characters, only a move to a given
offset takes it back, and the same session run by offsets never reaches out of range. A session may
ask for anything but an offset inside a character, or a byte above the ASCII range.
-/

namespace ModuleBridge

open Cursor Indexed List

/-- The offset lies in the text and between two characters. -/
structure InText (text : String) (pos : Nat) : Prop where
  le_size : pos ≤ text.utf8ByteSize
  boundary : String.Pos.Raw.IsValid text ⟨pos⟩

namespace Command

mutual

/-- What the arguments of a command on `text` have to be. -/
def Allowed (text : String) : Command → Prop
  | .moveTo target => String.Pos.Raw.IsValid text ⟨target⟩ ∨ text.utf8ByteSize ≤ target
  | .skipPast b => b < 128
  | .block opener closer => opener < 128 ∧ closer < 128
  | .lookAhead commands => AllAllowed text commands
  | _ => True

def AllAllowed (text : String) : List Command → Prop
  | [] => True
  | command :: rest => command.Allowed text ∧ AllAllowed text rest

end

mutual

/-- What a command that starts at `pos`, answers `answer` and ends at `stop` does to the offset. -/
def Orderly (text : String) : Command → Nat → Answer → Nat → Prop
  | .moveTo target, _, _, stop => InText text stop ∧ stop = min target text.utf8ByteSize
  | .lookAhead commands, pos, answer, stop =>
    InText text stop ∧ stop = pos ∧
      ∃ steps, answer = .steps steps ∧ AllOrderly text commands pos steps
  | _, pos, _, stop => InText text stop ∧ pos ≤ stop

/-- What commands that start at `pos` do to the offset, step by step. -/
def AllOrderly (text : String) : List Command → Nat → List (Answer × Nat) → Prop
  | [], _, steps => steps = []
  | command :: rest, pos, steps =>
    ∃ answer stop more, steps = (answer, stop) :: more ∧ command.Orderly text pos answer stop ∧
      AllOrderly text rest stop more

end

end Command

/-! ## Single commands -/

/-- The cursor belongs to `text` and lies between two characters. -/
structure Cursor.On (c : Cursor) (text : String) : Prop where
  bytes_eq : c.bytes = bytesOf text
  boundary : c.IsBoundary

namespace Cursor.On

variable {text : String} {c d : Cursor}

theorem inText (h : c.On text) : InText text c.pos := by
  refine ⟨?_, h.boundary.isValid h.bytes_eq⟩
  have hle := c.pos_le_length
  rwa [h.bytes_eq, length_bytesOf] at hle

theorem onward (h : c.On text) (honward : c.Onward d) : d.On text :=
  ⟨honward.bytes_eq.trans h.bytes_eq, honward.boundary h.boundary⟩

theorem moveTo (h : c.On text) {target : Nat}
    (htarget : String.Pos.Raw.IsValid text ⟨target⟩ ∨ text.utf8ByteSize ≤ target) :
    (c.moveTo target).On text ∧ (c.moveTo target).pos = min target text.utf8ByteSize := by
  have hbytes : (atStart c.bytes).after = bytesOf text := h.bytes_eq
  have hstart : (atStart c.bytes).IsBoundary := by
    rw [h.bytes_eq]
    exact isBoundary_ofText text
  refine ⟨⟨?_, ?_⟩, ?_⟩
  · rw [Cursor.moveTo, bytes_advance, ← h.bytes_eq]
    rfl
  · cases htarget with
    | inr hend => exact hstart.advance_end (by rwa [hbytes, length_bytesOf])
    | inl hvalid =>
      obtain ⟨front, back, htext, hlength⟩ := String.Pos.Raw.isValid_iff_exists_append.mp hvalid
      have hsize : target = (bytesOf front).length := by
        rw [length_bytesOf]
        exact congrArg String.Pos.Raw.byteIdx hlength
      refine hstart.of_cut front back ?_ ?_
      · rw [hbytes, htext, bytesOf_append, hsize, take_left]
      · rw [hbytes, htext, bytesOf_append, hsize, drop_left]
  · rw [Cursor.moveTo, pos_advance, hbytes, length_bytesOf]
    exact Nat.zero_add _

theorem isAtEnd_eq (h : c.On text) : decide ((bytesOf text).length ≤ c.pos) = c.isAtEnd := by
  have hlength := c.length_bytes
  rw [← h.bytes_eq, Cursor.isAtEnd]
  cases hafter : c.after with
  | nil => simp [hlength, hafter]
  | cons b rest => simp [hlength, hafter]

theorem remaining_eq (h : c.On text) :
    sliceText? text c.pos text.utf8ByteSize = some (textOf c.after) := by
  have hend : c.Onward (c.advance c.after.length) :=
    .of_advance fun hbound => hbound.advance_end (Nat.le_refl _)
  have hslice := sliceText?_eq h.bytes_eq h.boundary hend
  have hlength := c.length_bytes
  rw [h.bytes_eq, length_bytesOf] at hlength
  rwa [pos_advance_of_le (Nat.le_refl _), ← hlength, textUpTo_advance, take_length] at hslice

end Cursor.On

namespace Indexed

/-- Trivia is passed alike whether the answer is asked for or not. -/
theorem space_eq (c : Cursor) :
    ((trivia c.bytes c.pos).andThen fun _ stop => some (.ok (), stop)) =
      observe (Scan.space c) := by
  rw [trivia_eq]
  change _ = observe (EStateM.bind Scan.trivia (fun _ => Pure.pure ()) c)
  unfold EStateM.bind
  cases Scan.trivia c <;> rfl

theorem answer_andThen {α : Type} (outcome : Outcome α) (found : Answer) :
    answer (outcome.andThen fun _ stop => some (.ok (), stop)) (fun _ => found) =
      answer outcome fun _ => found := by
  rcases outcome with _ | ⟨_ | _, _⟩ <;> rfl

end Indexed

/-- A command runs alike by offset and by cursor, and keeps the cursor in order. -/
structure Command.RunsSafely (text : String) (command : Command) (c : Cursor) : Prop where
  inRange : Indexed.run text command c.pos = some ((command.run c).1, (command.run c).2.pos)
  on : (command.run c).2.On text
  orderly : command.Orderly text c.pos (command.run c).1 (command.run c).2.pos

namespace Command.RunsSafely

open Scan

variable {text : String} {c : Cursor} {command : Command}

theorem of_ask {answer : Answer} (hc : c.On text) (hrun : command.run c = (answer, c))
    (hindexed : Indexed.run text command c.pos = some (answer, c.pos))
    (horderly : ∀ stop, InText text stop ∧ c.pos ≤ stop →
      command.Orderly text c.pos answer stop) :
    command.RunsSafely text c := by
  constructor
  · rw [hindexed, hrun]
  · rwa [hrun]
  · rw [hrun]
    exact horderly c.pos ⟨hc.inText, Nat.le_refl _⟩

/-- A command that runs an operation which moves onward, whether it succeeds or fails. -/
theorem of_scan {α : Type} {op : Scan α} {wrap : α → Answer} {outcome : Outcome α} (hc : c.On text)
    (hrun : command.run c = op.answer wrap c)
    (hindexed : Indexed.run text command c.pos = Indexed.answer outcome wrap)
    (horderly : ∀ answer stop, InText text stop ∧ c.pos ≤ stop →
      command.Orderly text c.pos answer stop)
    [hstays : op.StaysInText] (heq : outcome = observe (op c)) : command.RunsSafely text c := by
  have honward : c.Onward (op.answer wrap c).2 := by
    rw [Scan.answer]
    cases h : op c with
    | ok value d => exact hstays.onward h
    | error fault d => exact (hstays.fails h).onward
  constructor
  · rw [hindexed, hrun, heq, Scan.answer]
    cases op c <;> rfl
  · rw [hrun]
    exact hc.onward honward
  · rw [hrun]
    exact horderly _ _ ⟨(hc.onward honward).inText, honward.pos_le⟩

/-- Every command but a look ahead. -/
theorem of_allowed (hc : c.On text) (hallowed : command.Allowed text)
    (hahead : ∀ commands, command ≠ .lookAhead commands) : command.RunsSafely text c := by
  have hbytes := hc.bytes_eq
  cases command with
  | lookAhead commands => exact absurd rfl (hahead commands)
  | moveTo target =>
    obtain ⟨hon, hpos⟩ := hc.moveTo hallowed
    refine ⟨?_, hon, hon.inText, hpos⟩
    simp only [Indexed.run, Command.run, hpos, length_bytesOf]
  | isAtEnd =>
    refine .of_ask hc rfl ?_ fun _ => id
    simp only [Indexed.run, hc.isAtEnd_eq]
  | character =>
    refine .of_ask hc rfl ?_ fun _ => id
    simp only [Indexed.run, ← hbytes, c.drop_bytes]
    rfl
  | characterAt offset =>
    refine .of_ask hc rfl ?_ fun _ => id
    simp only [Indexed.run, ← hbytes, ← drop_drop, c.drop_bytes]
    rfl
  | remaining =>
    refine .of_ask hc rfl ?_ fun _ => id
    simp only [Indexed.run, hc.remaining_eq, Option.getD_some]
  | wholeText =>
    refine .of_ask hc rfl ?_ fun _ => id
    simp only [Indexed.run, hbytes, textOf_bytesOf]
  | textOfRange range =>
    refine .of_ask hc rfl ?_ fun _ => id
    simp only [Indexed.run, hbytes, textOf_bytesOf]
  | faultHere message args =>
    refine .of_ask hc rfl ?_ fun _ => id
    simp only [Indexed.run, ← hbytes, faultAt_eq]
  | peek lit =>
    refine .of_ask hc rfl ?_ fun _ => id
    simp only [Indexed.run, ← hbytes, startsWith?_eq]
    rfl
  | peekWord word =>
    refine .of_ask hc rfl ?_ fun _ => id
    simp only [Indexed.run, ← hbytes, startsWithWord?_eq]
    rfl
  | atName =>
    refine .of_ask hc rfl ?_ fun _ => id
    simp only [Indexed.run, ← hbytes, c.getElem?_bytes_pos]
    rfl
  | skipShebang =>
    have hrun : Command.skipShebang.run c = Scan.skipShebang.answer (fun _ => .done) c := rfl
    have hshebang : Indexed.run text .skipShebang c.pos =
        Indexed.answer (some (.ok (), Indexed.skipShebang (bytesOf text) c.pos)) fun _ => .done :=
      rfl
    refine of_scan hc hrun hshebang (fun _ _ => id) ?_
    rw [← hbytes, Indexed.skipShebang_eq]
  | space =>
    have hspace : Indexed.run text .space c.pos = _ :=
      (answer_andThen (Indexed.trivia (bytesOf text) c.pos) .done).symm
    refine of_scan hc rfl hspace (fun _ _ => id) ?_
    rw [← hbytes]
    exact Indexed.space_eq c
  | trivia =>
    refine of_scan hc rfl rfl (fun _ _ => id) ?_
    rw [← hbytes]
    exact trivia_eq c
  | accept lit =>
    refine of_scan hc rfl rfl (fun _ _ => id) ?_
    rw [← hbytes]
    exact accept_eq c lit
  | acceptWord word =>
    refine of_scan hc rfl rfl (fun _ _ => id) ?_
    rw [← hbytes]
    exact acceptWord_eq c word
  | acceptKeyword keyword =>
    cases keyword with
    | none => exact .of_ask hc rfl rfl fun _ => id
    | some keyword =>
      refine of_scan hc rfl rfl (fun _ _ => id) ?_
      rw [← hbytes]
      exact acceptWord_eq c keyword.text
  | expect lit =>
    refine of_scan hc rfl rfl (fun _ _ => id) ?_
    rw [← hbytes]
    exact expect_eq (accept_eq c lit) fun _ _ h => (accept_onward lit h).bytes_eq
  | expectWord word =>
    refine of_scan hc rfl rfl (fun _ _ => id) ?_
    rw [← hbytes]
    exact expect_eq (acceptWord_eq c word) fun _ _ h =>
      (acceptWord_onward word h).bytes_eq
  | skipPast b =>
    have hrun : (Command.skipPast b).run c = (Scan.skipPast b).answer .flag c := rfl
    have := skipPast_inText hallowed
    refine of_scan hc hrun rfl (fun _ _ => id) ?_
    rw [← hbytes]
    exact skipPast_eq c b
  | name =>
    exact of_scan hc rfl rfl (fun _ _ => id) (name_eq hbytes hc.boundary)
  | quoted =>
    exact of_scan hc rfl rfl (fun _ _ => id) (quoted_eq hbytes hc.boundary)
  | number =>
    exact of_scan hc rfl rfl (fun _ _ => id) (number_eq hbytes hc.boundary)
  | block opener closer =>
    have := block_inText hallowed.1 hallowed.2
    refine of_scan hc rfl rfl (fun _ _ => id) ?_
    rw [← hbytes]
    exact block_eq opener closer c
  | parentheses =>
    have : Scan.parentheses.StaysInText := block_inText (by decide) (by decide)
    refine of_scan hc rfl rfl (fun _ _ => id) ?_
    rw [← hbytes]
    exact block_eq _ _ c
  | expression =>
    refine of_scan hc rfl rfl (fun _ _ => id) ?_
    rw [← hbytes]
    exact stretch_eq .expression c
  | statement =>
    refine of_scan hc rfl rfl (fun _ _ => id) ?_
    rw [← hbytes]
    exact stretch_eq .statement c
  | heritage =>
    refine of_scan hc rfl rfl (fun _ _ => id) ?_
    rw [← hbytes]
    exact heritage_eq c
  | nextWord =>
    exact of_scan hc rfl rfl (fun _ _ => id) (nextWord_eq hbytes hc.boundary)

end Command.RunsSafely

/-! ## Sessions -/

namespace Command

mutual

theorem runsSafely {text : String} (command : Command) {c : Cursor} (hc : c.On text)
    (hallowed : command.Allowed text) : command.RunsSafely text c := by
  cases command with
  | lookAhead commands =>
    obtain ⟨hrange, _, horderly⟩ := runAll_safe commands hc hallowed
    refine ⟨?_, hc, hc.inText, rfl, _, rfl, horderly⟩
    simp only [Indexed.run, hrange, Option.bind_eq_bind, Option.bind_some]
    rfl
  | _ => exact .of_allowed hc hallowed (by simp)

/-- Commands run alike by offset and by cursor, and each keeps the cursor in order. -/
theorem runAll_safe {text : String} (commands : List Command) {c : Cursor} (hc : c.On text)
    (hallowed : AllAllowed text commands) :
    Indexed.runAll text commands c.pos =
        some ((runAll commands c).1, (runAll commands c).2.pos) ∧
      (runAll commands c).2.On text ∧ AllOrderly text commands c.pos (runAll commands c).1 := by
  cases commands with
  | nil => exact ⟨rfl, hc, rfl⟩
  | cons command rest =>
    have hfirst := runsSafely command hc hallowed.1
    obtain ⟨hrange, hon, horderly⟩ := runAll_safe rest hfirst.on hallowed.2
    refine ⟨?_, hon, _, _, _, rfl, hfirst.orderly, horderly⟩
    simp only [Indexed.runAll, hfirst.inRange, hrange, Option.bind_eq_bind, Option.bind_some]
    rfl

end

end Command

/-- Every session with allowed arguments comes to the same answers by offsets, where nothing may
reach out of range, and keeps its offset in order at each step. -/
theorem runSession_inRange {text : String} {commands : List Command}
    (h : Command.AllAllowed text commands) :
    session text commands = some (runSession text commands) ∧
      Command.AllOrderly text commands 0 (runSession text commands) := by
  have hstart : (ofText text).On text := ⟨rfl, Cursor.isBoundary_ofText text⟩
  obtain ⟨hrange, _, horderly⟩ := Command.runAll_safe commands hstart h
  refine ⟨?_, horderly⟩
  change (Indexed.runAll text commands 0).bind _ = _
  have hzero : (ofText text).pos = 0 := rfl
  rw [hzero] at hrange
  rw [hrange]
  rfl

def brokenStringCommands : List Command :=
  [.name, .lookAhead [.moveTo 4, .quoted, .nextWord, .moveTo 0, .statement], .skipPast (byte ' '),
    .heritage, .moveTo 3, .block (byte '(') (byte ')')]

/-- The string by offsets goes past the end of the text for a round, and comes back. -/
theorem brokenStringCommands_inRange :
    (runSession "aé '\\" brokenStringCommands).map (·.2) = [1, 1, 4, 6, 3, 3] ∧
    Command.AllAllowed "aé '\\" brokenStringCommands ∧
    session "aé '\\" brokenStringCommands =
      some (runSession "aé '\\" brokenStringCommands) ∧
    Command.AllOrderly "aé '\\" brokenStringCommands 0
      (runSession "aé '\\" brokenStringCommands) := by
  have hallowed : Command.AllAllowed "aé '\\" brokenStringCommands := by
    simp only [brokenStringCommands, Command.AllAllowed, Command.Allowed]
    decide
  exact ⟨by decide +kernel, hallowed, runSession_inRange hallowed⟩

end ModuleBridge
