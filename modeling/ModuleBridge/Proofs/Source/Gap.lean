import ModuleBridge.Proofs.Source.Code
import ModuleBridge.Proofs.Source.TriviaText

/-!
# A comment and blanks in its place

A gap is a place in a text that is filled by a block comment, or by as many blanks as the comment
has bytes. Nothing before the gap can open a literal or a comment, so the gap is not inside one. Two
cursors are aligned when they stand at one offset of the two texts, outside the gap; both then see
the same bytes up to the gap, and pass it as trivia of the same length.
-/

namespace ModuleBridge

open Cursor List

variable {p : UInt8 → Bool} {b : UInt8} {y text : List UInt8} {n more : Nat} {word : String}
  {breaks : Bool}

/-- A block comment on one line, and what stands before and after it. -/
structure Gap where
  front : String
  /-- What the comment holds. -/
  body : String
  back : String
  /-- No quote, backtick or slash stands before the comment. -/
  plain : ∀ b ∈ bytesOf front, startsLiteral b = false
  closed : ∀ first last, body ≠ first ++ "*/" ++ last
  single : IsSingleLine body

namespace Gap

def comment (g : Gap) : String :=
  "/*" ++ g.body ++ "*/"

def width (g : Gap) : Nat :=
  (bytesOf g.comment).length

def blanks (g : Gap) : String :=
  String.ofList (replicate g.width ' ')

def commented (g : Gap) : String :=
  g.front ++ g.comment ++ g.back

def blanked (g : Gap) : String :=
  g.front ++ g.blanks ++ g.back

variable {g : Gap}

section

variable (g : Gap)

theorem bytes_comment :
    bytesOf g.comment = byte '/' :: byte '*' :: (bytesOf g.body ++ [byte '*', byte '/']) := by
  rw [comment, bytesOf_append, bytesOf_append]
  rfl

theorem bytes_blanks : bytesOf g.blanks = replicate g.width (byte ' ') := by
  have hblank : String.utf8EncodeChar ' ' = [byte ' '] := by decide
  rw [blanks, bytesOf_ofList]
  induction g.width with
  | zero => rfl
  | succ n ih => rw [replicate_succ, replicate_succ, flatMap_cons, ih, hblank]; rfl

theorem length_blanks : (bytesOf g.blanks).length = g.width := by
  rw [bytes_blanks, length_replicate]

theorem width_pos : 0 < g.width := by
  rw [width, bytes_comment]
  exact Nat.succ_pos _

/-- The bytes of the first text from the gap on. -/
def filled (g : Gap) : List UInt8 :=
  bytesOf g.comment ++ bytesOf g.back

/-- The bytes of the second text from the gap on. -/
def cleared (g : Gap) : List UInt8 :=
  bytesOf g.blanks ++ bytesOf g.back

theorem length_filled : g.filled.length = g.width + (bytesOf g.back).length := by
  rw [filled, length_append, width]

theorem length_cleared : g.cleared.length = g.width + (bytesOf g.back).length := by
  rw [cleared, length_append, length_blanks]

theorem head_filled : ∃ rest, g.filled = byte '/' :: rest := by
  rw [filled, bytes_comment]
  exact ⟨_, rfl⟩

theorem head_cleared : ∃ rest, g.cleared = byte ' ' :: rest := by
  obtain ⟨n, hn⟩ := Nat.exists_eq_succ_of_ne_zero (Nat.pos_iff_ne_zero.mp g.width_pos)
  rw [cleared, bytes_blanks, hn, replicate_succ]
  exact ⟨_, rfl⟩

theorem drop_filled (n : Nat) : g.filled.drop (g.width + n) = (bytesOf g.back).drop n := by
  rw [filled, width, ← drop_drop, drop_left]

theorem drop_cleared (n : Nat) : g.cleared.drop (g.width + n) = (bytesOf g.back).drop n := by
  rw [cleared, ← length_blanks, ← drop_drop, drop_left]

end

/-- Neither a slash nor a space: the gap starts with no such byte in either text. -/
def isMark (b : UInt8) : Bool :=
  b != byte '/' && b != byte ' '

/-- The class holds neither the slash nor the space. -/
def EndsAtGap (p : UInt8 → Bool) : Prop :=
  p (byte '/') = false ∧ p (byte ' ') = false

theorem takeWhile_gap (hb : p b = false) (y rest : List UInt8) :
    (y ++ b :: rest).takeWhile p = y.takeWhile p := by
  induction y with
  | nil => simp [hb]
  | cons a y ih => cases ha : p a <;> simp [ha, ih]

theorem EndsAtGap.takeWhile_filled (hp : EndsAtGap p) (y : List UInt8) :
    (y ++ g.filled).takeWhile p = y.takeWhile p := by
  obtain ⟨rest, hrest⟩ := g.head_filled
  rw [hrest, takeWhile_gap hp.1]

theorem EndsAtGap.takeWhile_cleared (hp : EndsAtGap p) (y : List UInt8) :
    (y ++ g.cleared).takeWhile p = y.takeWhile p := by
  obtain ⟨rest, hrest⟩ := g.head_cleared
  rw [hrest, takeWhile_gap hp.2]

theorem takeWhile_append_of_not_all (hy : ¬y.all p = true) :
    (y.takeWhile p).length < y.length ∧ ∀ rest, (y ++ rest).takeWhile p = y.takeWhile p := by
  have hle := (takeWhile_sublist p (l := y)).length_le
  have hne : (y.takeWhile p).length ≠ y.length := by
    intro heq
    rw [← (List.takeWhile_prefix p).eq_of_length heq] at hy
    exact hy all_takeWhile
  refine ⟨by omega, fun rest => ?_⟩
  rw [takeWhile_append, if_neg hne]

/-- A text without the two bytes does not reach over the gap. -/
theorem isPrefixOf_gap {rest : List UInt8} (hb : b ∉ text) :
    text.isPrefixOf (y ++ b :: rest) = text.isPrefixOf y := by
  induction text generalizing y with
  | nil => simp
  | cons a text ih =>
    rw [mem_cons, not_or] at hb
    cases y with
    | nil => simp [isPrefixOf, Ne.symm hb.1]
    | cons d y => simp [isPrefixOf, ih hb.2]

theorem not_mem_of_marks (h : text.all isMark = true) : byte '/' ∉ text ∧ byte ' ' ∉ text := by
  rw [all_eq_true] at h
  constructor
  · intro hmem
    exact absurd (h _ hmem) (by decide)
  · intro hmem
    exact absurd (h _ hmem) (by decide)

/-! ## Aligned cursors -/

/-- The cursors stand before the gap or at its start: after `x`, and `y` follows up to the gap. -/
structure Before (g : Gap) (c d : Cursor) (x y : List UInt8) : Prop where
  split : bytesOf g.front = x ++ y
  before_here : c.before = x.reverse
  before_there : d.before = x.reverse
  after_here : c.after = y ++ g.filled
  after_there : d.after = y ++ g.cleared

/-- The cursors stand after the gap: `x` comes between it and them, and `y` follows. -/
structure Beyond (g : Gap) (c d : Cursor) (x y : List UInt8) : Prop where
  split : bytesOf g.back = x ++ y
  before_here : c.before = x.reverse ++ ((bytesOf g.comment).reverse ++ (bytesOf g.front).reverse)
  before_there : d.before = x.reverse ++ ((bytesOf g.blanks).reverse ++ (bytesOf g.front).reverse)
  after_here : c.after = y
  after_there : d.after = y

/-- The cursors stand at one offset of the two texts, outside the gap. -/
inductive Aligned (g : Gap) (c d : Cursor) : Prop where
  | before {x y : List UInt8} (h : g.Before c d x y)
  | beyond {x y : List UInt8} (h : g.Beyond c d x y)

/-- Aligned cursors that do not stand at the gap. -/
inductive Settled (g : Gap) (c d : Cursor) : Prop where
  | before {x y : List UInt8} {b : UInt8} (h : g.Before c d x (b :: y))
  | beyond {x y : List UInt8} (h : g.Beyond c d x y)

variable {c d : Cursor} {x y : List UInt8}

theorem Settled.aligned (h : g.Settled c d) : g.Aligned c d := by
  cases h with
  | before h => exact .before h
  | beyond h => exact .beyond h

theorem Before.pos_here (h : g.Before c d x y) : c.pos = x.length := by
  rw [c.pos_eq, h.before_here, length_reverse]

theorem Before.pos_there (h : g.Before c d x y) : d.pos = x.length := by
  rw [d.pos_eq, h.before_there, length_reverse]

theorem Before.length_front (h : g.Before c d x y) :
    (bytesOf g.front).length = x.length + y.length := by
  rw [h.split, length_append]

theorem Beyond.pos_here (h : g.Beyond c d x y) :
    c.pos = (bytesOf g.front).length + g.width + x.length := by
  rw [c.pos_eq, h.before_here]
  simp only [length_append, length_reverse, width]
  omega

theorem Beyond.pos_there (h : g.Beyond c d x y) :
    d.pos = (bytesOf g.front).length + g.width + x.length := by
  rw [d.pos_eq, h.before_there]
  simp only [length_append, length_reverse, length_blanks]
  omega

theorem Before.advance (h : g.Before c d x y) (hn : n ≤ y.length) :
    g.Before (c.advance n) (d.advance n) (x ++ y.take n) (y.drop n) where
  split := by rw [append_assoc, take_append_drop, h.split]
  before_here := by
    rw [before_advance, h.after_here, h.before_here, take_append_of_le_length hn,
      reverse_append]
  before_there := by
    rw [before_advance, h.after_there, h.before_there, take_append_of_le_length hn,
      reverse_append]
  after_here := by rw [after_advance, h.after_here, drop_append_of_le_length hn]
  after_there := by rw [after_advance, h.after_there, drop_append_of_le_length hn]

theorem Beyond.advance (h : g.Beyond c d x y) (n : Nat) :
    g.Beyond (c.advance n) (d.advance n) (x ++ y.take n) (y.drop n) where
  split := by rw [append_assoc, take_append_drop, h.split]
  before_here := by
    rw [before_advance, h.after_here, h.before_here, reverse_append, append_assoc]
  before_there := by
    rw [before_advance, h.after_there, h.before_there, reverse_append,
      append_assoc]
  after_here := by rw [after_advance, h.after_here]
  after_there := by rw [after_advance, h.after_there]

theorem Before.cross (h : g.Before c d x y) (n : Nat) :
    g.Beyond (c.advance (y.length + (g.width + n))) (d.advance (y.length + (g.width + n)))
      ((bytesOf g.back).take n) ((bytesOf g.back).drop n) where
  split := (take_append_drop n _).symm
  before_here := by
    rw [before_advance, h.after_here, h.before_here, take_length_add_append, filled,
      width, take_length_add_append, h.split]
    simp only [reverse_append, append_assoc]
  before_there := by
    rw [before_advance, h.after_there, h.before_there, take_length_add_append, cleared,
      ← length_blanks, take_length_add_append, h.split]
    simp only [reverse_append, append_assoc]
  after_here := by rw [after_advance, h.after_here, ← drop_drop, drop_left, drop_filled]
  after_there := by
    rw [after_advance, h.after_there, ← drop_drop, drop_left, drop_cleared]

/-- A run of bytes that also takes spaces ends before the gap, or after it if it takes the whole
comment. -/
theorem Before.run_over (h : g.Before c d x y) (hblank : p (byte ' ') = true)
    (hover : y.all p = true → ∀ b ∈ bytesOf g.comment, p b = true) :
    ∃ n, (c.after.takeWhile p).length = n ∧ (d.after.takeWhile p).length = n ∧
      (n < y.length ∨ ∃ m, n = y.length + (g.width + m)) := by
  rw [h.after_here, h.after_there]
  by_cases hy : y.all p = true
  · have hblanks : ∀ b ∈ bytesOf g.blanks, p b = true := by
      rw [bytes_blanks]
      intro b hb
      rwa [eq_of_mem_replicate hb]
    have hall := all_eq_true.mp hy
    refine ⟨_, rfl, ?_, .inr ⟨((bytesOf g.back).takeWhile p).length, ?_⟩⟩
    · rw [filled, cleared, takeWhile_append_of_pos hall, takeWhile_append_of_pos hall,
        takeWhile_append_of_pos hblanks, takeWhile_append_of_pos (hover hy)]
      simp only [length_append, length_blanks, width]
    · rw [filled, takeWhile_append_of_pos hall, takeWhile_append_of_pos (hover hy)]
      simp only [length_append, width]
  · obtain ⟨hlt, htake⟩ := takeWhile_append_of_not_all hy
    exact ⟨_, by rw [htake], by rw [htake], .inl hlt⟩

/-- Just before such an end and just after it the cursors are off the gap. -/
theorem Before.advance_over (h : g.Before c d x y)
    (hn : n < y.length ∨ ∃ m, n = y.length + (g.width + m)) :
    g.Aligned (c.advance n) (d.advance n) ∧ g.Aligned (c.advance (n + 1)) (d.advance (n + 1)) := by
  cases hn with
  | inl hlt => exact ⟨.before (h.advance (Nat.le_of_lt hlt)), .before (h.advance hlt)⟩
  | inr hover =>
    obtain ⟨m, rfl⟩ := hover
    exact ⟨.beyond (h.cross m), .beyond (h.cross (m + 1))⟩

namespace Aligned

section

variable (h : g.Aligned c d)

include h

theorem pos_eq : d.pos = c.pos := by
  cases h with
  | before h => rw [h.pos_here, h.pos_there]
  | beyond h => rw [h.pos_here, h.pos_there]

theorem length_eq : d.after.length = c.after.length := by
  cases h with
  | before h =>
    rw [h.after_here, h.after_there, length_append, length_append, length_filled,
      length_cleared]
  | beyond h => rw [h.after_here, h.after_there]

theorem rangeTo_eq {c' d' : Cursor} (h' : g.Aligned c' d') : c.rangeTo c' = d.rangeTo d' := by
  rw [rangeTo, rangeTo, h.pos_eq, h'.pos_eq]

omit h in
theorem start (g : Gap) : g.Aligned (.ofText g.commented) (.ofText g.blanked) := by
  refine .before (x := []) (y := bytesOf g.front) ⟨rfl, rfl, rfl, ?_, ?_⟩
  · simp [ofText, atStart, commented, filled]
  · simp [ofText, atStart, blanked, cleared]

theorem takeWhile_eq (hp : EndsAtGap p) : c.after.takeWhile p = d.after.takeWhile p := by
  cases h with
  | before h =>
    rw [h.after_here, h.after_there, hp.takeWhile_filled, hp.takeWhile_cleared]
  | beyond h => rw [h.after_here, h.after_there]

theorem advance_takeWhile (hp : EndsAtGap p) :
    g.Aligned (c.advance (c.after.takeWhile p).length) (d.advance (c.after.takeWhile p).length) := by
  cases h with
  | before h =>
    refine .before (h.advance ?_)
    rw [h.after_here, hp.takeWhile_filled]
    exact (takeWhile_sublist p).length_le
  | beyond h => exact .beyond (h.advance _)

theorem byte?_any_eq (hp : EndsAtGap p) : c.byte?.any p = d.byte?.any p := by
  cases h with
  | @before x y h =>
    rw [byte?, byte?, h.after_here, h.after_there]
    cases y with
    | nil =>
      obtain ⟨rest, hrest⟩ := g.head_filled
      obtain ⟨rest', hrest'⟩ := g.head_cleared
      rw [hrest, hrest', nil_append, nil_append, head?_cons, head?_cons,
        Option.any_some, Option.any_some, hp.1, hp.2]
    | cons b y => rfl
  | beyond h => rw [byte?, byte?, h.after_here, h.after_there]

theorem startsWith_eq {text : String} (htext : (bytesOf text).all isMark = true) :
    c.startsWith text = d.startsWith text := by
  cases h with
  | before h =>
    obtain ⟨rest, hrest⟩ := g.head_filled
    obtain ⟨rest', hrest'⟩ := g.head_cleared
    rw [startsWith, startsWith, h.after_here, h.after_there, hrest, hrest',
      isPrefixOf_gap (not_mem_of_marks htext).1, isPrefixOf_gap (not_mem_of_marks htext).2]
  | beyond h => rw [startsWith, startsWith, h.after_here, h.after_there]

/-- What stands at the cursors ends before the gap. -/
theorem advance_startsWith {text : String} (htext : (bytesOf text).all isMark = true)
    (hstarts : c.startsWith text = true) :
    g.Aligned (c.advance (bytesOf text).length) (d.advance (bytesOf text).length) := by
  cases h with
  | before h =>
    refine .before (h.advance ?_)
    obtain ⟨rest, hrest⟩ := g.head_filled
    rw [startsWith, h.after_here, hrest, isPrefixOf_gap (not_mem_of_marks htext).1] at hstarts
    exact (List.isPrefixOf_iff_prefix.mp hstarts).length_le
  | beyond h => exact .beyond (h.advance _)

end

end Aligned

theorem endsAtGap_namePart : EndsAtGap isNamePart := ⟨by decide, by decide⟩

theorem endsAtGap_nameStart : EndsAtGap isNameStart := ⟨by decide, by decide⟩

theorem endsAtGap_digit : EndsAtGap isDigitByte := ⟨by decide, by decide⟩

theorem endsAtGap_quote : EndsAtGap isQuote := ⟨by decide, by decide⟩

theorem isMark_of_namePart : isNamePart b = true → isMark b = true := by
  apply forall_byte _ b
  decide +kernel

theorem marks_of_word (hword : (bytesOf word).all isNamePart = true) :
    (bytesOf word).all isMark = true := by
  rw [all_eq_true] at hword ⊢
  intro b hb
  exact isMark_of_namePart (hword b hb)

theorem Aligned.startsWithWord_eq (h : g.Aligned c d) {word : String}
    (hword : (bytesOf word).all isNamePart = true) :
    c.startsWithWord word = d.startsWithWord word := by
  rw [all_eq_true] at hword
  rw [Bool.eq_iff_iff, startsWithWord_iff hword, startsWithWord_iff hword,
    h.takeWhile_eq endsAtGap_namePart]

theorem Settled.byte?_eq (h : g.Settled c d) : c.byte? = d.byte? := by
  cases h with
  | before h => rw [byte?, byte?, h.after_here, h.after_there]; rfl
  | beyond h => rw [byte?, byte?, h.after_here, h.after_there]

theorem Settled.advance_one (h : g.Settled c d) : g.Aligned (c.advance 1) (d.advance 1) := by
  cases h with
  | before h => exact .before (h.advance (by simp))
  | beyond h => exact .beyond (h.advance 1)

theorem Aligned.byte?_cases (h : g.Aligned c d) :
    c.byte? = d.byte? ∨ c.byte? = some (byte '/') ∧ d.byte? = some (byte ' ') := by
  cases h with
  | @before x y h =>
    cases y with
    | nil =>
      obtain ⟨rest, hrest⟩ := g.head_filled
      obtain ⟨rest', hrest'⟩ := g.head_cleared
      right
      rw [byte?, byte?, h.after_here, h.after_there, hrest, hrest']
      exact ⟨rfl, rfl⟩
    | cons b y => exact .inl (Settled.before h).byte?_eq
  | beyond h => exact .inl (Settled.beyond h).byte?_eq

theorem Aligned.byte?_beq (h : g.Aligned c d) (hb : isMark b = true) :
    (c.byte? == some b) = (d.byte? == some b) := by
  cases h.byte?_cases with
  | inl heq => rw [heq]
  | inr hgap =>
    simp only [isMark, Bool.and_eq_true, bne_iff_ne] at hb
    rw [hgap.1, hgap.2, beq_eq_false_iff_ne.mpr fun heq => hb.1 (Option.some.inj heq).symm,
      beq_eq_false_iff_ne.mpr fun heq => hb.2 (Option.some.inj heq).symm]

/-- A byte that is neither a slash nor a space stands off the gap. -/
theorem Aligned.settled_of_byte (h : g.Aligned c d) (hb : isMark b = true)
    (hc : (c.byte? == some b) = true) : g.Settled c d := by
  cases h with
  | @before x y h =>
    cases y with
    | nil =>
      obtain ⟨rest, hrest⟩ := g.head_filled
      simp only [isMark, Bool.and_eq_true, bne_iff_ne] at hb
      rw [byte?, h.after_here, hrest, beq_iff_eq] at hc
      exact absurd (Option.some.inj hc).symm hb.1
    | cons a y => exact .before h
  | beyond h => exact .beyond h

theorem Before.drop_front (h : g.Before c d x y) : (bytesOf g.front).drop x.length = y := by
  rw [h.split, drop_left]

theorem Before.decode_eq (h : g.Before c d x (b :: y)) (r r' : List UInt8) :
    decodeFirst? (b :: y ++ r) = decodeFirst? (b :: y ++ r') := by
  have hlt : x.length < (bytesOf g.front).length := by
    rw [h.length_front, length_cons]
    omega
  rw [← h.drop_front]
  exact decodeFirst?_drop_append g.front hlt r r'

theorem Settled.char?_eq (h : g.Settled c d) : c.char? = d.char? := by
  cases h with
  | before h =>
    rw [char?, char?, h.after_here, h.after_there]
    exact h.decode_eq _ _
  | beyond h => rw [char?, char?, h.after_here, h.after_there]

theorem Aligned.fault_eq (h : g.Aligned c d) (message : Message) (args : List String) :
    c.fault message args = d.fault message args := by
  have hsize : (c.char?.map Char.utf8Size).getD 0 = (d.char?.map Char.utf8Size).getD 0 := by
    cases h with
    | @before x y h =>
      cases y with
      | nil =>
        -- A slash and a space are characters of one byte.
        obtain ⟨rest, hrest⟩ := g.head_filled
        obtain ⟨rest', hrest'⟩ := g.head_cleared
        have hslash : decodeFirst? (byte '/' :: rest) = some '/' :=
          decodeFirst?_utf8EncodeChar '/' rest
        have hspace : decodeFirst? (byte ' ' :: rest') = some ' ' :=
          decodeFirst?_utf8EncodeChar ' ' rest'
        rw [char?, char?, h.after_here, h.after_there, hrest, hrest',
          nil_append, nil_append, hslash, hspace]
        rfl
      | cons b y => rw [(Settled.before h).char?_eq]
    | beyond h => rw [(Settled.beyond h).char?_eq]
  rw [fault, fault, hsize, h.pos_eq]

theorem Settled.stepLength_eq (h : g.Settled c d) : c.stepLength = d.stepLength := by
  rw [stepLength, stepLength, h.char?_eq]

theorem Before.stepLength_le (h : g.Before c d x (b :: y)) : c.stepLength ≤ (b :: y).length := by
  have hread : c.char? = (atStart (b :: y)).char? := by
    have hdecode := h.decode_eq g.filled []
    rw [append_nil] at hdecode
    rw [char?, h.after_here, hdecode]
    rfl
  have hstep : c.stepLength = (atStart (b :: y)).stepLength := by
    rw [stepLength, stepLength, hread]
  rw [hstep]
  exact Cursor.stepLength_le (cons_ne_nil b y)

/-! ## Trivia -/

/-- Before the gap no slash opens a comment, so an item of trivia there is a blank or a line end. -/
theorem Before.triviaItem_eq (h : g.Before c d x (b :: y)) (r r' : List UInt8) :
    triviaItem (b :: y ++ r) = triviaItem (b :: y ++ r') := by
  have hplain : startsLiteral b = false := g.plain b (by rw [h.split]; simp)
  have hslash : (b == byte '/') = false := by
    simp only [startsLiteral, Bool.or_eq_false_iff] at hplain
    exact hplain.2
  have hdecode := h.decode_eq r r'
  rw [cons_append, cons_append] at hdecode ⊢
  simp only [triviaItem, hslash, hdecode, Bool.false_eq_true, if_false]

theorem Before.triviaItem_le (h : g.Before c d x (b :: y)) {r : List UInt8}
    (hitem : triviaItem (b :: y ++ r) = .item more breaks) : more + 1 ≤ (b :: y).length := by
  rw [h.triviaItem_eq r [], append_nil] at hitem
  exact (triviaItem_onward (c := atStart (b :: y)) hitem).1

/-- How the runs of trivia at aligned cursors end: on the same bytes, off the gap. -/
inductive TriviaEnd (g : Gap) (c d : Cursor) : Prop where
  | clear {length : Nat} {crosses : Bool} (here : triviaReach c.after = .clear length crosses)
      (there : triviaReach d.after = .clear length crosses)
      (hend : g.Settled (c.advance length) (d.advance length))
  | unclosed {length : Nat} (here : triviaReach c.after = .unclosed length)
      (there : triviaReach d.after = .unclosed length)

theorem triviaItem_comment (g : Gap) : triviaItem g.filled = .item (g.width - 1) false := by
  have hread : commentBody (bytesOf g.body ++ byte '*' :: byte '/' :: bytesOf g.back) 0 false = _ :=
    commentBody_of_first (noClose_bytes g.closed)
  have hlines : (bytesOf g.body).any isLineEndByte = false := by
    rw [any_eq_false]
    intro b hb
    rw [isSingleLine_iff_bytes.mp g.single b hb]
    exact Bool.false_ne_true
  rw [hlines, Nat.zero_add] at hread
  have hbytes : g.filled =
      byte '/' :: byte '*' :: (bytesOf g.body ++ byte '*' :: byte '/' :: bytesOf g.back) := by
    rw [filled, bytes_comment]
    simp
  have hlength : g.width - 1 = (bytesOf g.body).length + 3 := by
    rw [width, bytes_comment]
    simp
  rw [hbytes, hlength]
  exact triviaItem_block hread

theorem triviaReach_filled (g : Gap) :
    triviaReach g.filled = (triviaReach (bytesOf g.back)).shift g.width false := by
  have hwidth : g.width - 1 + 1 = g.width := Nat.sub_add_cancel g.width_pos
  rw [triviaReach_of_item g.triviaItem_comment, hwidth]
  exact congrArg (fun bytes => (triviaReach bytes).shift g.width false) (g.drop_filled 0)

theorem triviaReach_blanks {blanks : List UInt8} (h : ∀ b ∈ blanks, isBlankByte b = true)
    (rest : List UInt8) :
    triviaReach (blanks ++ rest) = (triviaReach rest).shift blanks.length false := by
  induction blanks with
  | nil => cases hrest : triviaReach rest <;> simp [TriviaReach.shift, hrest]
  | cons b blanks ih =>
    have hitem : triviaItem (b :: (blanks ++ rest)) = .item 0 false := by
      simp only [triviaItem, h b mem_cons_self, if_true]
    rw [cons_append, triviaReach_of_item hitem, drop_succ_cons, drop_zero,
      ih fun a ha => h a (mem_cons_of_mem b ha)]
    cases triviaReach rest <;> simp [TriviaReach.shift] <;> omega

theorem triviaReach_cleared (g : Gap) :
    triviaReach g.cleared = (triviaReach (bytesOf g.back)).shift g.width false := by
  have hblank : ∀ b ∈ bytesOf g.blanks, isBlankByte b = true := by
    rw [bytes_blanks]
    intro b hb
    rw [eq_of_mem_replicate hb]
    decide
  rw [cleared, triviaReach_blanks hblank, length_blanks]

/-- An item that both texts start with comes before the rest of the two runs. -/
theorem TriviaEnd.of_item (hitem : triviaItem c.after = .item more breaks)
    (hitem' : triviaItem d.after = .item more breaks)
    (h : g.TriviaEnd (c.advance (more + 1)) (d.advance (more + 1))) : g.TriviaEnd c d := by
  cases h with
  | clear here there hend =>
    rw [advance_advance, advance_advance] at hend
    rw [after_advance] at here there
    have hfirst := triviaReach_of_item hitem
    have hsecond := triviaReach_of_item hitem'
    rw [here] at hfirst
    rw [there] at hsecond
    exact .clear hfirst hsecond hend
  | unclosed here there =>
    rw [after_advance] at here there
    have hfirst := triviaReach_of_item hitem
    have hsecond := triviaReach_of_item hitem'
    rw [here] at hfirst
    rw [there] at hsecond
    exact .unclosed hfirst hsecond

/-- At the gap the run goes on over it. -/
theorem Before.triviaEnd_gap (h : g.Before c d x []) : g.TriviaEnd c d := by
  have here := g.triviaReach_filled
  have there := g.triviaReach_cleared
  rw [← nil_append g.filled, ← h.after_here] at here
  rw [← nil_append g.cleared, ← h.after_there] at there
  cases hback : triviaReach (bytesOf g.back) with
  | clear length crosses =>
    rw [hback] at here there
    have hcross := h.cross length
    rw [length_nil, Nat.zero_add] at hcross
    exact .clear here there (.beyond hcross)
  | unclosed length =>
    rw [hback] at here there
    exact .unclosed here there

theorem Beyond.triviaEnd (h : g.Beyond c d x y) : g.TriviaEnd c d := by
  have heq : d.after = c.after := by rw [h.after_here, h.after_there]
  cases here : triviaReach c.after with
  | clear length crosses => exact .clear here (by rw [heq, here]) (.beyond (h.advance length))
  | unclosed length => exact .unclosed here (by rw [heq, here])

/-- The run of trivia, item by item up to the gap and then over it. -/
theorem Before.triviaEnd (h : g.Before c d x y) : g.TriviaEnd c d := by
  induction hsize : y.length using Nat.strongRecOn generalizing c d x y with
  | ind size ih =>
    subst hsize
    cases y with
    | nil => exact h.triviaEnd_gap
    | cons b y =>
      have hsame : triviaItem d.after = triviaItem c.after := by
        rw [h.after_here, h.after_there]
        exact h.triviaItem_eq _ _
      cases hitem : triviaItem c.after with
      | nothing =>
        rw [hitem] at hsame
        refine .clear (triviaReach_of_nothing hitem) (triviaReach_of_nothing hsame) ?_
        rw [advance_zero, advance_zero]
        exact .before h
      | unclosedComment =>
        rw [hitem] at hsame
        exact .unclosed (triviaReach_of_unclosed hitem) (triviaReach_of_unclosed hsame)
      | item more breaks =>
        rw [hitem] at hsame
        have hle : more + 1 ≤ (b :: y).length := by
          rw [h.after_here] at hitem
          exact h.triviaItem_le hitem
        refine .of_item hitem hsame (ih _ ?_ (h.advance hle) rfl)
        rw [length_drop]
        omega

theorem Aligned.triviaEnd (h : g.Aligned c d) : g.TriviaEnd c d := by
  cases h with
  | before h => exact h.triviaEnd
  | beyond h => exact h.triviaEnd

end Gap

end ModuleBridge
