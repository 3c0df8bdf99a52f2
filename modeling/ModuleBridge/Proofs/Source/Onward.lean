import ModuleBridge.Proofs.Source.Calculus
import ModuleBridge.Proofs.Source.Trivia
import ModuleBridge.Source.Stretch
import ModuleBridge.Source.Token

/-!
# Scanning moves onward

Each scanning operation that succeeds leaves its cursor onward of where it started. Inside blocks
and templates the scan goes byte by byte and may stand within a character; it always ends just after
an ASCII byte, which brings it back to a boundary.
-/

namespace ModuleBridge

open List

variable {c d : Cursor} {b opener closer : UInt8} {rest bytes : List UInt8} {word : String}
  {start length : Nat}

namespace Cursor

/-- `d` comes just after a byte of the class `p` that lies at or after `c`. -/
def Past (p : UInt8 → Bool) (c d : Cursor) : Prop :=
  ∃ n b, d = c.advance (n + 1) ∧ c.after[n]? = some b ∧ p b = true

namespace Past

variable {p : UInt8 → Bool} {c d : Cursor}

theorem onward (h : Past p c d) (hp : ∀ b, p b = true → b < 128) : c.Onward d := by
  obtain ⟨n, b, rfl, hget, hb⟩ := h
  exact .of_advance fun hbound => hbound.advance_past hget (hp b hb)

theorem of_cons (hc : c.after = b :: rest) (hb : p b = true) : Past p c (c.advance 1) :=
  ⟨0, b, rfl, by simp [hc], hb⟩

theorem of_advance {n : Nat} (h : Past p (c.advance n) d) : Past p c d := by
  obtain ⟨m, b, rfl, hget, hb⟩ := h
  refine ⟨n + m, b, ?_, ?_, hb⟩
  · rw [advance_advance, Nat.add_assoc]
  · rwa [after_advance, getElem?_drop] at hget

theorem last? (h : Past p c d) : d.last?.any p = true := by
  obtain ⟨n, b, rfl, hget, hb⟩ := h
  rw [last?_advance_succ hget, Option.any_some, hb]

theorem reaches (h : Past p c d) : ∃ n, d = c.advance (n + 1) ∧ n < c.after.length := by
  obtain ⟨n, b, rfl, hget, _⟩ := h
  exact ⟨n, rfl, (List.getElem?_eq_some_iff.mp hget).1⟩

end Past

theorem Onward.takeWhile {p : UInt8 → Bool} (hp : ∀ b, p b = true → b < 128) :
    c.Onward (c.advance (c.after.takeWhile p).length) := by
  cases hlen : (c.after.takeWhile p).length with
  | zero =>
    rw [advance_zero]
    exact .refl c
  | succ n =>
    have hinside : n < (c.after.takeWhile p).length := by omega
    obtain ⟨b, hget, hb⟩ := takeWhile_inside hinside
    exact Past.onward ⟨n, b, rfl, hget, hb⟩ hp

theorem Onward.startsWith {text : String} (h : c.startsWith text = true) :
    c.Onward (c.advance (bytesOf text).length) := by
  obtain ⟨rest, hrest⟩ := isPrefixOf_iff_prefix.mp h
  refine .of_advance fun hbound => ?_
  obtain ⟨_, back, hback⟩ := id hbound
  obtain ⟨more, hmore⟩ := exists_rest (hback.symm.trans hrest.symm)
  refine hbound.of_cut text more ?_ ?_
  · rw [← hrest, take_left]
  · rw [← hrest, drop_left, hmore]

end Cursor

/-- A whole word stands at the cursor when it is all of the name there. -/
theorem startsWithWord_iff (hword : ∀ b ∈ bytesOf word, isNamePart b = true) :
    c.startsWithWord word = true ↔ c.after.takeWhile isNamePart = bytesOf word := by
  rw [Cursor.startsWithWord, Cursor.startsWith, Bool.and_eq_true, isPrefixOf_iff_prefix,
    Bool.not_eq_true']
  constructor
  · rintro ⟨⟨rest, hafter⟩, hstop⟩
    rw [← hafter, getElem?_append_right (Nat.le_refl _), Nat.sub_self] at hstop
    rw [← hafter, takeWhile_append_of_pos hword]
    cases rest with
    | nil => simp
    | cons b rest => rw [takeWhile_cons_of_neg (by simpa using hstop), append_nil]
  · intro htake
    have hafter := takeWhile_append_dropWhile (p := isNamePart) (l := c.after)
    rw [htake] at hafter
    refine ⟨⟨_, hafter⟩, ?_⟩
    rw [← hafter, getElem?_append_right (Nat.le_refl _), Nat.sub_self]
    have hstop := head?_dropWhile_not isNamePart c.after
    rw [← head?_eq_getElem?]
    cases hhead : (c.after.dropWhile isNamePart).head? with
    | none => rfl
    | some b =>
      rw [hhead] at hstop
      simpa using hstop

/-! ## Literals -/

/-- The bytes that may end a literal: quotes, the backtick, the slash and flags. -/
def endsLiteral (b : UInt8) : Bool :=
  isQuote b || b == byte '\x60' || b == byte '/' || isNamePart b

theorem endsLiteral_ascii (b : UInt8) : endsLiteral b = true → b < 128 := by
  apply forall_byte _ b
  decide +kernel

theorem quotedReach_eq_closed {quote : UInt8} (h : quotedReach quote bytes start = .closed length) :
    ∃ n, length = start + n + 1 ∧ bytes[n]? = some quote := by
  fun_induction quotedReach quote bytes start with
  | case1 | case2 | case3 | case4 => cases h
  | case5 =>
    rename_i ih
    obtain ⟨n, hlength, hget⟩ := ih h
    exact ⟨n + 3, by omega, by simpa using hget⟩
  | case6 =>
    rename_i ih
    obtain ⟨n, hlength, hget⟩ := ih h
    exact ⟨n + 2, by omega, by simpa using hget⟩
  | case7 b rest start _ _ hquote =>
    cases h
    exact ⟨0, rfl, by simpa using hquote⟩
  | case8 =>
    rename_i ih
    obtain ⟨n, hlength, hget⟩ := ih h
    exact ⟨n + 1, by omega, by simpa using hget⟩

theorem patternReach_eq_some {inClass : Bool} (h : patternReach inClass bytes start = some length) :
    ∃ n b, length = start + n + 1 ∧ bytes[n]? = some b ∧ endsLiteral b = true := by
  fun_induction patternReach inClass bytes start with
  | case1 | case2 | case3 => cases h
  | case4 =>
    rename_i ih
    obtain ⟨n, d, hlength, hget, hd⟩ := ih h
    exact ⟨n + 2, d, by omega, by simpa using hget, hd⟩
  | case5 | case6 | case8 =>
    rename_i ih
    obtain ⟨n, d, hlength, hget, hd⟩ := ih h
    exact ⟨n + 1, d, by omega, by simpa using hget, hd⟩
  | case7 _ b rest start _ _ _ _ hslash =>
    cases h
    simp only [Bool.and_eq_true, beq_iff_eq] at hslash
    cases hflags : (rest.takeWhile isNamePart).length with
    | zero => exact ⟨0, b, by omega, rfl, by rw [hslash.1]; decide⟩
    | succ n =>
      have hinside : n < (rest.takeWhile isNamePart).length := by omega
      obtain ⟨d, hget, hd⟩ := takeWhile_inside hinside
      exact ⟨n + 1, d, by omega, by simpa using hget, by simp [endsLiteral, hd]⟩

theorem literalStart_eq_span {before : List UInt8} {more : Nat}
    (h : literalStart before b rest = .span more) :
    ∃ d, (b :: rest)[more]? = some d ∧ endsLiteral d = true := by
  unfold literalStart at h
  split at h
  · rename_i hquote
    split at h
    · rename_i length hreach
      cases h
      obtain ⟨n, rfl, hget⟩ := quotedReach_eq_closed hreach
      exact ⟨b, by simpa using hget, by simp [endsLiteral, hquote]⟩
    · cases h
  · split at h
    · cases h
    · split at h
      · rename_i hslash
        cases h
        simp only [Bool.and_eq_true, beq_iff_eq] at hslash
        cases hreach : patternReach false rest 0 with
        | none => exact ⟨b, rfl, by rw [hslash.1]; decide⟩
        | some length =>
          obtain ⟨n, d, rfl, hget, hd⟩ := patternReach_eq_some hreach
          exact ⟨d, by simpa using hget, hd⟩
      · cases h

def Enclosure.closing : Enclosure → UInt8
  | .block _ closer _ _ => closer
  | .template _ => byte '\x60'

theorem blockAfter_cases (opener closer : UInt8) (depth start : Nat) (outer : List Enclosure)
    (b : UInt8) :
    (b == closer) = true ∧ blockAfter opener closer depth start outer b = outer ∨
      ∃ more, blockAfter opener closer depth start outer b =
        .block opener closer more start :: outer := by
  unfold blockAfter
  split
  · exact .inr ⟨_, rfl⟩
  · split
    · rename_i hcloser
      cases depth with
      | zero => exact .inl ⟨hcloser, rfl⟩
      | succ less => exact .inr ⟨less, rfl⟩
    · exact .inr ⟨_, rfl⟩

/-- The last byte that is passed closes the outermost enclosure. -/
theorem closeEnclosures_past {stack : List Enclosure} (h : closeEnclosures stack c = .ok () d)
    (hne : stack ≠ []) : Cursor.Past (· == (stack.getLast hne).closing) c d := by
  fun_induction closeEnclosures stack c with
  | case1 => exact absurd rfl hne
  | case2 | case7 | case8 | case10 => cases h
  | case3 | case6 =>
    rename_i ih
    exact (ih h hne).of_advance
  | case5 =>
    rename_i ih
    have hpast := ih h (by simp)
    rw [getLast_cons hne] at hpast
    exact hpast.of_advance
  | case4 c start outer b rest hc _ htick ih =>
    by_cases houter : outer = []
    · subst houter
      rw [closeEnclosures] at h
      cases h
      exact .of_cons hc htick
    · rw [getLast_cons houter]
      exact (ih h houter).of_advance
  | case9 =>
    rename_i ih
    exact (ih h hne).of_advance.of_advance
  | case11 =>
    rename_i ih
    have hpast := ih h (by simp)
    rw [getLast_cons hne] at hpast
    exact hpast.of_advance.of_advance
  | case12 c opener closer depth start outer length _ _ front b rest hfront _ ih =>
    rcases blockAfter_cases opener closer depth start outer b with ⟨hcloser, heq⟩ | ⟨more, heq⟩
    · rw [heq] at h ih
      by_cases houter : outer = []
      · subst houter
        rw [closeEnclosures] at h
        injection h with _ hpast
        rw [← hpast]
        exact (Cursor.Past.of_cons hfront hcloser).of_advance
      · rw [getLast_cons houter]
        exact (ih h houter).of_advance.of_advance
    · -- Only the depth of the innermost enclosure changes.
      rw [heq] at h ih
      have hpast := ih h (by simp)
      cases outer with
      | nil => exact hpast.of_advance.of_advance
      | cons e outer => exact hpast.of_advance.of_advance

/-! ## Primitive operations -/

namespace Scan

open Cursor

variable {α β : Type}

/-- Every successful run of `op` moves the cursor onward. -/
def MovesOnward (op : Scan α) : Prop :=
  ∀ ⦃c a d⦄, op c = .ok a d → c.Onward d

namespace MovesOnward

theorem pure (a : α) : MovesOnward (pure a) := by
  intro c b d h
  rw [(pure_eq_ok.mp h).2]
  exact .refl c

theorem get : MovesOnward get := by
  intro c b d h
  rw [(get_eq_ok.mp h).2]
  exact .refl c

theorem peek (f : Cursor → α) : MovesOnward (peek f) := by
  intro c b d h
  rw [(peek_eq_ok.mp h).2]
  exact .refl c

theorem failHere (message : Message) (args : List String) :
    MovesOnward (failHere message args : Scan α) := by
  intro c b d h
  exact absurd h failHere_ne_ok

theorem bind {op : Scan α} {next : α → Scan β} (hop : MovesOnward op)
    (hnext : ∀ a, MovesOnward (next a)) : MovesOnward (op >>= next) := by
  intro c b e h
  obtain ⟨a, d, hfirst, hrest⟩ := bind_eq_ok.mp h
  exact (hop hfirst).trans (hnext a hrest)

end MovesOnward

/-- Every successful run of `op` moves the cursor onward and over at least one byte. -/
def Advances (op : Scan α) : Prop :=
  ∀ ⦃c a d⦄, op c = .ok a d → c.Onward d ∧ c.pos < d.pos

theorem trivia_onward : MovesOnward trivia := by
  intro c crosses d h
  obtain ⟨length, hreach, rfl⟩ := trivia_eq_ok.mp h
  exact (triviaReach_onward hreach).2

theorem space_onward : MovesOnward space := by
  intro c u d h
  obtain ⟨crosses, htrivia⟩ := space_eq_ok.mp h
  exact trivia_onward htrivia

theorem space_eq_advance {u : Unit} : space c = .ok u d ↔
    ∃ length crosses, triviaReach c.after = .clear length crosses ∧ d = c.advance length := by
  simp only [space_eq_ok, trivia_eq_ok]
  exact exists_comm

theorem clear_of_space {q : Cursor} (h : space c = .ok () q) :
    triviaReach q.after = .clear 0 false := by
  obtain ⟨length, crosses, hreach, rfl⟩ := space_eq_advance.mp h
  exact triviaReach_drop hreach

theorem space_of_clear (h : triviaReach c.after = .clear 0 false) : space c = .ok () c :=
  space_eq_ok.mpr ⟨false, trivia_of_clear h⟩

theorem accept_onward (text : String) : MovesOnward (accept text) := by
  intro c found d h
  rcases accept_cases h with ⟨_, hstarts, rfl⟩ | ⟨_, _, rfl⟩
  · exact .startsWith hstarts
  · exact .refl d

theorem startsWith_of_startsWithWord (h : c.startsWithWord word = true) :
    c.startsWith word = true := by
  simp only [Cursor.startsWithWord, Bool.and_eq_true] at h
  exact h.1

theorem acceptWord_onward (word : String) : MovesOnward (acceptWord word) := by
  intro c found d h
  rcases acceptWord_cases h with ⟨_, hstarts, rfl⟩ | ⟨_, _, rfl⟩
  · exact .startsWith (startsWith_of_startsWithWord hstarts)
  · exact .refl d

theorem name_onward : MovesOnward name := by
  intro c a d h
  unfold name at h
  split at h
  · cases h
    exact .takeWhile fun b => isNamePart_ascii
  · cases h

theorem quoted_past {a : Quoted} (h : quoted c = .ok a d) : Past isQuote c d := by
  unfold quoted at h
  split at h
  · cases h
  · rename_i quote rest hc
    split at h
    · rename_i hquote
      split at h
      · rename_i length hreach
        cases h
        obtain ⟨n, rfl, hget⟩ := quotedReach_eq_closed hreach
        exact ⟨_, quote, rfl, by rw [hc]; simpa using hget, hquote⟩
      · cases h
    · cases h

theorem quoted_onward : MovesOnward quoted := by
  intro c a d h
  exact (quoted_past h).onward fun b => isQuote_ascii

theorem literal_past (h : literal c = .ok true d) : Past endsLiteral c d := by
  unfold literal at h
  split at h
  · cases h
  · rename_i b rest hc
    split at h
    · cases h
    · rename_i more hspan
      cases h
      obtain ⟨e, hget, he⟩ := literalStart_eq_span hspan
      exact ⟨more, e, rfl, by rw [hc]; exact hget, he⟩
    · cases h
    · split at h
      · rename_i e hclose
        cases h
        obtain ⟨n, b, hd, hget, hb⟩ := (closeEnclosures_past hclose (by simp)).of_advance
        refine ⟨n, b, hd, hget, ?_⟩
        rw [beq_iff_eq.mp hb]
        exact (by decide : endsLiteral (byte '\x60') = true)
      · cases h

theorem literal_eq_false (h : literal c = .ok false d) : d = c := by
  unfold literal at h
  split at h
  · cases h
    rfl
  · split at h
    · cases h
      rfl
    · cases h
    · cases h
    · split at h <;> cases h

theorem literal_onward : MovesOnward literal := by
  intro c found d h
  cases found with
  | true => exact (literal_past h).onward endsLiteral_ascii
  | false =>
    rw [literal_eq_false h]
    exact .refl c

theorem block_past {a : Range} (h : block opener closer c = .ok a d) : Past (· == closer) c d := by
  unfold block at h
  split at h
  · split at h
    · rename_i e hclose
      cases h
      exact (closeEnclosures_past hclose (by simp)).of_advance
    · cases h
  · cases h

theorem block_onward (hcloser : closer < 128) : MovesOnward (block opener closer) := by
  intro c a d h
  refine (block_past h).onward fun b hb => ?_
  rwa [beq_iff_eq.mp hb]

theorem skipPast_onward (hb : b < 128) : MovesOnward (skipPast b) := by
  intro c a d h
  unfold skipPast at h
  cases h
  refine .of_advance fun hbound => ?_
  rcases takeWhile_stop (· != b) c.after with hend | ⟨e, hget, he⟩
  · exact hbound.advance_end (by omega)
  · have heq : e = b := by simpa using he
    exact hbound.advance_past hget (by rwa [heq])

theorem number_onward : MovesOnward number := by
  intro c a d h
  have hrest : c.after.dropWhile isDigitByte =
      (c.advance (c.after.takeWhile isDigitByte).length).after := dropWhile_eq_drop _ _
  unfold number at h
  dsimp only at h
  split at h
  · cases h
  · cases h
    rw [hrest, ← advance_advance, ← advance_advance]
    have hwhole : c.Onward (c.advance (c.after.takeWhile isDigitByte).length) :=
      .takeWhile fun b => isDigitByte_ascii
    generalize c.advance (c.after.takeWhile isDigitByte).length = e at hwhole
    refine hwhole.trans ?_
    split
    · rename_i hpoint
      cases he : e.after with
      | nil => simp [he] at hpoint
      | cons b rest =>
        have hb : b = byte '.' := by simpa [he] using hpoint
        have hpast : Past (· == byte '.') e (e.advance 1) := .of_cons he (by rw [hb]; decide)
        refine (hpast.onward fun b hb => by rw [beq_iff_eq.mp hb]; decide).trans ?_
        have htail : rest = (e.advance 1).after := by simp [he]
        rw [tail_cons, htail]
        exact .takeWhile fun b => isDigitByte_ascii
    · simpa using .refl e

end Scan

end ModuleBridge
