import ModuleBridge.Proofs.Source.Byte
import ModuleBridge.Proofs.Source.Motion
import ModuleBridge.Source.Scan

/-!
# Runs of trivia

What one trivia item can be, and what follows for a run of them: a run ends inside the text, between
two characters, and where it ends no further item starts.
-/

namespace ModuleBridge

open Cursor List TriviaReach

variable {bytes : List UInt8} {length more : Nat} {breaks crosses : Bool}

/-! ## Single items -/

/-- The body of a block comment ends at the first `*/`. -/
theorem commentBody_eq_some {start : Nat} {before : Bool}
    (h : commentBody bytes start before = some (length, breaks)) :
    ∃ body rest, bytes = body ++ byte '*' :: byte '/' :: rest ∧ length = start + body.length ∧
      breaks = (before || body.any isLineEndByte) ∧
      ∀ front back, body ++ [byte '*'] ≠ front ++ byte '*' :: byte '/' :: back := by
  fun_induction commentBody bytes start before with
  | case1 | case2 => cases h
  | case3 a b rest start before hclose =>
    cases h
    simp only [Bool.and_eq_true, beq_iff_eq] at hclose
    obtain ⟨rfl, rfl⟩ := hclose
    refine ⟨[], rest, rfl, rfl, by simp, ?_⟩
    intro front back heq
    have hlen := congrArg List.length heq
    simp only [nil_append, length_append, length_cons, length_nil] at hlen
    omega
  | case4 a b rest start before hopen ih =>
    obtain ⟨body, tail, hbytes, rfl, rfl, hfirst⟩ := ih h
    refine ⟨a :: body, tail, by simp [hbytes], by simp; omega, by simp [Bool.or_assoc], ?_⟩
    intro front back heq
    cases front with
    | nil =>
      -- A close at the very front would have been taken.
      simp only [cons_append, nil_append, List.cons.injEq] at heq
      obtain ⟨rfl, hbody⟩ := heq
      cases body with
      | nil =>
        simp only [nil_append, List.cons.injEq] at hbody
        exact absurd hbody.1 (by decide)
      | cons d body =>
        simp only [cons_append, List.cons.injEq] at hbody hbytes
        simp [hbytes.1, hbody.1] at hopen
    | cons d front =>
      simp only [cons_append, List.cons.injEq] at heq
      exact hfirst front back heq.2

/-- All that a trivia item can be. -/
theorem triviaItem_eq_item (h : triviaItem bytes = .item more breaks) :
    (∃ b rest, bytes = b :: rest ∧ more = 0 ∧
      (isBlankByte b ∧ breaks = false ∨ isLineEndByte b ∧ breaks = true)) ∨
    (∃ body, bytes = byte '/' :: byte '/' :: body ∧ more = 1 + lineLength body ∧
      breaks = false) ∨
    (∃ body length, bytes = byte '/' :: byte '*' :: body ∧
      commentBody body 0 false = some (length, breaks) ∧ more = length + 3) ∨
    ∃ b rest ch, bytes = b :: rest ∧ ¬b < 128 ∧ decodeFirst? bytes = some ch ∧
      more = ch.utf8Size - 1 ∧ (isLineBreak ch ∧ breaks = true ∨ isBlank ch ∧ breaks = false) := by
  revert h
  fun_cases triviaItem bytes <;> intro h
  case case2 b rest hblank =>
    cases h
    exact .inl ⟨b, rest, rfl, rfl, .inl ⟨hblank, rfl⟩⟩
  case case3 b rest _ hend =>
    cases h
    exact .inl ⟨b, rest, rfl, rfl, .inr ⟨hend, rfl⟩⟩
  case case5 b _ _ hslash d body hslash' =>
    cases h
    rw [beq_iff_eq] at hslash hslash'
    exact .inr (.inl ⟨body, by rw [hslash, hslash'], rfl, rfl⟩)
  case case6 b _ _ hslash d body _ hstar length breaks hbody =>
    cases h
    rw [beq_iff_eq] at hslash hstar
    exact .inr (.inr (.inl ⟨body, length, by rw [hslash, hstar], hbody, rfl⟩))
  case case11 b rest _ _ _ hhigh ch hch hbreak =>
    cases h
    exact .inr (.inr (.inr ⟨b, rest, ch, rfl, hhigh, hch, rfl, .inl ⟨hbreak, rfl⟩⟩))
  case case12 b rest _ _ _ hhigh ch hch _ hblank =>
    cases h
    exact .inr (.inr (.inr ⟨b, rest, ch, rfl, hhigh, hch, rfl, .inr ⟨hblank, rfl⟩⟩))
  all_goals cases h

theorem triviaItem_eq_unclosed :
    triviaItem bytes = .unclosedComment ↔
      ∃ body, bytes = byte '/' :: byte '*' :: body ∧ commentBody body 0 false = none := by
  constructor
  · fun_cases triviaItem bytes <;> intro h
    case case7 b _ _ hslash d body _ hstar hbody =>
      exact ⟨body, by rw [beq_iff_eq.mp hslash, beq_iff_eq.mp hstar], hbody⟩
    all_goals cases h
  · rintro ⟨body, rfl, hbody⟩
    simp only [triviaItem, hbody]
    rfl

/-- A byte that starts no trivia, whatever follows it. -/
def startsCode (b : UInt8) : Bool :=
  !isBlankByte b && !isLineEndByte b && b != byte '/' && b < 128

theorem triviaItem_of_startsCode {b : UInt8} (hb : startsCode b = true) (rest : List UInt8) :
    triviaItem (b :: rest) = .nothing := by
  simp only [startsCode, Bool.and_eq_true, Bool.not_eq_true', bne_iff_ne, decide_eq_true_eq] at hb
  obtain ⟨⟨⟨hblank, hend⟩, hslash⟩, hascii⟩ := hb
  simp only [triviaItem, hblank, hend, beq_eq_false_iff_ne.mpr hslash, hascii, Bool.false_eq_true,
    if_false, if_true]

theorem triviaItem_onward {c : Cursor} (h : triviaItem c.after = .item more breaks) :
    more + 1 ≤ c.after.length ∧ c.Onward (c.advance (more + 1)) := by
  rcases triviaItem_eq_item h with ⟨b, rest, hc, rfl, hb⟩ | ⟨body, hc, rfl, _⟩ |
    ⟨body, length, hc, hbody, rfl⟩ | ⟨b, rest, ch, hc, _, hch, rfl, _⟩
  · have hascii : b < 128 := by
      rcases hb with ⟨hb, _⟩ | ⟨hb, _⟩
      · exact isBlankByte_ascii hb
      · exact isLineEndByte_ascii hb
    exact ⟨by simp [hc], .of_advance fun hbound => hbound.advance_past (by simp [hc]) hascii⟩
  · have hlen : lineLength body ≤ body.length := (takeWhile_sublist _).length_le
    refine ⟨by rw [hc]; simp only [length_cons]; omega, .of_advance fun hbound => ?_⟩
    rcases takeWhile_stop (!isLineEndByte ·) body with hend | ⟨b, hget, hb⟩
    · refine hbound.advance_end ?_
      rw [hc]
      simp only [length_cons, lineLength]
      omega
    · refine hbound.advance_before (b := b) ?_ (isLineEndByte_ascii (by simpa using hb))
      rw [hc, show 1 + lineLength body + 1 = lineLength body + 2 by omega]
      simpa [lineLength] using hget
  · obtain ⟨inner, rest, hinner, hlength, _⟩ := commentBody_eq_some hbody
    refine ⟨?_, .of_advance fun hbound => ?_⟩
    · rw [hc, hinner]
      simp only [length_cons, length_append]
      omega
    · refine hbound.advance_past (b := byte '/') ?_ (by decide)
      rw [hc, hinner, hlength]
      simp
  · obtain ⟨tail, htail⟩ := exists_of_decodeFirst? hch
    have hpos := ch.utf8Size_pos
    have hsize : ch.utf8Size - 1 + 1 = ch.utf8Size := by omega
    rw [hsize]
    refine ⟨?_, .of_advance fun hbound => hbound.advance_char hch⟩
    rw [htail, length_append, String.length_utf8EncodeChar]
    omega

/-! ## Runs -/

def TriviaReach.shift (length : Nat) (crossesLine : Bool) : TriviaReach → TriviaReach
  | .clear more crosses => .clear (length + more) (crossesLine || crosses)
  | .unclosed more => .unclosed (length + more)

theorem triviaReachFrom_shift (bytes : List UInt8) (m n : Nat) (x y : Bool) :
    triviaReachFrom bytes (m + n) (x || y) = (triviaReachFrom bytes n y).shift m x := by
  fun_induction triviaReachFrom bytes n y with
  | case1 n y => simp [triviaReachFrom, shift]
  | case2 n y b rest hitem => simp [triviaReachFrom, hitem, shift]
  | case3 n y b rest hitem => simp [triviaReachFrom, hitem, shift]
  | case4 n y b rest more breaks hitem ih =>
    rw [triviaReachFrom, hitem]
    simpa [Nat.add_assoc, Bool.or_assoc] using ih

@[simp] theorem triviaReach_nil : triviaReach [] = .clear 0 false := by
  simp [triviaReach, triviaReachFrom]

theorem triviaReach_of_nothing (h : triviaItem bytes = .nothing) :
    triviaReach bytes = .clear 0 false := by
  cases bytes with
  | nil => exact triviaReach_nil
  | cons b rest => rw [triviaReach, triviaReachFrom, h]

theorem triviaReach_of_unclosed (h : triviaItem bytes = .unclosedComment) :
    triviaReach bytes = .unclosed 0 := by
  cases bytes with
  | nil => simp [triviaItem] at h
  | cons b rest => rw [triviaReach, triviaReachFrom, h]

theorem triviaReach_of_item (h : triviaItem bytes = .item more breaks) :
    triviaReach bytes = (triviaReach (bytes.drop (more + 1))).shift (more + 1) breaks := by
  cases bytes with
  | nil => simp [triviaItem] at h
  | cons b rest =>
    rw [triviaReach, triviaReachFrom, h, drop_succ_cons, triviaReach,
      ← triviaReachFrom_shift]
    simp

/-- A run that ends has no item, or one item and then a run that ends. -/
theorem triviaReach_eq_clear (h : triviaReach bytes = .clear length crosses) :
    (triviaItem bytes = .nothing ∧ length = 0 ∧ crosses = false) ∨
    ∃ more breaks rest x, triviaItem bytes = .item more breaks ∧
      triviaReach (bytes.drop (more + 1)) = .clear rest x ∧ length = more + 1 + rest ∧
      crosses = (breaks || x) := by
  cases hitem : triviaItem bytes with
  | nothing =>
    rw [triviaReach_of_nothing hitem] at h
    cases h
    exact .inl ⟨rfl, rfl, rfl⟩
  | unclosedComment =>
    rw [triviaReach_of_unclosed hitem] at h
    cases h
  | item more breaks =>
    rw [triviaReach_of_item hitem] at h
    cases hrest : triviaReach (bytes.drop (more + 1)) with
    | unclosed rest => rw [hrest] at h; cases h
    | clear rest x =>
      rw [hrest] at h
      simp only [shift, clear.injEq] at h
      exact .inr ⟨more, breaks, rest, x, rfl, hrest, h.1.symm, h.2.symm⟩

/-- A run of trivia stays in the text and moves the cursor onward. -/
theorem triviaReach_onward {c : Cursor} (h : triviaReach c.after = .clear length crosses) :
    length ≤ c.after.length ∧ c.Onward (c.advance length) := by
  induction hsize : c.after.length using Nat.strongRecOn generalizing c length crosses with
  | ind size ih =>
    subst hsize
    rcases triviaReach_eq_clear h with ⟨_, rfl, _⟩ | ⟨more, breaks, rest, x, hitem, hrest, rfl, _⟩
    · rw [advance_zero]
      exact ⟨Nat.zero_le _, .refl c⟩
    · obtain ⟨hle, hstep⟩ := triviaItem_onward hitem
      have hlen : (c.advance (more + 1)).after.length = c.after.length - (more + 1) := by simp
      obtain ⟨hbound, honward⟩ := ih _ (by omega) (c := c.advance (more + 1)) hrest rfl
      rw [advance_advance] at honward
      exact ⟨by omega, hstep.trans honward⟩

/-- Where a run of trivia ends, no trivia follows. -/
theorem triviaItem_after_reach (h : triviaReach bytes = .clear length crosses) :
    triviaItem (bytes.drop length) = .nothing := by
  induction hsize : bytes.length using Nat.strongRecOn generalizing bytes length crosses with
  | ind size ih =>
    subst hsize
    rcases triviaReach_eq_clear h with ⟨hnone, rfl, _⟩ |
      ⟨more, breaks, rest, x, hitem, hrest, rfl, _⟩
    · exact hnone
    · have hne : bytes ≠ [] := by
        rintro rfl
        simp [triviaItem] at hitem
      have hpos : 0 < bytes.length := length_pos_iff.mpr hne
      have hnone := ih _ (by simp; omega) hrest rfl
      rwa [drop_drop] at hnone

theorem triviaReach_drop (h : triviaReach bytes = .clear length crosses) :
    triviaReach (bytes.drop length) = .clear 0 false :=
  triviaReach_of_nothing (triviaItem_after_reach h)

namespace Scan

theorem trivia_eq_ok {c d : Cursor} :
    trivia c = .ok crosses d ↔
      ∃ length, triviaReach c.after = .clear length crosses ∧ d = c.advance length := by
  unfold trivia
  constructor
  · intro h
    split at h
    · rename_i length x hreach
      cases h
      exact ⟨length, hreach, rfl⟩
    · cases h
  · rintro ⟨length, hreach, rfl⟩
    rw [hreach]

theorem trivia_of_clear {c : Cursor} (h : triviaReach c.after = .clear 0 false) :
    trivia c = .ok false c :=
  trivia_eq_ok.mpr ⟨0, h, (advance_zero c).symm⟩

end Scan

end ModuleBridge
