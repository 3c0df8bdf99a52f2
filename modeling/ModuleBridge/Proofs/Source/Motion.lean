import ModuleBridge.Proofs.Text.Encoding

/-!
# Motion of cursors

Every scanning operation moves its cursor onward: the cursor it leaves behind is an `advance` of the
one it started from, and lies between two characters when the first one did. Both facts are kept
together, because all that is proved of a whole reading is a chain of such moves.
-/

namespace ModuleBridge

open List

variable {c d : Cursor} {n : Nat} {b : UInt8} {text : String}

namespace Cursor

theorem ext_of_eq (hbefore : c.before = d.before) (hafter : c.after = d.after) : c = d := by
  cases c
  cases d
  simp_all

@[simp] theorem before_advance (c : Cursor) (n : Nat) :
    (c.advance n).before = (c.after.take n).reverse ++ c.before := by
  simp [advance, reverseAux_eq]

@[simp] theorem pos_advance (c : Cursor) (n : Nat) :
    (c.advance n).pos = c.pos + min n c.after.length := by
  simp [advance]

@[simp] theorem advance_zero (c : Cursor) : c.advance 0 = c :=
  ext_of_eq (by simp) (by simp)

@[simp] theorem pos_rangeTo (c d : Cursor) : (c.rangeTo d).pos = c.pos := rfl

@[simp] theorem stop_rangeTo (c d : Cursor) : (c.rangeTo d).stop = d.pos := rfl

theorem advance_advance (c : Cursor) (m n : Nat) : (c.advance m).advance n = c.advance (m + n) := by
  apply ext_of_eq
  · simp [take_add]
  · simp

theorem advance_min (c : Cursor) (n : Nat) : c.advance (min n c.after.length) = c.advance n := by
  by_cases h : n ≤ c.after.length
  · rw [Nat.min_eq_left h]
  · apply ext_of_eq
    · simp [Nat.min_eq_right (Nat.le_of_not_le h), take_of_length_le (Nat.le_of_not_le h)]
    · simp [Nat.min_eq_right (Nat.le_of_not_le h), drop_eq_nil_of_le (Nat.le_of_not_le h)]

theorem textUpTo_advance (c : Cursor) (n : Nat) :
    c.textUpTo (c.advance n) = textOf (c.after.take n) := by
  have hlength : (c.advance n).pos - c.pos = min n c.after.length := by simp
  rw [textUpTo, hlength]
  by_cases h : n ≤ c.after.length
  · rw [Nat.min_eq_left h]
  · rw [Nat.min_eq_right (Nat.le_of_not_le h), take_length,
      take_of_length_le (Nat.le_of_not_le h)]

def last? (c : Cursor) : Option UInt8 :=
  c.before.head?

theorem last?_advance_succ (hget : c.after[n]? = some b) : (c.advance (n + 1)).last? = some b := by
  rw [last?, before_advance, take_add_one, hget, Option.toList_some, reverse_append]
  rfl

theorem length_bytes (c : Cursor) : c.bytes.length = c.pos + c.after.length := by
  simp [bytes, c.pos_eq]

theorem eq_moveTo (c : Cursor) : c = (atStart c.bytes).advance c.pos := by
  apply ext_of_eq
  · simp [atStart, bytes, c.pos_eq]
  · simp [atStart, bytes, c.pos_eq]

theorem eq_of_pos_eq (hbytes : c.bytes = d.bytes) (hpos : c.pos = d.pos) : c = d := by
  rw [c.eq_moveTo, d.eq_moveTo, hbytes, hpos]

theorem moveTo_pos (hbytes : c.bytes = bytesOf text) : (ofText text).moveTo c.pos = c := by
  have htext : (ofText text).bytes = c.bytes := by
    rw [hbytes]
    rfl
  rw [moveTo, htext, ← eq_moveTo]

/-! ## Boundaries -/

/-- The cursor lies between two characters: the bytes on both sides of it are texts. -/
def IsBoundary (c : Cursor) : Prop :=
  (∃ front, c.before.reverse = bytesOf front) ∧ ∃ back, c.after = bytesOf back

theorem isBoundary_ofText (text : String) : (ofText text).IsBoundary :=
  ⟨⟨"", by simp [ofText, atStart]⟩, text, rfl⟩

section

variable (h : c.IsBoundary)

include h

theorem IsBoundary.isValid (hbytes : c.bytes = bytesOf text) :
    String.Pos.Raw.IsValid text ⟨c.pos⟩ := by
  obtain ⟨⟨front, hfront⟩, back, hback⟩ := h
  rw [String.Pos.Raw.isValid_iff_exists_append]
  refine ⟨front, back, ?_, ?_⟩
  · rw [← bytesOf_inj, bytesOf_append, ← hfront, ← hback]
    exact hbytes.symm
  · have hlen := congrArg List.length hfront
    rw [length_reverse, length_bytesOf, ← c.pos_eq] at hlen
    rw [hlen]
    rfl

theorem IsBoundary.of_cut (front back : String) (hfront : c.after.take n = bytesOf front)
    (hback : c.after.drop n = bytesOf back) : (c.advance n).IsBoundary := by
  obtain ⟨⟨first, hfirst⟩, _⟩ := h
  refine ⟨⟨first ++ front, ?_⟩, back, hback⟩
  simp [hfirst, hfront]

/-- The cursor may stop before an ASCII byte. -/
theorem IsBoundary.advance_before (hn : c.after[n]? = some b) (hb : b < 128) :
    (c.advance n).IsBoundary := by
  obtain ⟨hlt, hget⟩ := List.getElem?_eq_some_iff.mp hn
  obtain ⟨_, text, htext⟩ := id h
  have hsplit : bytesOf text = c.after.take n ++ b :: c.after.drop (n + 1) := by
    rw [← htext, ← hget, getElem_cons_drop, take_append_drop]
  obtain ⟨front, back, _, hfront, hback⟩ := exists_cut_before hsplit hb
  refine h.of_cut front back hfront.symm ?_
  rw [hback, ← hget, getElem_cons_drop]

/-- The cursor may stop after an ASCII byte. -/
theorem IsBoundary.advance_past (hn : c.after[n]? = some b) (hb : b < 128) :
    (c.advance (n + 1)).IsBoundary := by
  have hbefore := h.advance_before hn hb
  obtain ⟨hlt, hget⟩ := List.getElem?_eq_some_iff.mp hn
  obtain ⟨_, text, htext⟩ := id hbefore
  have hcons : bytesOf text = b :: c.after.drop (n + 1) := by
    rw [← htext, after_advance, ← hget, getElem_cons_drop]
  obtain ⟨front, back, _, hfront, hback⟩ := exists_tail hcons hb
  rw [← advance_advance]
  refine hbefore.of_cut front back ?_ ?_
  · rw [htext, hcons, hfront]
    rfl
  · rw [htext, hcons, hback]
    rfl

theorem IsBoundary.advance_end (hn : c.after.length ≤ n) : (c.advance n).IsBoundary := by
  obtain ⟨_, text, htext⟩ := id h
  refine h.of_cut text "" ?_ ?_
  · rw [take_of_length_le hn, htext]
  · rw [drop_eq_nil_of_le hn, bytesOf_empty]

/-- The cursor may pass a whole character. -/
theorem IsBoundary.advance_char {ch : Char} (hc : c.char? = some ch) :
    (c.advance ch.utf8Size).IsBoundary := by
  obtain ⟨_, text, htext⟩ := id h
  have hchars : c.after = text.toList.flatMap String.utf8EncodeChar := by
    rw [htext, bytesOf_eq_flatMap]
  cases hlist : text.toList with
  | nil =>
    obtain ⟨rest, hrest⟩ := exists_of_decodeFirst? hc
    rw [hchars, hlist] at hrest
    simp at hrest
  | cons d rest =>
    rw [hlist, flatMap_cons] at hchars
    have hd : d = ch := by
      rw [char?, hchars, decodeFirst?_utf8EncodeChar] at hc
      exact Option.some.inj hc
    subst hd
    refine h.of_cut (String.ofList [d]) (String.ofList rest) ?_ ?_
    · rw [hchars, bytesOf_ofList, flatMap_singleton, ← String.length_utf8EncodeChar,
        take_left]
    · rw [hchars, bytesOf_ofList, ← String.length_utf8EncodeChar, drop_left]

theorem IsBoundary.exists_char (hne : c.after ≠ []) : ∃ ch, c.char? = some ch := by
  obtain ⟨_, text, htext⟩ := h
  rw [bytesOf_eq_flatMap] at htext
  cases hlist : text.toList with
  | nil => simp [htext, hlist] at hne
  | cons d rest =>
    refine ⟨d, ?_⟩
    rw [char?, htext, hlist, flatMap_cons, decodeFirst?_utf8EncodeChar]

omit h in
theorem stepLength_le (hne : c.after ≠ []) : c.stepLength ≤ c.after.length := by
  unfold stepLength
  split
  · rename_i ch hch
    obtain ⟨rest, hrest⟩ := exists_of_decodeFirst? hch
    rw [hrest, length_append, String.length_utf8EncodeChar]
    omega
  · exact length_pos_iff.mpr hne

theorem IsBoundary.advance_stepLength : (c.advance c.stepLength).IsBoundary := by
  by_cases hne : c.after = []
  · exact h.advance_end (by simp [hne])
  · obtain ⟨ch, hch⟩ := h.exists_char hne
    rw [stepLength, hch]
    exact h.advance_char hch

end

/-- `d` lies in the text of `c`, not before `c`, and is a boundary if `c` is one. -/
structure Onward (c d : Cursor) : Prop where
  reaches : ∃ n, d = c.advance n
  boundary : c.IsBoundary → d.IsBoundary

theorem Onward.refl (c : Cursor) : c.Onward c :=
  ⟨⟨0, (advance_zero c).symm⟩, id⟩

theorem Onward.trans {e : Cursor} (hcd : c.Onward d) (hde : d.Onward e) : c.Onward e := by
  obtain ⟨m, hm⟩ := hcd.reaches
  obtain ⟨n, hn⟩ := hde.reaches
  refine ⟨⟨m + n, ?_⟩, fun h => hde.boundary (hcd.boundary h)⟩
  rw [hn, hm, advance_advance]

theorem Onward.of_advance (h : c.IsBoundary → (c.advance n).IsBoundary) : c.Onward (c.advance n) :=
  ⟨⟨n, rfl⟩, h⟩

theorem Onward.bytes_eq (h : c.Onward d) : d.bytes = c.bytes := by
  obtain ⟨n, rfl⟩ := h.reaches
  exact bytes_advance c n

theorem Onward.pos_le (h : c.Onward d) : c.pos ≤ d.pos := by
  obtain ⟨n, rfl⟩ := h.reaches
  simp

theorem Onward.length_le (h : c.Onward d) : d.after.length ≤ c.after.length := by
  obtain ⟨n, rfl⟩ := h.reaches
  exact advance_le c n

theorem Onward.pos_add_length (h : c.Onward d) :
    d.pos + d.after.length = c.pos + c.after.length := by
  rw [← length_bytes, ← length_bytes, h.bytes_eq]

theorem drop_bytes (c : Cursor) : c.bytes.drop c.pos = c.after := by
  rw [bytes, c.pos_eq, ← length_reverse, drop_left]

theorem take_bytes (c : Cursor) : c.bytes.take c.pos = c.before.reverse := by
  rw [bytes, c.pos_eq, ← length_reverse, take_left]

/-- The text between two cursors is the slice of their range. -/
theorem Onward.slice_eq (h : c.Onward d) (hbytes : c.bytes = bytesOf text) :
    (c.rangeTo d).slice text = c.textUpTo d := by
  have hsize := c.length_bytes
  rw [hbytes, length_bytesOf] at hsize
  have hstop : d.pos ≤ text.utf8ByteSize := by
    have := h.pos_add_length
    omega
  rw [slice_eq_textOf h.pos_le hstop, ← hbytes]
  change textOf ((c.bytes.drop c.pos).take (d.pos - c.pos)) = _
  rw [drop_bytes]
  rfl

end Cursor

end ModuleBridge
