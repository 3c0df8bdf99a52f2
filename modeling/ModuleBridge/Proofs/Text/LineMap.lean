import Mathlib.Data.List.DropRight
import ModuleBridge.Proofs.Text.Encoding
import ModuleBridge.Text.Line

/-!
# Line maps

The starts of lines are zero and the offsets after the line feeds, and halving finds the last of
them that is not past an offset. So an offset stands in the line that counts the line feeds before
it, as many bytes in as there are after the last of them.
-/

namespace ModuleBridge

open List

namespace LineMap

theorem startsAfterFeeds_append (xs ys : List UInt8) (offset : Nat) :
    startsAfterFeeds (xs ++ ys) offset =
      startsAfterFeeds xs offset ++ startsAfterFeeds ys (offset + xs.length) := by
  induction xs generalizing offset with
  | nil => rfl
  | cons b xs ih =>
    simp only [cons_append, startsAfterFeeds, ih, length_cons, Nat.add_right_comm,
      Nat.add_assoc]
    split <;> rfl

@[simp] theorem length_startsAfterFeeds (bytes : List UInt8) (offset : Nat) :
    (startsAfterFeeds bytes offset).length = bytes.count 10 := by
  induction bytes generalizing offset with
  | nil => rfl
  | cons b rest ih => by_cases hb : b = 10 <;> simp [startsAfterFeeds, hb, ih]

theorem bounds_of_mem_startsAfterFeeds {bytes : List UInt8} {offset start : Nat}
    (h : start ∈ startsAfterFeeds bytes offset) :
    offset < start ∧ start ≤ offset + bytes.length := by
  induction bytes generalizing offset with
  | nil => cases h
  | cons b rest ih =>
    have hrest : start ∈ startsAfterFeeds rest (offset + 1) →
        offset < start ∧ start ≤ offset + (b :: rest).length := by
      intro hmem
      have hbounds := ih hmem
      rw [length_cons]
      omega
    unfold startsAfterFeeds at h
    split at h
    · rcases mem_cons.mp h with rfl | hmem
      · exact ⟨Nat.lt_succ_self _, by rw [length_cons]; omega⟩
      · exact hrest hmem
    · exact hrest h

/-! ## Search -/

variable {front back : List Nat} {pos : Nat}

theorem getD_le_iff (hfront : ∀ start ∈ front, start ≤ pos) (hback : ∀ start ∈ back, pos < start)
    {index : Nat} (hindex : index < (front ++ back).length) :
    (front ++ back).getD index 0 ≤ pos ↔ index < front.length := by
  rw [getD_eq_getElem?_getD, getElem?_eq_getElem hindex, Option.getD_some, getElem_append]
  split
  · rename_i hlt
    exact iff_of_true (hfront _ (getElem_mem hlt)) hlt
  · rename_i hge
    exact iff_of_false (Nat.not_le.mpr (hback _ (getElem_mem _))) hge

/-- Halving ends at the last entry that is not past `pos`, which is among the entries looked at. -/
theorem narrow_append (hfront : ∀ start ∈ front, start ≤ pos) (hback : ∀ start ∈ back, pos < start)
    {base size : Nat} (hbase : base < front.length) (hsize : front.length ≤ base + size)
    (hfits : base + size ≤ (front ++ back).length) :
    narrow (front ++ back) pos base size = front.length - 1 := by
  fun_induction narrow (front ++ back) pos base size with
  | case1 base size hone => omega
  | case2 base size hmore hle ih =>
    rw [getD_le_iff hfront hback (by omega)] at hle
    exact ih hle (by omega) (by omega)
  | case3 base size hmore hgt ih =>
    rw [getD_le_iff hfront hback (by omega)] at hgt
    exact ih hbase (by omega) (by omega)

/-- The search finds the last entry that is not past `pos`, or the place right behind it. -/
theorem search_append (hne : front ≠ []) (hfront : ∀ start ∈ front, start ≤ pos)
    (hback : ∀ start ∈ back, pos < start) :
    search (front ++ back) pos = .found (front.length - 1) ∨
      search (front ++ back) pos = .missing front.length := by
  have hpos := length_pos_iff.mpr hne
  have hlt : front.length - 1 < front.length := by omega
  have hindex : narrow (front ++ back) pos 0 (front ++ back).length = front.length - 1 :=
    narrow_append hfront hback hpos (by rw [length_append]; omega) (by omega)
  have hle : front[front.length - 1] ≤ pos := hfront _ (getElem_mem hlt)
  rw [search, hindex, getElem?_append_left hlt, getElem?_eq_getElem hlt]
  dsimp only
  split
  · exact .inl rfl
  · rw [if_pos (by omega), Nat.sub_add_cancel hpos]
    exact .inr rfl

/-! ## Lines -/

/-- Whole lines: bytes that are none or end in a line feed. -/
def AreLines (bytes : List UInt8) : Prop :=
  bytes = [] ∨ ∃ front, bytes = front ++ [10]

/-- Bytes are whole lines and the beginning of one more. -/
theorem exists_lines (bytes : List UInt8) :
    ∃ lines column, bytes = lines ++ column ∧ AreLines lines ∧ 10 ∉ column := by
  refine ⟨bytes.rdropWhile (· != 10), bytes.rtakeWhile (· != 10), ?_, ?_, fun hmem => ?_⟩
  · exact rdropWhile_append_rtakeWhile.symm
  · by_cases hne : bytes.rdropWhile (· != 10) = []
    · exact .inl hne
    · have hlast := rdropWhile_last_not _ _ hne
      refine .inr ⟨(bytes.rdropWhile (· != 10)).dropLast, ?_⟩
      conv_lhs => rw [← dropLast_concat_getLast hne]
      simpa using hlast
  · simpa using mem_rtakeWhile_imp hmem

/-- The last of the starts at or before the end of whole lines is that end. -/
theorem getD_starts_of_areLines {lines : List UInt8} (h : AreLines lines) (rest : List Nat) :
    (0 :: (startsAfterFeeds lines 0 ++ rest)).getD (lines.count 10) 0 = lines.length := by
  rcases h with rfl | ⟨front, rfl⟩
  · rfl
  · have hstarts : startsAfterFeeds (front ++ [10]) 0 =
        startsAfterFeeds front 0 ++ [front.length + 1] := by
      simp [startsAfterFeeds_append, startsAfterFeeds]
    rw [hstarts]
    simp [getD_eq_getElem?_getD]

/-- The starts of lines up to the line of an offset, and those past the offset. -/
theorem exists_starts_append {text : String} {lines column : List UInt8}
    (hbefore : (bytesOf text).take pos = lines ++ column) (hcolumn : 10 ∉ column) :
    ∃ back, (ofText text).starts = (0 :: startsAfterFeeds lines 0) ++ back ∧
      (∀ start ∈ 0 :: startsAfterFeeds lines 0, start ≤ pos) ∧ ∀ start ∈ back, pos < start := by
  have hlength : (lines ++ column).length = min pos (bytesOf text).length := by
    rw [← hbefore, length_take]
  refine ⟨startsAfterFeeds ((bytesOf text).drop pos) (lines ++ column).length, ?_, ?_, ?_⟩
  · have hnone : startsAfterFeeds column lines.length = [] := by
      rw [← length_eq_zero_iff, length_startsAfterFeeds]
      exact count_eq_zero.mpr hcolumn
    change 0 :: startsAfterFeeds (bytesOf text) 0 = _
    conv_lhs => rw [← take_append_drop pos (bytesOf text), hbefore]
    simp [startsAfterFeeds_append, hnone]
  · rw [forall_mem_cons]
    refine ⟨Nat.zero_le _, fun start hmem => ?_⟩
    have hle := (bounds_of_mem_startsAfterFeeds hmem).2
    rw [length_append] at hlength
    omega
  · intro start hmem
    have hbounds := bounds_of_mem_startsAfterFeeds hmem
    rw [length_drop] at hbounds
    omega

/-- An offset is given by the lines before it and the bytes before it in its own. -/
theorem lineColumnOf_ofText {text : String} {lines column : List UInt8}
    (hbefore : (bytesOf text).take pos = lines ++ column) (hlines : AreLines lines)
    (hcolumn : 10 ∉ column) :
    (ofText text).lineColumnOf pos = ⟨lines.count 10, pos - lines.length⟩ ∧
      ∀ line, search (ofText text).starts pos = .missing line → 0 < line := by
  obtain ⟨back, hstarts, hfront, hback⟩ := exists_starts_append hbefore hcolumn
  have hsearch := search_append (cons_ne_nil _ _) hfront hback
  rw [← hstarts, length_cons, length_startsAfterFeeds] at hsearch
  have hline : (ofText text).lineOf pos = lines.count 10 := by
    rcases hsearch with h | h <;> rw [lineOf, h] <;> rfl
  refine ⟨?_, fun line hmissing => ?_⟩
  · rw [lineColumnOf, hline, hstarts, cons_append, getD_starts_of_areLines hlines]
  · rw [hmissing] at hsearch
    simp only [reduceCtorEq, SearchEnd.missing.injEq, false_or] at hsearch
    omega

/-- Every offset, past the end or not, lies in the line that counts the line feeds before it, and
its column counts from the start of the text or the end of the last of these line feeds. A search
that finds no start ends behind one, and there is a start for every line that is told. -/
theorem lineColumnOf_counts (text : String) (pos : Nat) :
    (ofText text).lineOf pos = ((bytesOf text).take pos).count 10 ∧
      (∀ line, search (ofText text).starts pos = .missing line → 0 < line) ∧
      (ofText text).lineOf pos < (ofText text).starts.length ∧
      ∃ lines column, (bytesOf text).take pos = lines ++ column ∧ AreLines lines ∧ 10 ∉ column ∧
        (ofText text).lineColumnOf pos = ⟨(ofText text).lineOf pos, pos - lines.length⟩ := by
  obtain ⟨lines, column, hbefore, hlines, hcolumn⟩ := exists_lines ((bytesOf text).take pos)
  obtain ⟨hplace, hmissing⟩ := lineColumnOf_ofText hbefore hlines hcolumn
  have hline : (ofText text).lineOf pos = lines.count 10 := congrArg LineColumn.line hplace
  refine ⟨?_, hmissing, ?_, lines, column, hbefore, hlines, hcolumn, hline ▸ hplace⟩
  · rw [hline, hbefore, count_append, count_eq_zero.mpr hcolumn, Nat.add_zero]
  · obtain ⟨back, hstarts, _⟩ := exists_starts_append hbefore hcolumn
    rw [hline, hstarts, length_append, length_cons, length_startsAfterFeeds]
    omega

end LineMap

/-- The text holds `place.line` lines before the line of `pos`, and `place.column` bytes of that
line before `pos`. -/
def LineColumn.Denotes (place : LineColumn) (text : String) (pos : Nat) : Prop :=
  ∃ lines column, (bytesOf text).take pos = lines ++ column ∧ pos = (lines ++ column).length ∧
    LineMap.AreLines lines ∧ 10 ∉ column ∧ place = ⟨lines.count 10, column.length⟩

theorem LineMap.lineColumnOf_denotes {text : String} {pos : Nat} (h : pos ≤ text.utf8ByteSize) :
    ((ofText text).lineColumnOf pos).Denotes text pos := by
  obtain ⟨lines, column, hbefore, hlines, hcolumn⟩ := exists_lines ((bytesOf text).take pos)
  have hlength : pos = (lines ++ column).length := by
    rw [← hbefore, length_take, length_bytesOf, Nat.min_eq_left h]
  refine ⟨lines, column, hbefore, hlength, hlines, hcolumn, ?_⟩
  rw [(lineColumnOf_ofText hbefore hlines hcolumn).1]
  simp [hlength]

end ModuleBridge
