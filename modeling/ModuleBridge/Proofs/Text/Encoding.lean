import ModuleBridge.Source.Cursor

/-!
# Texts and their bytes

A text is recovered from its bytes, and an ASCII byte is always a whole character, so that a text
may be cut on either side of it. All cuts that scanning makes are of this kind or go around one
decoded character.
-/

namespace ModuleBridge

open List
open String (utf8EncodeChar ofList)

variable {b : UInt8} {text : String} {c : Char} {xs ys : List UInt8} {k : Nat}

theorem bytesOf_eq_flatMap (text : String) :
    bytesOf text = text.toList.flatMap utf8EncodeChar := by
  simp [bytesOf, String.toUTF8, ← String.utf8Encode_toList, List.utf8Encode]

@[simp] theorem bytesOf_ofList (chars : List Char) :
    bytesOf (ofList chars) = chars.flatMap utf8EncodeChar := by
  simp [bytesOf_eq_flatMap]

@[simp] theorem bytesOf_append (s t : String) : bytesOf (s ++ t) = bytesOf s ++ bytesOf t := by
  simp [bytesOf_eq_flatMap]

@[simp] theorem bytesOf_empty : bytesOf "" = [] := by
  simp [bytesOf_eq_flatMap]

@[simp] theorem length_bytesOf (text : String) : (bytesOf text).length = text.utf8ByteSize := by
  simp [bytesOf, String.toUTF8]

theorem byteArray_bytesOf (text : String) : (⟨(bytesOf text).toArray⟩ : ByteArray) = text.toUTF8 := by
  simp [bytesOf]

@[simp] theorem textOf_bytesOf (text : String) : textOf (bytesOf text) = text := by
  rw [textOf, byteArray_bytesOf, String.fromUTF8?]
  have hvalid : text.toUTF8.IsValidUTF8 := text.isValidUTF8
  rw [dif_pos hvalid, Option.getD_some]
  exact String.toByteArray_inj.mp rfl

theorem bytesOf_inj {s t : String} : bytesOf s = bytesOf t ↔ s = t := by
  constructor
  · intro h
    rw [← textOf_bytesOf s, h, textOf_bytesOf]
  · intro h
    rw [h]

/-! ## Cutting at ASCII bytes -/

/-- All bytes of a character that takes more than one are above the ASCII range. -/
theorem utf8EncodeChar_eq_of_mem (hmem : b ∈ utf8EncodeChar c) (hb : b < 128) :
    utf8EncodeChar c = [b] := by
  have hlt : b.toNat < 128 := by simpa [UInt8.lt_iff_toNat_lt] using hb
  have high : ∀ n, 128 ≤ n → n < 256 → b ≠ UInt8.ofNat n := by
    intro n hlow hhigh h
    rw [h, UInt8.toNat_ofNat'] at hlt
    omega
  revert hmem
  fun_cases utf8EncodeChar c <;> intro hmem
  · simp_all
  all_goals
    exfalso
    simp only [mem_cons, not_mem_nil, or_false] at hmem
  · rcases hmem with h | h <;> exact high _ (by omega) (by omega) h
  · rcases hmem with h | h | h <;> exact high _ (by omega) (by omega) h
  · rcases hmem with h | h | h | h <;> exact high _ (by omega) (by omega) h

theorem chars_cut_before {chars : List Char}
    (h : chars.flatMap utf8EncodeChar = xs ++ b :: ys) (hb : b < 128) :
    ∃ front back, chars = front ++ back ∧ front.flatMap utf8EncodeChar = xs ∧
      back.flatMap utf8EncodeChar = b :: ys := by
  induction chars generalizing xs with
  | nil => simp at h
  | cons c rest ih =>
    rw [flatMap_cons, append_eq_append_iff] at h
    rcases h with ⟨more, hxs, hrest⟩ | ⟨more, hc, hys⟩
    · obtain ⟨front, back, rfl, hfront, hback⟩ := ih hrest
      exact ⟨c :: front, back, rfl, by rw [flatMap_cons, hfront, hxs], hback⟩
    · cases more with
      | nil =>
        refine ⟨[c], rest, rfl, ?_, ?_⟩
        · simpa using hc
        · simpa using hys.symm
      | cons d more =>
        -- The byte lies inside the encoding of `c`, so it is all of it.
        obtain ⟨rfl, hys⟩ := List.cons.inj hys
        have hmem : b ∈ utf8EncodeChar c := by rw [hc]; simp
        have hone := utf8EncodeChar_eq_of_mem hmem hb
        have hlen : [b].length = (xs ++ b :: more).length := by rw [← hone, hc]
        simp only [length_append, length_cons, length_nil] at hlen
        have hxs : xs = [] := length_eq_zero_iff.mp (by omega)
        have hmore : more = [] := length_eq_zero_iff.mp (by omega)
        refine ⟨[], c :: rest, rfl, by rw [hxs]; rfl, ?_⟩
        rw [flatMap_cons, hone, hys, hmore]

/-- A text can be cut before an ASCII byte. -/
theorem exists_cut_before (h : bytesOf text = xs ++ b :: ys) (hb : b < 128) :
    ∃ front back, text = front ++ back ∧ bytesOf front = xs ∧ bytesOf back = b :: ys := by
  rw [bytesOf_eq_flatMap] at h
  obtain ⟨front, back, hchars, hfront, hback⟩ := chars_cut_before h hb
  refine ⟨ofList front, ofList back, ?_, by simpa using hfront, by simpa using hback⟩
  rw [← String.ofList_append, ← hchars, String.ofList_toList]

theorem exists_tail (h : bytesOf text = b :: ys) (hb : b < 128) :
    ∃ front back, text = front ++ back ∧ bytesOf front = [b] ∧
      bytesOf back = ys := by
  rw [bytesOf_eq_flatMap] at h
  cases hchars : text.toList with
  | nil => simp [hchars] at h
  | cons c rest =>
    rw [hchars, flatMap_cons] at h
    have hmem : b ∈ utf8EncodeChar c := by
      cases hc : utf8EncodeChar c with
      | nil => exact absurd hc String.utf8EncodeChar_ne_nil
      | cons d more => rw [hc] at h; simp_all
    have hone := utf8EncodeChar_eq_of_mem hmem hb
    refine ⟨ofList [c], ofList rest, ?_, ?_, ?_⟩
    · rw [← String.ofList_append, singleton_append, ← hchars, String.ofList_toList]
    · rw [bytesOf_ofList, flatMap_singleton, hone]
    · rw [hone] at h
      simpa using h

theorem exists_rest {front : String} (h : bytesOf text = bytesOf front ++ ys) :
    ∃ back, ys = bytesOf back := by
  have harray : front.toList.utf8Encode ++ ys.toByteArray = text.toList.utf8Encode := by
    apply ByteArray.ext
    apply Array.toList_inj.mp
    simpa [List.utf8Encode, data_toByteArray, ← bytesOf_eq_flatMap] using h.symm
  obtain ⟨rest, hrest⟩ := isPrefix_of_utf8Encode_append_eq_utf8Encode _ harray
  refine ⟨ofList rest, ?_⟩
  rw [bytesOf_eq_flatMap, bytesOf_eq_flatMap, ← hrest, flatMap_append] at h
  rw [bytesOf_ofList]
  exact (append_cancel_left h).symm

/-! ## The first character -/

theorem decodeFirst?_utf8EncodeChar (c : Char) (rest : List UInt8) :
    decodeFirst? (utf8EncodeChar c ++ rest) = some c := by
  have hsize : (utf8EncodeChar c).length ≤ 4 := by
    rw [String.length_utf8EncodeChar]
    exact c.utf8Size_le_four
  have htake : (utf8EncodeChar c ++ rest).take 4 =
      utf8EncodeChar c ++ rest.take (4 - (utf8EncodeChar c).length) := by
    rw [take_append, take_of_length_le hsize]
  have harray : (⟨((utf8EncodeChar c ++ rest).take 4).toArray⟩ : ByteArray) =
      (utf8EncodeChar c).toByteArray ++
        (rest.take (4 - (utf8EncodeChar c).length)).toByteArray := by
    rw [htake]
    apply ByteArray.ext
    simp [data_toByteArray]
  rw [decodeFirst?, harray, ByteArray.utf8DecodeChar?_utf8EncodeChar_append]

/-- What decodes as a character starts with its encoding. -/
theorem exists_of_decodeFirst? {bytes : List UInt8} (h : decodeFirst? bytes = some c) :
    ∃ rest, bytes = utf8EncodeChar c ++ rest := by
  obtain ⟨more, hmore⟩ := ByteArray.exists_of_utf8DecodeChar?_eq_some h
  have hlist := congrArg (fun b : ByteArray => b.data.toList) hmore
  simp only [ByteArray.data_append, Array.toList_append, data_toByteArray] at hlist
  refine ⟨more.data.toList ++ bytes.drop 4, ?_⟩
  rw [← append_assoc, ← hlist, take_append_drop]

/-- Nothing is decoded from the middle of a character. -/
theorem decodeFirst?_inside (hpos : 0 < k) (hk : k < (utf8EncodeChar c).length)
    (rest : List UInt8) : decodeFirst? ((utf8EncodeChar c).drop k ++ rest) = none := by
  refine Option.eq_none_iff_forall_ne_some.mpr fun other hother => ?_
  obtain ⟨tail, htail⟩ := exists_of_decodeFirst? hother
  have hlength : 0 < (utf8EncodeChar other).length := by
    rw [String.length_utf8EncodeChar]
    exact other.utf8Size_pos
  have hsame : (utf8EncodeChar c)[k] = (utf8EncodeChar other)[0] := by
    have hhead := congrArg (·[0]?) htail
    simp only [drop_eq_getElem_cons hk, cons_append, getElem?_cons_zero,
      getElem?_append_left hlength, getElem?_eq_getElem hlength] at hhead
    exact Option.some.inj hhead
  have hfirst : (utf8EncodeChar other)[0].IsUTF8FirstByte :=
    UInt8.isUTF8FirstByte_getElem_utf8EncodeChar.mpr rfl
  rw [← hsame] at hfirst
  have := UInt8.isUTF8FirstByte_getElem_utf8EncodeChar.mp hfirst
  omega

/-- What is decoded inside a text does not depend on what follows the text. -/
theorem decodeFirst?_drop_append (text : String) (hk : k < (bytesOf text).length)
    (r r' : List UInt8) :
    decodeFirst? ((bytesOf text).drop k ++ r) = decodeFirst? ((bytesOf text).drop k ++ r') := by
  rw [bytesOf_eq_flatMap] at hk ⊢
  generalize text.toList = chars at hk ⊢
  induction chars generalizing k with
  | nil => exact absurd hk (Nat.not_lt_zero k)
  | cons c chars ih =>
    rw [flatMap_cons] at hk ⊢
    by_cases hinside : k < (utf8EncodeChar c).length
    · rw [drop_append_of_le_length (Nat.le_of_lt hinside), append_assoc, append_assoc]
      rcases Nat.eq_zero_or_pos k with rfl | hpos
      · rw [drop_zero, decodeFirst?_utf8EncodeChar, decodeFirst?_utf8EncodeChar]
      · rw [decodeFirst?_inside hpos hinside, decodeFirst?_inside hpos hinside]
    · rw [length_append] at hk
      rw [drop_append, drop_eq_nil_of_le (Nat.le_of_not_lt hinside), nil_append]
      exact ih (by omega)

theorem slice_eq_textOf {r : Range} (hr : r.pos ≤ r.stop) (hstop : r.stop ≤ text.utf8ByteSize) :
    r.slice text = textOf (((bytesOf text).drop r.pos).take (r.stop - r.pos)) := by
  have hsize : text.toUTF8.size = text.utf8ByteSize := rfl
  have hextract : text.toUTF8.extract r.pos r.stop =
      ⟨(((bytesOf text).drop r.pos).take (r.stop - r.pos)).toArray⟩ := by
    apply ByteArray.ext
    apply Array.toList_inj.mp
    simp [bytesOf, extract_eq_take_drop]
  unfold Range.slice
  dsimp only
  rw [hsize, Nat.min_eq_left hstop, Nat.min_eq_left hr, hextract]
  rfl

/-- A byte of the ASCII range stands only for its own character. -/
theorem mem_toList_of_mem_bytesOf {ch : Char} (hch : utf8EncodeChar ch = [b]) (hb : b < 128)
    (hmem : b ∈ bytesOf text) : ch ∈ text.toList := by
  rw [bytesOf_eq_flatMap, mem_flatMap] at hmem
  obtain ⟨other, hother, hin⟩ := hmem
  have hread := decodeFirst?_utf8EncodeChar other []
  rw [utf8EncodeChar_eq_of_mem hin hb, ← hch, decodeFirst?_utf8EncodeChar] at hread
  rw [Option.some.inj hread]
  exact hother

end ModuleBridge
