import ModuleBridge.Proofs.Source.Trivia

/-!
# Texts of trivia

What a run of trivia is, said without the scanner: blanks, line breaks and closed comments one after
another. A run of trivia inside a text reads exactly such a text; only at the very end of a text a
line comment may lack its line end.
-/

namespace ModuleBridge

open Cursor List
open String (utf8EncodeChar length_utf8EncodeChar)

variable {c : Cursor} {b : UInt8} {breaks : Bool} {ch : Char} {body rest : List UInt8}
  {length : Nat}

def IsSingleLine (text : String) : Prop :=
  ∀ ch ∈ text.toList, ch ≠ '\n' ∧ ch ≠ '\r'

def isLineEnd (ch : Char) : Bool :=
  ch == '\n' || ch == '\r'

theorem isSingleLine_iff {text : String} :
    IsSingleLine text ↔ ∀ ch ∈ text.toList, isLineEnd ch = false := by
  simp [IsSingleLine, isLineEnd]

/-- `TriviaPiece ends item tail breaks`: in front of `tail`, `item` is one piece of trivia, in which
a line ends or not. The characters of `ends` end the line of a comment. -/
inductive TriviaPiece (ends : Char → Bool) : String → String → Bool → Prop where
  | blank {ch : Char} {tail : String} (hch : isBlank ch = true) :
      TriviaPiece ends ch.toString tail false
  | lineBreak {ch : Char} {tail : String} (hch : isLineBreak ch = true) :
      TriviaPiece ends ch.toString tail true
  | line {body tail : String} (hbody : ∀ ch ∈ body.toList, ends ch = false)
      (htail : tail = "" ∨ ∃ ch rest, tail = ch.toString ++ rest ∧ ends ch = true) :
      TriviaPiece ends ("//" ++ body) tail false
  | block {body tail : String} (hbody : ∀ front back, body ≠ front ++ "*/" ++ back) :
      TriviaPiece ends ("/*" ++ body ++ "*/") tail (body.toList.any ends)

/-- Blanks, line breaks and closed comments. -/
inductive TriviaText : String → Prop where
  | empty : TriviaText ""
  | blank {ch : Char} {rest : String} (hch : isBlank ch = true ∨ isLineBreak ch = true)
      (hrest : TriviaText rest) : TriviaText (ch.toString ++ rest)
  | line {body rest : String} {ending : Char} (hbody : IsSingleLine body)
      (hending : ending = '\n' ∨ ending = '\r') (hrest : TriviaText rest) :
      TriviaText ("//" ++ body ++ ending.toString ++ rest)
  | block {body rest : String} (hbody : ∀ front back, body ≠ front ++ "*/" ++ back)
      (hrest : TriviaText rest) : TriviaText ("/*" ++ body ++ "*/" ++ rest)

/-- Trivia up to the end of a text, where a line comment may lack its line end. -/
def ClosingTrivia (text : String) : Prop :=
  TriviaText text ∨ ∃ front body, text = front ++ "//" ++ body ∧ TriviaText front ∧ IsSingleLine body

theorem ClosingTrivia.append {item text : String} (h : ClosingTrivia text)
    (hitem : ∀ rest, TriviaText rest → TriviaText (item ++ rest)) : ClosingTrivia (item ++ text) := by
  rcases h with h | ⟨front, body, rfl, hfront, hbody⟩
  · exact .inl (hitem _ h)
  · exact .inr ⟨item ++ front, body, by simp only [String.append_assoc], hitem _ hfront, hbody⟩

/-! ## Reading gives such texts -/

/-- The bytes between two boundaries are a text. -/
theorem Cursor.IsBoundary.exists_text {n : Nat} (hc : c.IsBoundary) (hd : (c.advance n).IsBoundary) :
    ∃ text, c.after.take n = bytesOf text := by
  obtain ⟨⟨front, hfront⟩, _⟩ := hc
  obtain ⟨⟨longer, hlonger⟩, _⟩ := hd
  have hsplit : bytesOf longer = bytesOf front ++ c.after.take n := by
    simp [← hlonger, ← hfront]
  exact exists_rest hsplit

theorem bytesOf_toString (ch : Char) : bytesOf ch.toString = utf8EncodeChar ch := by
  simp [Char.toString, bytesOf_eq_flatMap]

/-- A blank or a line end of one byte is a character of its own. -/
theorem exists_blank_of_byte :
    isBlankByte b = true ∧ breaks = false ∨ isLineEndByte b = true ∧ breaks = true →
      ∃ ch : Char, utf8EncodeChar ch = [b] ∧
        (isBlank ch = true ∧ breaks = false ∨ isLineBreak ch = true ∧ breaks = true) := by
  intro h
  refine ⟨Char.ofNat b.toNat, ?_⟩
  revert breaks
  apply forall_byte _ b
  decide +kernel

theorem byte_mem_of_char_mem {text : String} (hb : utf8EncodeChar ch = [b])
    (h : ch ∈ text.toList) : b ∈ bytesOf text := by
  rw [bytesOf_eq_flatMap, mem_flatMap]
  exact ⟨ch, h, by simp [hb]⟩

theorem exists_lineEnd_of_byte (hb : isLineEndByte b = true) :
    ∃ ending : Char, utf8EncodeChar ending = [b] ∧ isLineEnd ending = true := by
  rw [isLineEndByte, Bool.or_eq_true, beq_iff_eq, beq_iff_eq] at hb
  rcases hb with rfl | rfl
  · exact ⟨'\n', by decide, rfl⟩
  · exact ⟨'\r', by decide, rfl⟩

theorem exists_byte_of_lineEnd {ending : Char} (h : isLineEnd ending = true) :
    ∃ b, utf8EncodeChar ending = [b] ∧ isLineEndByte b = true := by
  rw [isLineEnd, Bool.or_eq_true, beq_iff_eq, beq_iff_eq] at h
  rcases h with rfl | rfl
  · exact ⟨byte '\n', by decide, by decide⟩
  · exact ⟨byte '\r', by decide, by decide⟩

theorem any_isLineEndByte (text : String) :
    (bytesOf text).any isLineEndByte = text.toList.any isLineEnd := by
  rw [Bool.eq_iff_iff, any_eq_true, any_eq_true]
  constructor
  · rintro ⟨b, hmem, hb⟩
    obtain ⟨ending, hone, hending⟩ := exists_lineEnd_of_byte hb
    exact ⟨ending, mem_toList_of_mem_bytesOf hone (isLineEndByte_ascii hb) hmem, hending⟩
  · rintro ⟨ch, hmem, hch⟩
    obtain ⟨b, hone, hb⟩ := exists_byte_of_lineEnd hch
    exact ⟨b, byte_mem_of_char_mem hone hmem, hb⟩

/-- A text without line end bytes is a single line. -/
theorem isSingleLine_iff_bytes {text : String} :
    IsSingleLine text ↔ ∀ b ∈ bytesOf text, isLineEndByte b = false := by
  have h := any_isLineEndByte text
  rw [Bool.eq_iff_iff] at h
  simpa [isSingleLine_iff] using not_congr h.symm

theorem Cursor.IsBoundary.advance_two {a : UInt8} (hc : c.IsBoundary)
    (hafter : c.after = a :: b :: rest) (ha : a < 128) (hb : b < 128) :
    (c.advance 2).IsBoundary := by
  have hone := hc.advance_past (n := 0) (b := a) (by simp [hafter]) ha
  have htwo := hone.advance_past (n := 0) (b := b) (by simp [hafter]) hb
  rwa [advance_advance] at htwo

theorem lineComment_text (hc : c.IsBoundary) (hafter : c.after = byte '/' :: byte '/' :: body)
    (hbound : (c.advance (2 + lineLength body)).IsBoundary) :
    ∃ inner, c.after.take (2 + lineLength body) = bytesOf ("//" ++ inner) ∧ IsSingleLine inner ∧
      (c.after.drop (2 + lineLength body) = [] ∨
        ∃ b rest, c.after.drop (2 + lineLength body) = b :: rest ∧ isLineEndByte b = true) := by
  have hbody : (c.advance 2).after = body := by simp [hafter]
  rw [← advance_advance] at hbound
  obtain ⟨inner, hinner⟩ := (hc.advance_two hafter (by decide) (by decide)).exists_text hbound
  rw [hbody] at hinner
  refine ⟨inner, ?_, isSingleLine_iff_bytes.mpr ?_, ?_⟩
  · rw [hafter, bytesOf_append, ← hinner, Nat.add_comm]
    rfl
  · intro b hb
    have htake : body.takeWhile (!isLineEndByte ·) = body.take (lineLength body) :=
      prefix_iff_eq_take.mp (List.takeWhile_prefix _)
    rw [← hinner, ← htake] at hb
    simpa using all_eq_true.mp all_takeWhile b hb
  · rw [← drop_drop, show c.after.drop 2 = body from hbody]
    rcases takeWhile_stop (!isLineEndByte ·) body with hend | ⟨b, hget, hb⟩
    · exact .inl (drop_eq_nil_of_le (Nat.le_of_eq hend))
    · obtain ⟨hlt, hget⟩ := List.getElem?_eq_some_iff.mp hget
      refine .inr ⟨b, body.drop (lineLength body + 1), ?_, by simpa using hb⟩
      rw [← hget]
      exact drop_eq_getElem_cons hlt

theorem blockComment_text (hc : c.IsBoundary) (hafter : c.after = byte '/' :: byte '*' :: body)
    (hbody : commentBody body 0 false = some (length, breaks)) :
    ∃ inner, c.after.take (length + 4) = bytesOf ("/*" ++ inner ++ "*/") ∧
      breaks = inner.toList.any isLineEnd ∧ ∀ front back, inner ≠ front ++ "*/" ++ back := by
  obtain ⟨bytes, rest, rfl, rfl, rfl, hfirst⟩ := commentBody_eq_some hbody
  have hopen := hc.advance_two hafter (by decide) (by decide)
  have hinside : (c.advance 2).after = bytes ++ byte '*' :: byte '/' :: rest := by simp [hafter]
  have hstar : (c.advance 2).after[bytes.length]? = some (byte '*') := by
    rw [hinside, getElem?_append_right (Nat.le_refl _), Nat.sub_self]
    rfl
  obtain ⟨inner, hinner⟩ := hopen.exists_text (hopen.advance_before hstar (by decide))
  rw [hinside, take_left] at hinner
  have hmarks : bytesOf "/*" = [byte '/', byte '*'] ∧ bytesOf "*/" = [byte '*', byte '/'] := by
    decide
  refine ⟨inner, ?_, by rw [hinner, any_isLineEndByte, Bool.false_or], ?_⟩
  · have hsplit : c.after = bytesOf ("/*" ++ inner ++ "*/") ++ rest := by
      simp only [hafter, bytesOf_append, ← hinner, hmarks.1, hmarks.2, append_assoc,
        cons_append, nil_append]
    rw [hsplit]
    refine take_left' ?_
    simp only [bytesOf_append, ← hinner, hmarks.1, hmarks.2, length_append, length_cons,
      length_nil]
    omega
  · rintro front back rfl
    refine hfirst (bytesOf front) (bytesOf back ++ [byte '*']) ?_
    simp only [hinner, bytesOf_append, hmarks.2, append_assoc, cons_append,
      nil_append]

theorem TriviaPiece.of_char {ends : Char → Bool} {tail : String}
    (h : isBlank ch = true ∧ breaks = false ∨ isLineBreak ch = true ∧ breaks = true) :
    TriviaPiece ends ch.toString tail breaks := by
  rcases h with ⟨hch, rfl⟩ | ⟨hch, rfl⟩
  · exact .blank hch
  · exact .lineBreak hch

theorem triviaItem_text {more : Nat} (hc : c.IsBoundary)
    (h : triviaItem c.after = .item more breaks) :
    ∃ item tail, c.after.take (more + 1) = bytesOf item ∧
      c.after.drop (more + 1) = bytesOf tail ∧ TriviaPiece isLineEnd item tail breaks := by
  have hbound := (triviaItem_onward h).2.boundary hc
  obtain ⟨-, tail, htail⟩ := id hbound
  rw [after_advance] at htail
  rcases triviaItem_eq_item h with ⟨b, rest, hafter, rfl, hb⟩ | ⟨body, hafter, rfl, rfl⟩ |
    ⟨body, length, hafter, hbody, rfl⟩ | ⟨b, rest, ch, hafter, _, hch, rfl, hkind⟩
  · obtain ⟨ch, hbytes, hch⟩ := exists_blank_of_byte hb
    refine ⟨ch.toString, tail, ?_, htail, .of_char hch⟩
    rw [bytesOf_toString, hbytes, hafter]
    rfl
  · have hmore : 1 + lineLength body + 1 = 2 + lineLength body := by omega
    rw [hmore] at hbound htail ⊢
    obtain ⟨inner, htake, hinner, hend⟩ := lineComment_text hc hafter hbound
    refine ⟨_, tail, htake, htail, .line (isSingleLine_iff.mp hinner) ?_⟩
    rw [htail] at hend
    rcases hend with hnil | ⟨b, rest, hrest, hb⟩
    · exact .inl (bytesOf_inj.mp (hnil.trans bytesOf_empty.symm))
    · obtain ⟨ending, hone, hending⟩ := exists_lineEnd_of_byte hb
      have hfront : bytesOf tail = bytesOf ending.toString ++ rest := by
        rw [hrest, bytesOf_toString, hone]
        rfl
      obtain ⟨last, rfl⟩ := exists_rest hfront
      rw [← bytesOf_append, bytesOf_inj] at hfront
      exact .inr ⟨ending, last, hfront, hending⟩
  · obtain ⟨inner, htake, rfl, hinner⟩ := blockComment_text hc hafter hbody
    exact ⟨_, tail, htake, htail, .block hinner⟩
  · obtain ⟨rest', hrest⟩ := exists_of_decodeFirst? hch
    have hsize : ch.utf8Size - 1 + 1 = ch.utf8Size := Nat.sub_add_cancel ch.utf8Size_pos
    refine ⟨ch.toString, tail, ?_, htail, .of_char hkind.symm⟩
    rw [bytesOf_toString, hsize, hrest, ← length_utf8EncodeChar, take_left]

theorem TriviaPiece.closed_or_line {item tail : String} (h : TriviaPiece isLineEnd item tail breaks) :
    (∀ text, TriviaText text → TriviaText (item ++ text)) ∨
    ∃ body, item = "//" ++ body ∧ IsSingleLine body ∧
      (tail = "" ∨ ∃ ch rest, tail = ch.toString ++ rest ∧ isLineEnd ch = true) := by
  cases h with
  | blank hch => exact .inl fun _ htext => .blank (.inl hch) htext
  | lineBreak hch => exact .inl fun _ htext => .blank (.inr hch) htext
  | line hbody hend => exact .inr ⟨_, rfl, isSingleLine_iff.mpr hbody, hend⟩
  | block hbody => exact .inl fun _ htext => .block hbody htext

theorem triviaItem_lineEnd (hb : isLineEndByte b = true) (rest : List UInt8) :
    triviaItem (b :: rest) = .item 0 true := by
  have hblank : isBlankByte b = false := by
    revert hb
    apply forall_byte _ b
    decide +kernel
  simp only [triviaItem, hblank, hb, Bool.false_eq_true, if_false, if_true]

/-- A run of trivia is empty, or goes on after a whole item, or is an open line comment at the end
of the text. -/
theorem triviaReach_step {crosses : Bool} (hc : c.IsBoundary)
    (h : triviaReach c.after = .clear length crosses) :
    length = 0 ∨
    (∃ item n rest x, c.after.take n = bytesOf item ∧ 0 < n ∧ n ≤ c.after.length ∧
      (c.advance n).IsBoundary ∧ triviaReach (c.advance n).after = .clear rest x ∧
      length = n + rest ∧ ∀ text, TriviaText text → TriviaText (item ++ text)) ∨
    ∃ body, c.after.take length = bytesOf ("//" ++ body) ∧ IsSingleLine body ∧
      c.after.length = length := by
  rcases triviaReach_eq_clear h with ⟨_, rfl, _⟩ | ⟨more, breaks, rest, x, hitem, hrest, rfl, _⟩
  · exact .inl rfl
  · obtain ⟨hle, honward⟩ := triviaItem_onward hitem
    have hbound := honward.boundary hc
    obtain ⟨item, tail, htake, htail, hpiece⟩ := triviaItem_text hc hitem
    rcases hpiece.closed_or_line with happend | ⟨body, rfl, hbody, hend⟩
    · exact .inr (.inl ⟨item, more + 1, rest, x, htake, Nat.succ_pos _, hle, hbound, hrest, rfl,
        happend⟩)
    · rw [htail] at hrest
      rcases hend with rfl | ⟨ending, less, rfl, hending⟩
      · rw [bytesOf_empty, triviaReach_nil] at hrest
        cases hrest
        exact .inr (.inr ⟨body, htake, hbody, Nat.le_antisymm (drop_eq_nil_iff.mp htail) hle⟩)
      · -- The line end after the comment is the next item of the run.
        obtain ⟨b, hone, hb⟩ := exists_byte_of_lineEnd hending
        rw [bytesOf_append, bytesOf_toString, hone, singleton_append] at hrest htail
        have hafter : (c.advance (more + 1)).after = b :: bytesOf less := htail
        have hpast := hbound.advance_past (n := 0) (b := b) (by rw [hafter]; rfl)
          (isLineEndByte_ascii hb)
        rw [advance_advance] at hpast
        rcases triviaReach_eq_clear hrest with ⟨hnone, _, _⟩ |
          ⟨more', breaks', rest, y, hitem', hless, rfl, _⟩
        · rw [triviaItem_lineEnd hb] at hnone
          cases hnone
        · rw [triviaItem_lineEnd hb] at hitem'
          cases hitem'
          refine .inr (.inl ⟨"//" ++ body ++ ending.toString, more + 1 + 1, rest, y, ?_,
            Nat.succ_pos _, ?_, hpast, ?_, by omega,
            fun text htext => .line hbody (by simpa [isLineEnd] using hending) htext⟩)
          · rw [take_add, htake, htail, bytesOf_append _ ending.toString, bytesOf_toString, hone]
            rfl
          · have hlength := congrArg List.length htail
            simp only [length_drop, length_cons] at hlength
            omega
          · rw [← advance_advance, after_advance, hafter]
            exact hless

/-- A run of trivia is a text of trivia; the last line comment of a text may be open. -/
theorem triviaReach_text {crosses : Bool} (hc : c.IsBoundary)
    (h : triviaReach c.after = .clear length crosses) :
    ∃ text, c.after.take length = bytesOf text ∧
      (TriviaText text ∨ c.after.length = length ∧ ClosingTrivia text) := by
  induction hsize : c.after.length using Nat.strongRecOn generalizing c length crosses with
  | ind size ih =>
    subst hsize
    rcases triviaReach_step hc h with rfl |
      ⟨item, n, rest, x, htake, hpos, hle, hbound, hrest, rfl, happend⟩ | ⟨body, htake, hbody, hend⟩
    · exact ⟨"", by simp, .inl .empty⟩
    · have hlength : (c.advance n).after.length + n = c.after.length := by
        simp only [after_advance, length_drop]
        omega
      obtain ⟨text, htext, hkind⟩ := ih _ (by omega) hbound hrest rfl
      refine ⟨item ++ text, ?_, ?_⟩
      · rw [take_add, htake, bytesOf_append, ← htext]
        rfl
      · rcases hkind with htrivia | ⟨hend, hclosing⟩
        · exact .inl (happend _ htrivia)
        · exact .inr ⟨by omega, hclosing.append happend⟩
    · exact ⟨_, htake, .inr ⟨hend, .inr ⟨"", body, by simp, .empty, hbody⟩⟩⟩

/-! ## Such texts are read -/

theorem commentBody_of_first {start : Nat} {before : Bool}
    (hfirst : ∀ front back, body ++ [byte '*'] ≠ front ++ byte '*' :: byte '/' :: back) :
    commentBody (body ++ byte '*' :: byte '/' :: rest) start before =
      some (start + body.length, before || body.any isLineEndByte) := by
  induction body generalizing start before with
  | nil => simp [commentBody]
  | cons a body ih =>
    have htail : ∀ front back, body ++ [byte '*'] ≠ front ++ byte '*' :: byte '/' :: back := by
      intro front back heq
      exact hfirst (a :: front) back (by rw [cons_append, heq, cons_append])
    have hrest : commentBody (body ++ byte '*' :: byte '/' :: rest) (start + 1)
        (before || isLineEndByte a) = _ := ih htail
    cases hhead : body ++ [byte '*'] with
    | nil => simp at hhead
    | cons b more =>
      have hsplit : body ++ byte '*' :: byte '/' :: rest = b :: (more ++ byte '/' :: rest) := by
        rw [← cons_append, ← hhead]
        simp
      have hopen : ¬(a == byte '*' && b == byte '/') = true := by
        rw [Bool.and_eq_true, beq_iff_eq, beq_iff_eq]
        rintro ⟨rfl, rfl⟩
        exact hfirst [] more (by rw [cons_append, hhead]; rfl)
      rw [cons_append, hsplit, commentBody, if_neg hopen, ← hsplit, hrest]
      simp [Bool.or_assoc, Nat.add_comm, Nat.add_left_comm]

/-- No closing mark among the characters, none among the bytes. -/
theorem noClose_bytes {body : String} (h : ∀ front back, body ≠ front ++ "*/" ++ back) :
    ∀ front back, bytesOf body ++ [byte '*'] ≠ front ++ byte '*' :: byte '/' :: back := by
  intro front back heq
  have hlast : back ≠ [] := by
    rintro rfl
    have hend : some (byte '*') = some (byte '/') := by simpa using congrArg List.getLast? heq
    exact absurd hend (by decide)
  obtain ⟨less, z, rfl⟩ : ∃ less z, back = less ++ [z] :=
    ⟨_, _, (dropLast_concat_getLast hlast).symm⟩
  have hsplit : bytesOf body ++ [byte '*'] = (front ++ byte '*' :: byte '/' :: less) ++ [z] := by
    rw [heq]
    simp
  have hbytes := (append_inj' hsplit rfl).1
  obtain ⟨first, second, rfl, rfl, hsecond⟩ := exists_cut_before hbytes (by decide)
  have hmark : bytesOf second = bytesOf "*/" ++ less := by
    rw [hsecond]
    rfl
  obtain ⟨last, rfl⟩ := exists_rest hmark
  rw [← bytesOf_append, bytesOf_inj] at hmark
  exact h first last (by rw [hmark, String.append_assoc])

theorem ascii_blank (n : Fin 128) :
    isBlank (Char.ofNat n) = true ∨ isLineBreak (Char.ofNat n) = true →
      utf8EncodeChar (Char.ofNat n) = [UInt8.ofNat n] ∧
        isLineEndByte (UInt8.ofNat n) = isLineBreak (Char.ofNat n) ∧
        isBlankByte (UInt8.ofNat n) = !isLineBreak (Char.ofNat n) := by
  revert n
  decide +kernel

/-- The first byte of a character above the ASCII range is above it too. -/
theorem exists_cons_of_not_ascii (hch : ¬ch.val < 128) :
    ∃ b more, utf8EncodeChar ch = b :: more ∧ ¬b < 128 := by
  cases hbytes : utf8EncodeChar ch with
  | nil => exact absurd hbytes String.utf8EncodeChar_ne_nil
  | cons b more =>
    refine ⟨b, more, rfl, fun hb => hch ?_⟩
    have hone := utf8EncodeChar_eq_of_mem (c := ch) (b := b) (by simp [hbytes]) hb
    have hsize : ch.utf8Size = 1 := by
      rw [← length_utf8EncodeChar, hone]
      rfl
    have hle := Char.utf8Size_eq_one_iff.mp hsize
    exact UInt32.lt_of_le_of_lt hle (by decide)

theorem triviaItem_blank (hch : isBlank ch = true ∨ isLineBreak ch = true) (rest : List UInt8) :
    triviaItem (utf8EncodeChar ch ++ rest) = .item (ch.utf8Size - 1) (isLineBreak ch) := by
  by_cases hascii : ch.val < 128
  · have hnat : ch.toNat < 128 := hascii
    have hbytes := ascii_blank ⟨ch.toNat, hnat⟩
    rw [Char.ofNat_toNat] at hbytes
    obtain ⟨hone, hend, hblank⟩ := hbytes hch
    have hsize : ch.utf8Size = 1 := by rw [← length_utf8EncodeChar, hone]; rfl
    rw [hone, hsize]
    cases hbreak : isLineBreak ch <;> simp [triviaItem, hblank, hend, hbreak]
  · obtain ⟨b, more, hbytes, hb⟩ := exists_cons_of_not_ascii hascii
    have hread := decodeFirst?_utf8EncodeChar ch rest
    rw [hbytes, cons_append] at hread
    have hblank : isBlankByte b = false := Bool.eq_false_iff.mpr fun h => hb (isBlankByte_ascii h)
    have hend : isLineEndByte b = false := Bool.eq_false_iff.mpr fun h => hb (isLineEndByte_ascii h)
    have hslash : (b == byte '/') = false := by
      refine beq_eq_false_iff_ne.mpr ?_
      rintro rfl
      exact hb (by decide)
    rw [hbytes, cons_append]
    simp only [triviaItem, hblank, hend, hslash, hb, hread, Bool.false_eq_true, if_false]
    cases hbreak : isLineBreak ch with
    | true => rfl
    | false =>
      have hblank : isBlank ch = true := by simpa [hbreak] using hch
      simp [hblank]

theorem triviaReach_append {item rest : List UInt8} {breaks x : Bool} {n : Nat} (hpos : item ≠ [])
    (hitem : triviaItem (item ++ rest) = .item (item.length - 1) breaks)
    (hrest : triviaReach rest = .clear n x) :
    triviaReach (item ++ rest) = .clear (item.length + n) (breaks || x) := by
  have hlength : item.length - 1 + 1 = item.length :=
    Nat.sub_add_cancel (length_pos_iff.mpr hpos)
  rw [triviaReach_of_item hitem, hlength, drop_left, hrest]
  rfl

theorem lineLength_append (hbody : ∀ x ∈ body, isLineEndByte x = false)
    (hrest : ∀ b ∈ rest.head?, isLineEndByte b = true) :
    lineLength (body ++ rest) = body.length := by
  have hall : ∀ x ∈ body, (!isLineEndByte x) = true := fun x hx => by rw [hbody x hx]; rfl
  have hstop : rest.takeWhile (!isLineEndByte ·) = [] := by
    cases rest with
    | nil => rfl
    | cons b rest => simp [hrest b rfl]
  rw [lineLength, takeWhile_append_of_pos hall, hstop, append_nil]

theorem bytesOf_lineComment (body : String) :
    bytesOf ("//" ++ body) = byte '/' :: byte '/' :: bytesOf body := by
  rw [bytesOf_append]
  rfl

theorem bytesOf_blockComment (body : String) :
    bytesOf ("/*" ++ body ++ "*/") =
      byte '/' :: byte '*' :: (bytesOf body ++ [byte '*', byte '/']) := by
  rw [bytesOf_append, bytesOf_append]
  rfl

theorem triviaItem_lineComment {body : String} {rest : List UInt8} (hbody : IsSingleLine body)
    (hrest : ∀ b ∈ rest.head?, isLineEndByte b = true) :
    triviaItem (bytesOf ("//" ++ body) ++ rest) =
      .item ((bytesOf ("//" ++ body)).length - 1) false := by
  have hlength : 1 + lineLength (bytesOf body ++ rest) = (bytesOf body).length + 1 := by
    rw [lineLength_append (isSingleLine_iff_bytes.mp hbody) hrest, Nat.add_comm]
  rw [bytesOf_lineComment]
  exact congrArg (TriviaItem.item · false) hlength

theorem triviaItem_block {breaksLine : Bool}
    (h : commentBody body 0 false = some (length, breaksLine)) :
    triviaItem (byte '/' :: byte '*' :: body) = .item (length + 3) breaksLine := by
  have hblank : isBlankByte (byte '/') = false := by decide
  have hend : isLineEndByte (byte '/') = false := by decide
  have hstar : (byte '*' == byte '/') = false := by decide
  simp only [triviaItem, hblank, hend, hstar, h, beq_self_eq_true, if_true, Bool.false_eq_true,
    if_false]

theorem triviaItem_blockComment {body : String} (hbody : ∀ front back, body ≠ front ++ "*/" ++ back)
    (rest : List UInt8) :
    triviaItem (bytesOf ("/*" ++ body ++ "*/") ++ rest) =
      .item ((bytesOf ("/*" ++ body ++ "*/")).length - 1) ((bytesOf body).any isLineEndByte) := by
  have hread : commentBody (bytesOf body ++ byte '*' :: byte '/' :: rest) 0 false = _ :=
    commentBody_of_first (noClose_bytes hbody)
  have hinput : bytesOf ("/*" ++ body ++ "*/") ++ rest =
      byte '/' :: byte '*' :: (bytesOf body ++ byte '*' :: byte '/' :: rest) := by
    rw [bytesOf_blockComment]
    simp only [cons_append, append_assoc, nil_append]
  have hlength : (bytesOf ("/*" ++ body ++ "*/")).length - 1 = 0 + (bytesOf body).length + 3 := by
    rw [bytesOf_blockComment]
    simp only [length_cons, length_append, length_nil]
    omega
  rw [hinput, hlength]
  exact triviaItem_block hread

/-- A run of trivia may start with `item`. -/
def StartsRun (item : String) : Prop :=
  ∀ ⦃rest n x⦄, triviaReach rest = .clear n x →
    ∃ y, triviaReach (bytesOf item ++ rest) = .clear ((bytesOf item).length + n) y

theorem startsRun_blank (hch : isBlank ch = true ∨ isLineBreak ch = true) :
    StartsRun ch.toString := by
  intro rest n x hrest
  have hitem := triviaItem_blank hch rest
  rw [← length_utf8EncodeChar] at hitem
  rw [bytesOf_toString]
  exact ⟨_, triviaReach_append String.utf8EncodeChar_ne_nil hitem hrest⟩

theorem startsRun_line {body : String} {ending : Char} (hbody : IsSingleLine body)
    (hending : ending = '\n' ∨ ending = '\r') : StartsRun ("//" ++ body ++ ending.toString) := by
  intro rest n x hrest
  obtain ⟨b, hone, hb⟩ := exists_byte_of_lineEnd (by simpa [isLineEnd] using hending)
  have hline : triviaReach (b :: rest) = .clear (1 + n) (true || x) :=
    @triviaReach_append [b] rest _ _ _ (by simp) (triviaItem_lineEnd hb _) hrest
  have hne : bytesOf ("//" ++ body) ≠ [] := by
    rw [bytesOf_lineComment]
    exact cons_ne_nil _ _
  have hcomment := triviaReach_append hne (triviaItem_lineComment hbody (by simpa using hb)) hline
  refine ⟨true, ?_⟩
  rw [bytesOf_append _ ending.toString, bytesOf_toString, hone, append_assoc, singleton_append,
    hcomment, length_append, Nat.add_assoc]
  rfl

theorem startsRun_block {body : String} (hbody : ∀ front back, body ≠ front ++ "*/" ++ back) :
    StartsRun ("/*" ++ body ++ "*/") := by
  intro rest n x hrest
  have hne : bytesOf ("/*" ++ body ++ "*/") ≠ [] := by
    rw [bytesOf_blockComment]
    exact cons_ne_nil _ _
  exact ⟨_, triviaReach_append hne (triviaItem_blockComment hbody rest) hrest⟩

/-- A text of trivia is passed whole when no trivia follows it. -/
theorem triviaReach_of_text {gap : String} (h : TriviaText gap) (hrest : triviaItem rest = .nothing) :
    ∃ crosses, triviaReach (bytesOf gap ++ rest) = .clear (bytesOf gap).length crosses := by
  have hstep : ∀ {item gap : String}, StartsRun item →
      (∃ x, triviaReach (bytesOf gap ++ rest) = .clear (bytesOf gap).length x) →
      ∃ x, triviaReach (bytesOf (item ++ gap) ++ rest) = .clear (bytesOf (item ++ gap)).length x := by
    rintro item gap hitem ⟨x, hx⟩
    rw [bytesOf_append, append_assoc, length_append]
    exact hitem hx
  induction h with
  | empty => exact ⟨false, by simpa using triviaReach_of_nothing hrest⟩
  | blank hch _ ih => exact hstep (startsRun_blank hch) ih
  | line hbody hending _ ih => exact hstep (startsRun_line hbody hending) ih
  | block hbody _ ih => exact hstep (startsRun_block hbody) ih

end ModuleBridge
