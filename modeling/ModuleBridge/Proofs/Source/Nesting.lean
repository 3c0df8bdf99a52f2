import ModuleBridge.Proofs.Source.Copy
import ModuleBridge.Proofs.Source.TriviaText

/-!
# Nested code

Code in which every delimiter has its match: plain characters, strings, comments, groups in braces,
and templates whose substitutions hold such code again. The types carry what the grammar asks for,
so that a value is a text of the grammar. A block passes such code as if nothing stood there: it
leaves the stack of open enclosures as it was. Main statement: `block_nested`.
-/

namespace ModuleBridge

open Cursor List Option
open String (utf8EncodeChar utf8EncodeChar_ne_nil)

variable {b quote : UInt8} {rest front : List UInt8} {ch x : Char} {mark : QuoteMark} {c : Cursor}
  {stack : List Enclosure} {n : Nat}

/-! ## The grammar -/

def delimiters : List Char :=
  ['\'', '"', '\x60', '/', '\x7b', '\x7d']

/-- A character that opens and closes nothing. -/
structure PlainChar where
  char : Char
  plain : char ∉ delimiters

inductive QuoteMark where
  | single
  | double

def QuoteMark.char : QuoteMark → Char
  | .single => '\''
  | .double => '"'

/-- One step of a string between its quotes. -/
inductive StringItem (mark : QuoteMark) where
  | plain (ch : Char) (h : ch ∉ [mark.char, '\\', '\n', '\r'])
  /-- A backslash takes any one character along. -/
  | escape (ch : Char)
  /-- A backslash takes both characters of a line end along. -/
  | continuation

def StringItem.chars {mark : QuoteMark} : StringItem mark → List Char
  | .plain ch _ => [ch]
  | .escape ch => ['\\', ch]
  | .continuation => ['\\', '\r', '\n']

/-- The text of a template between its backticks and substitutions. -/
structure TemplateChunk where
  text : String
  backtick : '\x60' ∉ text.toList
  backslash : '\\' ∉ text.toList
  opening : ∀ front back, text ≠ front ++ "$\x7b" ++ back

/-- The body of a block comment, up to the first closing mark. -/
structure BlockCommentBody where
  text : String
  unclosed : ∀ front back, text ≠ front ++ "*/" ++ back

/-- The rest of a line after the mark of a line comment. -/
structure LineCommentBody where
  text : String
  singleLine : IsSingleLine text

mutual

/-- Code whose delimiters are well nested. -/
inductive NestedCode where
  | empty
  | plain (c : PlainChar) (rest : NestedCode)
  | string (mark : QuoteMark) (items : List (StringItem mark)) (rest : NestedCode)
  | blockComment (body : BlockCommentBody) (rest : NestedCode)
  | lineComment (body : LineCommentBody) (rest : NestedCode)
  | group (inner rest : NestedCode)
  | template (inside : NestedTemplate) (rest : NestedCode)

/-- What stands between the backticks of a template: chunks of text with substitutions between
them. -/
inductive NestedTemplate where
  | chunk (text : TemplateChunk)
  | substitution (text : TemplateChunk) (inner : NestedCode) (rest : NestedTemplate)

end

def stringText (mark : QuoteMark) (items : List (StringItem mark)) : String :=
  String.ofList (mark.char :: items.flatMap StringItem.chars ++ [mark.char])

mutual

def NestedCode.text : NestedCode → String
  | .empty => ""
  | .plain c rest => c.char.toString ++ rest.text
  | .string mark items rest => stringText mark items ++ rest.text
  | .blockComment body rest => "/*" ++ body.text ++ "*/" ++ rest.text
  | .lineComment body rest => "//" ++ body.text ++ "\n" ++ rest.text
  | .group inner rest => "\x7b" ++ inner.text ++ "\x7d" ++ rest.text
  | .template inside rest => "\x60" ++ inside.text ++ "\x60" ++ rest.text

def NestedTemplate.text : NestedTemplate → String
  | .chunk text => text.text
  | .substitution text inner rest =>
    text.text ++ "$\x7b" ++ inner.text ++ "\x7d" ++ rest.text

end

/-! ## Characters and their bytes -/

/-- The byte of an ASCII character stands in no other character. -/
theorem byte_not_mem_encode (hx : utf8EncodeChar x = [byte x]) (hascii : byte x < 128)
    (hne : ch ≠ x) : byte x ∉ utf8EncodeChar ch := by
  intro hmem
  have hread := decodeFirst?_utf8EncodeChar ch []
  rw [utf8EncodeChar_eq_of_mem hmem hascii, ← hx, decodeFirst?_utf8EncodeChar] at hread
  exact hne (some.inj hread).symm

/-- A mark that starts in the ASCII range stands in the text where its bytes do. -/
theorem exists_mark {text mark : String} {xs ys more : List UInt8}
    (hmark : bytesOf mark = b :: more) (hb : b < 128)
    (h : bytesOf text = xs ++ (bytesOf mark ++ ys)) :
    ∃ front back, text = front ++ mark ++ back := by
  have hcut : bytesOf text = xs ++ b :: (more ++ ys) := by rw [h, hmark, cons_append]
  obtain ⟨front, back, rfl, _, hback⟩ := exists_cut_before hcut hb
  have hrest : bytesOf back = bytesOf mark ++ ys := by rw [hback, hmark, cons_append]
  obtain ⟨last, rfl⟩ := exists_rest hrest
  rw [← bytesOf_append, bytesOf_inj] at hrest
  exact ⟨front, last, by rw [hrest, String.append_assoc]⟩

theorem ascii_code (n : Fin 128) :
    isBlank (Char.ofNat n) = false → isLineBreak (Char.ofNat n) = false → Char.ofNat n ≠ '/' →
      utf8EncodeChar (Char.ofNat n) = [UInt8.ofNat n] ∧
        startsCode (UInt8.ofNat n) = true := by
  revert n
  decide +kernel

theorem isAnyOf_delimiters_of_high : ¬b < 128 → isAnyOf delimiters b = false := by
  apply forall_byte _ b
  decide +kernel

theorem utf8EncodeChar_of_mem_delimiters (hx : x ∈ delimiters) :
    utf8EncodeChar x = [byte x] := by
  simp only [delimiters, mem_cons, not_mem_nil, or_false] at hx
  rcases hx with rfl | rfl | rfl | rfl | rfl | rfl <;> rfl

theorem PlainChar.isAnyOf_delimiters (p : PlainChar) :
    ∀ b ∈ utf8EncodeChar p.char, isAnyOf delimiters b = false := by
  intro b hb
  by_cases hlow : b < 128
  · refine any_eq_false.mpr fun x hx => ?_
    rw [beq_iff_eq]
    rintro rfl
    have hne : p.char ≠ x := by
      rintro rfl
      exact p.plain hx
    exact byte_not_mem_encode (utf8EncodeChar_of_mem_delimiters hx) hlow hne hb
  · exact isAnyOf_delimiters_of_high hlow

/-- A byte above the ASCII range starts trivia only as the first of a blank or a line break. -/
theorem triviaItem_of_high (hb : ¬b < 128)
    (hread : ∀ ch, decodeFirst? (b :: rest) = some ch → isBlank ch = false ∧ isLineBreak ch = false) :
    triviaItem (b :: rest) = .nothing := by
  obtain ⟨hblank, hend, hslash⟩ :
      isBlankByte b = false ∧ isLineEndByte b = false ∧ (b == byte '/') = false := by
    revert hb
    apply forall_byte _ b
    decide +kernel
  simp only [triviaItem, hblank, hend, hslash, hb, Bool.false_eq_true, if_false]
  cases hch : decodeFirst? (b :: rest) with
  | none => rfl
  | some ch =>
    obtain ⟨hblank, hbreak⟩ := hread ch hch
    simp only [hblank, hbreak, Bool.false_eq_true, if_false]

/-- Nowhere in a character that is no blank, no line break and no slash trivia starts. -/
theorem triviaItem_char {k : Nat} (hblank : isBlank ch = false) (hbreak : isLineBreak ch = false)
    (hslash : ch ≠ '/') (hk : k < (utf8EncodeChar ch).length) (rest : List UInt8) :
    triviaItem ((utf8EncodeChar ch).drop k ++ rest) = .nothing := by
  by_cases hascii : ch.val < 128
  · have hcode := ascii_code ⟨ch.toNat, hascii⟩
    rw [Char.ofNat_toNat] at hcode
    obtain ⟨hone, hstarts⟩ := hcode hblank hbreak hslash
    rw [hone, length_singleton] at hk
    obtain rfl : k = 0 := by omega
    rw [hone]
    exact triviaItem_of_startsCode hstarts rest
  · have hhigh : ¬(utf8EncodeChar ch)[k] < 128 := by
      intro hlow
      have hone := utf8EncodeChar_eq_of_mem (getElem_mem hk) hlow
      obtain ⟨b, more, hbytes, hb⟩ := exists_cons_of_not_ascii hascii
      rw [hone] at hbytes
      exact hb ((List.cons.inj hbytes).1 ▸ hlow)
    have hread : ∀ other, decodeFirst? ((utf8EncodeChar ch).drop k ++ rest) = some other →
        isBlank other = false ∧ isLineBreak other = false := by
      intro other hother
      rcases Nat.eq_zero_or_pos k with rfl | hpos
      · rw [drop_zero, decodeFirst?_utf8EncodeChar] at hother
        cases hother
        exact ⟨hblank, hbreak⟩
      · rw [decodeFirst?_inside hpos hk] at hother
        cases hother
    rw [drop_eq_getElem_cons hk, cons_append] at hread ⊢
    exact triviaItem_of_high hhigh hread

/-! ## Bytes that leave the stack as it is -/

/-- Wherever the bytes stand, scanning goes on after them with the same enclosures open. -/
def Keeps (stack : List Enclosure) (bytes : List UInt8) : Prop :=
  ∀ ⦃c rest⦄, c.after = bytes ++ rest →
    closeEnclosures stack c = closeEnclosures stack (c.advance bytes.length)

theorem Cursor.after_of_append {rest : List UInt8} (hc : c.after = front ++ rest) :
    (c.advance front.length).after = rest := by
  rw [after_advance, hc, drop_left]

theorem Cursor.after_of_cons (hc : c.after = b :: rest) : (c.advance 1).after = rest :=
  @after_of_append [b] c rest hc

theorem Keeps.nil : Keeps stack [] := by
  intro c rest _
  rw [length_nil, advance_zero]

theorem Keeps.append {back : List UInt8} (hfront : Keeps stack front) (hback : Keeps stack back) :
    Keeps stack (front ++ back) := by
  intro c rest hc
  rw [append_assoc] at hc
  rw [hfront hc, hback (after_of_append hc), advance_advance, length_append]

/-- A group in braces, as deep as `depth` inside the block that was opened at `start`. -/
abbrev Enclosure.braces (depth start : Nat) : Enclosure :=
  .block (byte '\x7b') (byte '\x7d') depth start

section Block

variable {depth start : Nat} {outer : List Enclosure} {c : Cursor}

theorem closeEnclosures_item {more : Nat} {breaks : Bool}
    (h : triviaItem c.after = .item more breaks) :
    closeEnclosures (.braces depth start :: outer) c =
      closeEnclosures (.braces depth start :: outer) (c.advance (more + 1)) := by
  rw [closeEnclosures_block, closeEnclosures_block, Scan.trivia, Scan.trivia, triviaReach_of_item h,
    after_advance]
  cases triviaReach (c.after.drop (more + 1)) with
  | clear length crosses => simp only [TriviaReach.shift, advance_advance]
  | unclosed length => simp only [TriviaReach.shift, advance_advance]

theorem Keeps.of_item {bytes : List UInt8} (hne : bytes ≠ [])
    (h : ∀ rest, ∃ breaks, triviaItem (bytes ++ rest) = .item (bytes.length - 1) breaks) :
    Keeps (.braces depth start :: outer) bytes := by
  intro c rest hc
  obtain ⟨breaks, hitem⟩ := h rest
  rw [← hc] at hitem
  rw [closeEnclosures_item hitem, Nat.sub_add_cancel (length_pos_iff.mpr hne)]

variable {b : UInt8} {rest : List UInt8}

theorem trivia_of_nothing (hc : c.after = b :: rest) (hitem : triviaItem (b :: rest) = .nothing) :
    Scan.trivia c = .ok false c :=
  Scan.trivia_of_clear (by rw [hc]; exact triviaReach_of_nothing hitem)

theorem closeEnclosures_byte (hc : c.after = b :: rest) (hitem : triviaItem (b :: rest) = .nothing)
    (hliteral : startsLiteral b = false) :
    closeEnclosures (.braces depth start :: outer) c =
      closeEnclosures (blockAfter (byte '\x7b') (byte '\x7d') depth start outer b)
        (c.advance 1) := by
  rw [closeEnclosures_round (trivia_of_nothing hc hitem) hc, literalStart_of_plain hliteral]

theorem closeEnclosures_plain (hc : c.after = b :: rest) (hitem : triviaItem (b :: rest) = .nothing)
    (hb : isAnyOf delimiters b = false) :
    closeEnclosures (.braces depth start :: outer) c =
      closeEnclosures (.braces depth start :: outer) (c.advance 1) := by
  obtain ⟨hliteral, hopener, hcloser⟩ :
      startsLiteral b = false ∧ (b == byte '\x7b') = false ∧ (b == byte '\x7d') = false := by
    revert hb
    apply forall_byte _ b
    decide +kernel
  rw [closeEnclosures_byte hc hitem hliteral]
  simp only [blockAfter, hopener, hcloser, Bool.false_eq_true, if_false]

theorem closeEnclosures_opener (hc : c.after = byte '\x7b' :: rest) :
    closeEnclosures (.braces depth start :: outer) c =
      closeEnclosures (.braces (depth + 1) start :: outer) (c.advance 1) :=
  closeEnclosures_byte hc (triviaItem_of_startsCode (by decide) _) (by decide)

theorem closeEnclosures_closer (hc : c.after = byte '\x7d' :: rest) :
    closeEnclosures (.braces (depth + 1) start :: outer) c =
      closeEnclosures (.braces depth start :: outer) (c.advance 1) :=
  closeEnclosures_byte hc (triviaItem_of_startsCode (by decide) _) (by decide)

theorem closeEnclosures_lastCloser (hc : c.after = byte '\x7d' :: rest) :
    closeEnclosures (.braces 0 start :: outer) c = closeEnclosures outer (c.advance 1) :=
  closeEnclosures_byte hc (triviaItem_of_startsCode (by decide) _) (by decide)

theorem PlainChar.keeps (p : PlainChar) :
    Keeps (.braces depth start :: outer) (utf8EncodeChar p.char) := by
  by_cases hblank : isBlank p.char = true ∨ isLineBreak p.char = true
  · refine .of_item utf8EncodeChar_ne_nil fun rest => ?_
    rw [String.length_utf8EncodeChar]
    exact ⟨_, triviaItem_blank hblank rest⟩
  · obtain ⟨hblank, hbreak⟩ := not_or.mp hblank
    have hslash : p.char ≠ '/' := fun h => p.plain (by simp [h, delimiters])
    intro c rest hc
    have hstep : ∀ k ≤ (utf8EncodeChar p.char).length,
        closeEnclosures (.braces depth start :: outer) c =
          closeEnclosures (.braces depth start :: outer) (c.advance k) := by
      intro k
      induction k with
      | zero => simp
      | succ k ih =>
        intro hk
        have hitem :=
          triviaItem_char (by simpa using hblank) (by simpa using hbreak) hslash hk rest
        have hafter : (c.advance k).after = (utf8EncodeChar p.char).drop k ++ rest := by
          rw [after_advance, hc, drop_append_of_le_length (Nat.le_of_succ_le hk)]
        rw [drop_eq_getElem_cons hk, cons_append] at hitem hafter
        rw [ih (Nat.le_of_succ_le hk), ← advance_advance,
          closeEnclosures_plain hafter hitem (p.isAnyOf_delimiters _ (getElem_mem hk))]
    exact hstep _ (Nat.le_refl _)

theorem BlockCommentBody.keeps (body : BlockCommentBody) :
    Keeps (.braces depth start :: outer) (bytesOf ("/*" ++ body.text ++ "*/")) := by
  refine .of_item ?_ fun rest => ⟨_, triviaItem_blockComment body.unclosed rest⟩
  rw [bytesOf_blockComment]
  exact cons_ne_nil _ _

/-- A line comment reaches to the end of its line, and the line end is an item of its own. -/
theorem LineCommentBody.keeps (body : LineCommentBody) :
    Keeps (.braces depth start :: outer) (bytesOf ("//" ++ body.text ++ "\n")) := by
  have hfeed : bytesOf "\n" = [byte '\n'] := rfl
  have hline : Keeps (.braces depth start :: outer) [byte '\n'] :=
    .of_item (by simp) fun rest => ⟨true, triviaItem_lineEnd (by decide) rest⟩
  intro c rest hc
  rw [bytesOf_append _ "\n", hfeed, append_assoc] at hc
  have hitem := @triviaItem_lineComment _ (byte '\n' :: rest) body.singleLine
    (fun b hb => by cases hb; decide)
  rw [← singleton_append, ← hc] at hitem
  have hpos : 0 < (bytesOf ("//" ++ body.text)).length := by
    rw [bytesOf_lineComment]
    exact Nat.succ_pos _
  rw [closeEnclosures_item hitem, Nat.sub_add_cancel hpos, hline (after_of_append hc),
    advance_advance, bytesOf_append _ "\n", hfeed, length_append]

/-! ### Strings -/

def itemBytes {mark : QuoteMark} (items : List (StringItem mark)) : List UInt8 :=
  items.flatMap fun item => item.chars.flatMap utf8EncodeChar

theorem bytesOf_stringText (mark : QuoteMark) (items : List (StringItem mark)) :
    bytesOf (stringText mark items) =
      byte mark.char :: (itemBytes items ++ [byte mark.char]) := by
  have hmark : utf8EncodeChar mark.char = [byte mark.char] := by cases mark <;> rfl
  rw [stringText, bytesOf_ofList, flatMap_append, flatMap_cons, flatMap_singleton,
    hmark, flatMap_assoc]
  rfl

/-- A string goes on over bytes that neither end it nor escape. -/
theorem quotedReach_bytes {bytes : List UInt8}
    (h : ∀ b ∈ bytes, isLineEndByte b = false ∧ b ≠ byte '\\' ∧ b ≠ quote) :
    quotedReach quote (bytes ++ rest) n = quotedReach quote rest (n + bytes.length) := by
  induction bytes generalizing n with
  | nil => rfl
  | cons b bytes ih =>
    obtain ⟨⟨hend, hslash, hquote⟩, hbytes⟩ := forall_mem_cons.mp h
    rw [cons_append, quotedReach.eq_def]
    simp only [hend, beq_eq_false_iff_ne.mpr hslash, beq_eq_false_iff_ne.mpr hquote,
      Bool.false_eq_true, if_false]
    rw [ih hbytes, length_cons, Nat.add_assoc, Nat.add_comm 1]

/-- A string goes on over a backslash and the character after it, unless that is the first half of
a line end. -/
theorem quotedReach_escape (hquote : quote < 128)
    (hrest : ch = '\r' → rest.head? ≠ some (byte '\n')) :
    quotedReach quote (byte '\\' :: (utf8EncodeChar ch ++ rest)) n =
      quotedReach quote rest (n + 1 + (utf8EncodeChar ch).length) := by
  cases hbytes : utf8EncodeChar ch with
  | nil => exact absurd hbytes utf8EncodeChar_ne_nil
  | cons a more =>
    -- Only a character of a single byte has bytes of the ASCII range.
    have hhigh : more ≠ [] → ∀ b ∈ a :: more, ¬b < 128 := by
      intro hmore b hb hlow
      rw [← hbytes] at hb
      rw [utf8EncodeChar_eq_of_mem hb hlow] at hbytes
      exact hmore (List.cons.inj hbytes).2.symm
    have hpair : ∀ {d : UInt8} {tail : List UInt8}, more ++ rest = d :: tail →
        ¬(a == byte '\r' && d == byte '\n') = true := by
      intro d tail htail
      rw [Bool.and_eq_true, beq_iff_eq, beq_iff_eq]
      rintro ⟨rfl, rfl⟩
      cases more with
      | nil =>
        have hreturn : utf8EncodeChar '\r' = [byte '\r'] := by decide
        refine hrest ?_ (by rw [← nil_append rest, htail]; rfl)
        have hdecode := decodeFirst?_utf8EncodeChar ch []
        rw [hbytes, ← hreturn, decodeFirst?_utf8EncodeChar] at hdecode
        exact (some.inj hdecode).symm
      | cons b more =>
        exact hhigh (cons_ne_nil _ _) (byte '\r') mem_cons_self (by decide)
    have hmore : ∀ b ∈ more, isLineEndByte b = false ∧ b ≠ byte '\\' ∧ b ≠ quote := by
      intro b hb
      have hb' := hhigh (ne_nil_of_mem hb) b (mem_cons_of_mem _ hb)
      refine ⟨Bool.eq_false_iff.mpr fun h => hb' (isLineEndByte_ascii h), ?_, ?_⟩
      · rintro rfl
        exact hb' (by decide)
      · rintro rfl
        exact hb' hquote
    have hlength : n + 1 + (a :: more).length = n + 2 + more.length := by
      rw [length_cons]
      omega
    rw [hlength, ← quotedReach_bytes hmore, cons_append, quotedReach.eq_def]
    dsimp only
    rw [if_neg (by decide), if_pos (by decide)]
    cases htail : more ++ rest with
    | nil => rfl
    | cons d tail =>
      dsimp only
      rw [if_neg (hpair htail)]

theorem quotedReach_continuation :
    quotedReach quote (byte '\\' :: byte '\r' :: byte '\n' :: rest) n =
      quotedReach quote rest (n + 3) := by
  rw [quotedReach.eq_def]
  rfl

/-- The bytes of a plain character of a string neither end it nor escape. -/
theorem StringItem.plain_bytes (h : ch ∉ [mark.char, '\\', '\n', '\r']) :
    ∀ b ∈ utf8EncodeChar ch,
      isLineEndByte b = false ∧ b ≠ byte '\\' ∧ b ≠ byte mark.char := by
  simp only [mem_cons, not_mem_nil, or_false, not_or] at h
  obtain ⟨hmark, hslash, hfeed, hreturn⟩ := h
  have hquote : utf8EncodeChar mark.char = [byte mark.char] ∧ byte mark.char < 128 := by
    cases mark <;> exact ⟨rfl, by decide⟩
  intro b hb
  refine ⟨?_, ?_, ?_⟩
  · refine Bool.or_eq_false_iff.mpr ⟨beq_eq_false_iff_ne.mpr ?_, beq_eq_false_iff_ne.mpr ?_⟩
    · rintro rfl
      exact byte_not_mem_encode rfl (by decide) hfeed hb
    · rintro rfl
      exact byte_not_mem_encode rfl (by decide) hreturn hb
  · rintro rfl
    exact byte_not_mem_encode rfl (by decide) hslash hb
  · rintro rfl
    exact byte_not_mem_encode hquote.1 hquote.2 hmark hb

theorem head?_itemBytes (items : List (StringItem mark)) (rest : List UInt8) :
    (itemBytes items ++ byte mark.char :: rest).head? ≠ some (byte '\n') := by
  cases items with
  | nil => cases mark <;> exact fun h => absurd (some.inj h) (by decide)
  | cons item items =>
    cases item with
    | escape ch => exact fun h => absurd (some.inj h) (by decide)
    | continuation => exact fun h => absurd (some.inj h) (by decide)
    | plain ch h =>
      cases hbytes : utf8EncodeChar ch with
      | nil => exact absurd hbytes utf8EncodeChar_ne_nil
      | cons a more =>
        intro hhead
        have ha : a = byte '\n' := by
          simpa [itemBytes, StringItem.chars, hbytes] using hhead
        have hend := (StringItem.plain_bytes h a (by rw [hbytes]; exact mem_cons_self)).1
        rw [ha] at hend
        exact absurd hend (by decide)

theorem quotedReach_items (items : List (StringItem mark)) (rest : List UInt8) (n : Nat) :
    quotedReach (byte mark.char) (itemBytes items ++ byte mark.char :: rest) n =
      .closed (n + (itemBytes items).length + 1) := by
  induction items generalizing n with
  | nil =>
    have hmark :
        isLineEndByte (byte mark.char) = false ∧ (byte mark.char == byte '\\') = false := by
      cases mark <;> decide
    change quotedReach (byte mark.char) (byte mark.char :: rest) n = .closed (n + 1)
    rw [quotedReach.eq_def]
    simp only [hmark, Bool.false_eq_true, if_false, beq_self_eq_true, if_true]
  | cons item items ih =>
    have hmore : itemBytes (item :: items) =
        item.chars.flatMap utf8EncodeChar ++ itemBytes items := rfl
    rw [hmore, append_assoc, length_append]
    cases item with
    | plain ch h =>
      have hchars : (StringItem.plain ch h).chars.flatMap utf8EncodeChar =
          utf8EncodeChar ch := append_nil _
      rw [hchars, quotedReach_bytes (StringItem.plain_bytes h), ih, Nat.add_assoc n]
    | escape ch =>
      have hchars : (.escape ch : StringItem mark).chars.flatMap utf8EncodeChar =
          byte '\\' :: utf8EncodeChar ch := congrArg (_ :: ·) (append_nil _)
      have hquote : byte mark.char < 128 := by cases mark <;> decide
      rw [hchars, cons_append, quotedReach_escape hquote fun _ => head?_itemBytes _ _, ih,
        length_cons, Nat.add_assoc n 1, Nat.add_comm 1, Nat.add_assoc n]
    | continuation =>
      have hchars : (.continuation : StringItem mark).chars.flatMap utf8EncodeChar =
          [byte '\\', byte '\r', byte '\n'] := rfl
      rw [hchars, cons_append, cons_append, cons_append, nil_append,
        quotedReach_continuation, ih, Nat.add_assoc n 3]
      rfl

theorem keeps_string (mark : QuoteMark) (items : List (StringItem mark)) :
    Keeps (.braces depth start :: outer) (bytesOf (stringText mark items)) := by
  intro c rest hc
  rw [bytesOf_stringText, cons_append, append_assoc, singleton_append] at hc
  have hmark : isQuote (byte mark.char) = true ∧ startsCode (byte mark.char) = true := by
    cases mark <;> decide
  have hliteral : literalStart c.before (byte mark.char)
      (itemBytes items ++ byte mark.char :: rest) = .span ((itemBytes items).length + 1) := by
    simp only [literalStart, hmark, if_true, quotedReach_items, Nat.zero_add]
  have hspace := trivia_of_nothing hc (triviaItem_of_startsCode hmark.2 _)
  rw [closeEnclosures_round hspace hc, hliteral, bytesOf_stringText, length_cons,
    length_append, length_singleton]

/-! ### Templates -/

/-- A template goes on over a chunk, unless the byte after it makes a substitution of its end. -/
theorem closeEnclosures_chunk {bytes : List UInt8}
    (hbytes : ∀ b ∈ bytes, b ≠ byte '\x60' ∧ b ≠ byte '\\')
    (hopening : ¬[byte '$', byte '\x7b'] <:+: bytes) (hrest : rest.head? ≠ some (byte '\x7b'))
    (hc : c.after = bytes ++ rest) :
    closeEnclosures (.template start :: outer) c =
      closeEnclosures (.template start :: outer) (c.advance bytes.length) := by
  induction bytes generalizing c with
  | nil => rw [length_nil, advance_zero]
  | cons b bytes ih =>
    obtain ⟨⟨hbacktick, hbackslash⟩, hmore⟩ := forall_mem_cons.mp hbytes
    have hplain : ¬(b == byte '$' && (bytes ++ rest).head? == some (byte '\x7b')) = true := by
      rw [Bool.and_eq_true, beq_iff_eq, beq_iff_eq]
      rintro ⟨rfl, hhead⟩
      cases bytes with
      | nil => exact hrest hhead
      | cons d bytes =>
        obtain rfl : d = byte '\x7b' := some.inj hhead
        exact hopening (prefix_append [byte '$', byte '\x7b'] bytes).isInfix
    have hshorter : ¬[byte '$', byte '\x7b'] <:+: bytes := fun h =>
      hopening (h.trans (infix_cons infix_rfl))
    rw [closeEnclosures_template, hc]
    simp only [cons_append, beq_eq_false_iff_ne.mpr hbacktick,
      beq_eq_false_iff_ne.mpr hbackslash, Bool.false_eq_true, if_false, if_neg hplain]
    rw [ih hmore hshorter (after_of_cons hc), advance_advance, length_cons,
      Nat.add_comm 1]

theorem TemplateChunk.bytes (chunk : TemplateChunk) :
    ∀ b ∈ bytesOf chunk.text, b ≠ byte '\x60' ∧ b ≠ byte '\\' := by
  intro b hb
  constructor
  · rintro rfl
    exact chunk.backtick (mem_toList_of_mem_bytesOf rfl (by decide) hb)
  · rintro rfl
    exact chunk.backslash (mem_toList_of_mem_bytesOf rfl (by decide) hb)

theorem TemplateChunk.noOpening (chunk : TemplateChunk) :
    ¬[byte '$', byte '\x7b'] <:+: bytesOf chunk.text := by
  rintro ⟨xs, ys, h⟩
  have hmark : bytesOf "$\x7b" = [byte '$', byte '\x7b'] := rfl
  rw [← hmark, append_assoc] at h
  obtain ⟨front, back, htext⟩ := exists_mark hmark (by decide) h.symm
  exact chunk.opening front back htext

/-- A chunk before the end of its template, or before a substitution. -/
theorem TemplateChunk.passed (chunk : TemplateChunk) (hrest : rest.head? ≠ some (byte '\x7b'))
    (hc : c.after = bytesOf chunk.text ++ rest) :
    closeEnclosures (.template start :: outer) c =
      closeEnclosures (.template start :: outer) (c.advance (bytesOf chunk.text).length) :=
  closeEnclosures_chunk chunk.bytes chunk.noOpening hrest hc

theorem closeEnclosures_backtick (hc : c.after = byte '\x60' :: rest) :
    closeEnclosures (.template start :: outer) c = closeEnclosures outer (c.advance 1) := by
  rw [closeEnclosures_template, hc]
  rfl

theorem closeEnclosures_substitution (hc : c.after = byte '$' :: byte '\x7b' :: rest) :
    closeEnclosures (.template start :: outer) c =
      closeEnclosures (.braces 0 (c.pos + 1) :: .template start :: outer) (c.advance 2) := by
  rw [closeEnclosures_template, hc]
  rfl

theorem closeEnclosures_openTemplate (hc : c.after = byte '\x60' :: rest) :
    closeEnclosures (.braces depth start :: outer) c =
      closeEnclosures (.template c.pos :: .braces depth start :: outer) (c.advance 1) := by
  have hspace := trivia_of_nothing hc (triviaItem_of_startsCode (by decide) _)
  rw [closeEnclosures_round hspace hc]
  rfl

/-- Around bytes that an inner group passes, braces are passed too. -/
theorem Keeps.group {bytes : List UInt8}
    (h : Keeps (.braces (depth + 1) start :: outer) bytes) :
    Keeps (.braces depth start :: outer) (byte '\x7b' :: (bytes ++ [byte '\x7d'])) := by
  intro c rest hc
  rw [cons_append, append_assoc, singleton_append] at hc
  have hinner := after_of_cons hc
  rw [closeEnclosures_opener hc, h hinner, closeEnclosures_closer (after_of_append hinner),
    advance_advance, advance_advance, length_cons, length_append,
    length_singleton, Nat.add_comm 1]

end Block

/-! ## Nested code is passed -/

mutual

/-- Nested code leaves the enclosures around it as they are. -/
theorem NestedCode.keeps : ∀ (code : NestedCode) (depth start : Nat) (outer : List Enclosure),
    Keeps (.braces depth start :: outer) (bytesOf code.text)
  | .empty, _, _, _ => by
      rw [NestedCode.text, bytesOf_empty]
      exact .nil
  | .plain c rest, depth, start, outer => by
      rw [NestedCode.text, bytesOf_append, bytesOf_toString]
      exact c.keeps.append (rest.keeps depth start outer)
  | .string mark items rest, depth, start, outer => by
      rw [NestedCode.text, bytesOf_append]
      exact (keeps_string mark items).append (rest.keeps depth start outer)
  | .blockComment body rest, depth, start, outer => by
      rw [NestedCode.text, bytesOf_append]
      exact body.keeps.append (rest.keeps depth start outer)
  | .lineComment body rest, depth, start, outer => by
      rw [NestedCode.text, bytesOf_append]
      exact body.keeps.append (rest.keeps depth start outer)
  | .group inner rest, depth, start, outer => by
      have hgroup : bytesOf ("\x7b" ++ inner.text ++ "\x7d") =
          byte '\x7b' :: (bytesOf inner.text ++ [byte '\x7d']) := by
        rw [bytesOf_append, bytesOf_append]
        rfl
      rw [NestedCode.text, bytesOf_append, hgroup]
      exact (inner.keeps (depth + 1) start outer).group.append (rest.keeps depth start outer)
  | .template inside rest, depth, start, outer => by
      have htemplate : bytesOf ("\x60" ++ inside.text ++ "\x60") =
          byte '\x60' :: (bytesOf inside.text ++ [byte '\x60']) := by
        rw [bytesOf_append, bytesOf_append]
        rfl
      rw [NestedCode.text, bytesOf_append, htemplate]
      refine Keeps.append ?_ (rest.keeps depth start outer)
      intro c after hc
      rw [cons_append, append_assoc, singleton_append] at hc
      rw [closeEnclosures_openTemplate hc, inside.closes c.pos _ (after_of_cons hc),
        advance_advance, length_cons, length_append, length_singleton,
        Nat.add_comm 1]

/-- A template ends at the backtick after its chunks and substitutions. -/
theorem NestedTemplate.closes : ∀ (inside : NestedTemplate) (start : Nat) (outer : List Enclosure)
    ⦃c : Cursor⦄ ⦃tail : List UInt8⦄, c.after = bytesOf inside.text ++ byte '\x60' :: tail →
    closeEnclosures (.template start :: outer) c =
      closeEnclosures outer (c.advance ((bytesOf inside.text).length + 1))
  | .chunk text, start, outer, c, tail, hc => by
      rw [NestedTemplate.text] at hc ⊢
      have hrest : (byte '\x60' :: tail).head? ≠ some (byte '\x7b') := fun h =>
        absurd (some.inj h) (by decide)
      rw [text.passed hrest hc, closeEnclosures_backtick (after_of_append hc),
        advance_advance]
  | .substitution text inner rest, start, outer, c, tail, hc => by
      have hbytes : bytesOf (NestedTemplate.substitution text inner rest).text =
          bytesOf text.text ++ byte '$' :: byte '\x7b' ::
            (bytesOf inner.text ++ byte '\x7d' :: bytesOf rest.text) := by
        rw [NestedTemplate.text]
        simp only [bytesOf_append, append_assoc]
        rfl
      rw [hbytes] at hc ⊢
      simp only [append_assoc, cons_append] at hc
      have hrest : (byte '$' :: byte '\x7b' :: (bytesOf inner.text ++ byte '\x7d' ::
          (bytesOf rest.text ++ byte '\x60' :: tail))).head? ≠ some (byte '\x7b') := fun h =>
        absurd (some.inj h) (by decide)
      have hopening := after_of_append hc
      have hinner : ((c.advance (bytesOf text.text).length).advance 2).after =
          bytesOf inner.text ++ byte '\x7d' :: (bytesOf rest.text ++ byte '\x60' :: tail) := by
        rw [after_advance, hopening]
        rfl
      have hcloser := after_of_append hinner
      rw [text.passed hrest hc, closeEnclosures_substitution hopening, inner.keeps 0 _ _ hinner,
        closeEnclosures_lastCloser hcloser, rest.closes start outer (after_of_cons hcloser)]
      simp only [advance_advance, length_append, length_cons]
      congr 2
      omega

end

def NestedCode.block (code : NestedCode) : String :=
  "\x7b" ++ code.text ++ "\x7d"

theorem NestedCode.bytesOf_block (code : NestedCode) :
    bytesOf code.block = byte '\x7b' :: (bytesOf code.text ++ [byte '\x7d']) := by
  rw [block, bytesOf_append, bytesOf_append]
  rfl

theorem Scan.block_of_nested (code : NestedCode) (hc : c.after = bytesOf code.block ++ rest) :
    Scan.block (byte '\x7b') (byte '\x7d') c =
      .ok (c.rangeTo (c.advance (bytesOf code.block).length))
        (c.advance (bytesOf code.block).length) := by
  rw [code.bytesOf_block, cons_append, append_assoc, singleton_append] at hc
  have hcode := after_of_cons hc
  have hend := after_of_append hcode
  have hstop : ((c.advance 1).advance (bytesOf code.text).length).advance 1 =
      c.advance (bytesOf code.block).length := by
    rw [advance_advance, advance_advance, code.bytesOf_block, length_cons,
      length_append, length_singleton, Nat.add_comm 1]
  have hclose : closeEnclosures [.braces 0 c.pos] (c.advance 1) =
      .ok () (c.advance (bytesOf code.block).length) := by
    rw [code.keeps 0 c.pos [] hcode, closeEnclosures_lastCloser hend, hstop, closeEnclosures]
  rw [Scan.block, byte?, hc, head?_cons, if_pos (beq_self_eq_true _), hclose]

/-- Wherever a block of nested code stands in a text, it is passed exactly: from its brace to the
brace that matches it. -/
theorem block_nested (front rest : String) (code : NestedCode) :
    Scan.block (byte '\x7b') (byte '\x7d')
        ((ofText (front ++ code.block ++ rest)).moveTo front.utf8ByteSize) =
      .ok ⟨front.utf8ByteSize, (front ++ code.block).utf8ByteSize⟩
        ((ofText (front ++ code.block ++ rest)).moveTo
          (front ++ code.block).utf8ByteSize) := by
  have hmove : ∀ n, (ofText (front ++ code.block ++ rest)).moveTo n =
      (ofText (front ++ code.block ++ rest)).advance n := fun _ => rfl
  have hfront : (ofText (front ++ code.block ++ rest)).after =
      bytesOf front ++ (bytesOf code.block ++ bytesOf rest) := by
    rw [← List.append_assoc, ← bytesOf_append, ← bytesOf_append]
    rfl
  have hblock := Cursor.after_of_append hfront
  rw [hmove, hmove, ← length_bytesOf, ← length_bytesOf, bytesOf_append, List.length_append,
    ← Cursor.advance_advance, Scan.block_of_nested code hblock, rangeTo, pos_advance,
    pos_advance, hblock, hfront]
  simp [ofText, atStart]

end ModuleBridge
