import ModuleBridge.Proofs.Source.Code
import ModuleBridge.Proofs.Source.TriviaText

/-!
# Where names end

A name is read as the longest run of the ASCII characters of names. What follows it may go on with
it nevertheless: an escape, or a letter above the ASCII range. `EndsNames` is the judgement that an
operation succeeds after a name only where no name goes on, because it needs trivia or punctuation
there.
-/

namespace ModuleBridge

open Cursor List

variable {c start last d : Cursor} {b : UInt8} {rest : List UInt8} {mark word : String}
  {depth : Nat}

/-- Whether a character goes on with a name before it: an ASCII character of names, a backslash, or
a character above the ASCII range that is neither a blank nor a line break. -/
def continuesName (ch : Char) : Bool :=
  if ch.val < 128 then isNamePart (byte ch) || ch == '\\' else !(isBlank ch || isLineBreak ch)

/-- An ASCII byte that goes on with no name. -/
def isSeparator (b : UInt8) : Bool :=
  b < 128 && !isNamePart b && b != byte '\\'

namespace Cursor

/-- No name goes on at the cursor. -/
def endsName (c : Cursor) : Bool :=
  !c.char?.any continuesName

/-- No ASCII character of names stands at the cursor. -/
def pastName (c : Cursor) : Bool :=
  !c.byte?.any isNamePart

theorem IsBoundary.char_of_ascii (h : c.IsBoundary) (hc : c.after = b :: rest) (hb : b < 128) :
    ∃ ch, c.char? = some ch ∧ ch.val < 128 ∧ byte ch = b := by
  obtain ⟨ch, hch⟩ := h.exists_char (by simp [hc])
  obtain ⟨more, hmore⟩ := exists_of_decodeFirst? hch
  have hmem : b ∈ String.utf8EncodeChar ch := by
    cases hbytes : String.utf8EncodeChar ch with
    | nil => exact absurd hbytes String.utf8EncodeChar_ne_nil
    | cons first others =>
      rw [hbytes, hc, cons_append] at hmore
      rw [(List.cons.inj hmore).1]
      exact mem_cons_self
  have hone := utf8EncodeChar_eq_of_mem hmem hb
  have hsize : ch.utf8Size = 1 := by
    rw [← String.length_utf8EncodeChar, hone]
    rfl
  have hle := Char.utf8Size_eq_one_iff.mp hsize
  rw [String.utf8EncodeChar_eq_singleton hsize] at hone
  exact ⟨ch, hch, UInt32.lt_of_le_of_lt hle (by decide), (List.cons.inj hone).1⟩

theorem endsName_of_nil (hc : c.after = []) : c.endsName = true := by
  have hnone : c.char? = none := by
    cases hch : c.char? with
    | none => rfl
    | some ch =>
      obtain ⟨rest, hrest⟩ := exists_of_decodeFirst? hch
      rw [hc] at hrest
      exact absurd (append_eq_nil_iff.mp hrest.symm).1 String.utf8EncodeChar_ne_nil
  simp [endsName, hnone]

theorem endsName_of_separator (h : c.IsBoundary) (hc : c.after = b :: rest)
    (hb : isSeparator b = true) : c.endsName = true := by
  simp only [isSeparator, Bool.and_eq_true, decide_eq_true_eq, Bool.not_eq_true', bne_iff_ne] at hb
  obtain ⟨⟨hascii, hpart⟩, hback⟩ := hb
  obtain ⟨ch, hch, hval, rfl⟩ := h.char_of_ascii hc hascii
  have hne : (ch == '\\') = false := by
    rw [beq_eq_false_iff_ne]
    rintro rfl
    exact hback rfl
  have hgoes : continuesName ch = false := by
    rw [continuesName, if_pos hval, hpart, hne]
    rfl
  simp [endsName, hch, hgoes]

theorem continuesName_of_blank {ch : Char} (h : isBlank ch = true ∨ isLineBreak ch = true) :
    continuesName ch = false := by
  unfold continuesName
  split
  · rename_i hval
    have hascii : ∀ n : Fin 128, isBlank (Char.ofNat n) = true ∨ isLineBreak (Char.ofNat n) = true →
        (isNamePart (byte (Char.ofNat n)) || Char.ofNat n == '\\') = false := by decide +kernel
    have hchar := hascii ⟨ch.toNat, hval⟩
    rw [Char.ofNat_toNat] at hchar
    exact hchar h
  · rcases h with h | h <;> simp [h]

theorem endsName_of_item {more : Nat} {breaks : Bool} (h : c.IsBoundary)
    (hitem : triviaItem c.after = .item more breaks) : c.endsName = true := by
  have hspace : ∀ b, isBlankByte b = true ∨ isLineEndByte b = true → isSeparator b = true :=
    forall_byte (by decide +kernel)
  rcases triviaItem_eq_item hitem with ⟨b, rest, hc, -, hkind⟩ | ⟨body, hc, -⟩ | ⟨body, _, hc, -⟩ |
    ⟨b, rest, ch, -, -, hch, -, hkind⟩
  · exact endsName_of_separator h hc (hspace b (hkind.imp And.left And.left))
  · exact endsName_of_separator h hc (by decide)
  · exact endsName_of_separator h hc (by decide)
  · have hends := continuesName_of_blank (hkind.symm.imp And.left And.left)
    have hch : c.char? = some ch := hch
    simp [endsName, hch, hends]

/-- Trivia after a name is empty, or the name ends with it. -/
theorem endsName_of_reach {length : Nat} {crosses : Bool} (h : c.IsBoundary)
    (hreach : triviaReach c.after = .clear length crosses) :
    c.endsName = true ∨ length = 0 ∧ crosses = false := by
  rcases triviaReach_eq_clear hreach with ⟨-, hzero⟩ | ⟨more, breaks, _, _, hitem, -⟩
  · exact .inr hzero
  · exact .inl (endsName_of_item h hitem)

end Cursor

namespace Scan

open Cursor

variable {α β : Type}

/-! ## The judgement -/

/-- After a name `op` succeeds only where no name goes on. -/
def EndsNames (op : Scan α) : Prop :=
  ∀ ⦃c a d⦄, c.IsBoundary → c.pastName = true → op c = .ok a d → c.endsName = true

/-- After a name `op` either stays where it is or succeeds only where no name goes on. -/
def StaysOrEnds (op : Scan α) : Prop :=
  ∀ ⦃c a d⦄, c.IsBoundary → c.pastName = true → op c = .ok a d → c.endsName = true ∨ d = c

/-- The first character of a mark goes on with no name. -/
def StartsApart (mark : String) : Prop :=
  ∃ b rest, bytesOf mark = b :: rest ∧ isSeparator b = true

theorem StartsApart.endsName (hmark : StartsApart mark) (h : c.IsBoundary)
    (hstarts : c.startsWith mark = true) : c.endsName = true := by
  obtain ⟨b, rest, hbytes, hb⟩ := hmark
  obtain ⟨more, hmore⟩ := isPrefixOf_iff_prefix.mp hstarts
  rw [hbytes, cons_append] at hmore
  exact endsName_of_separator h hmore.symm hb

/-- A word does not start where a name could still go on. -/
theorem startsWithWord_of_pastName (hword : bytesOf word = b :: rest) (hb : isNamePart b = true)
    (hpast : c.pastName = true) : c.startsWithWord word = false := by
  cases hstarts : c.startsWithWord word with
  | false => rfl
  | true =>
    obtain ⟨more, hmore⟩ := isPrefixOf_iff_prefix.mp (startsWith_of_startsWithWord hstarts)
    rw [hword, cons_append] at hmore
    simp [pastName, byte?, ← hmore, hb] at hpast

namespace EndsNames

theorem failHere (message : Message) (args : List String) :
    EndsNames (failHere message args : Scan α) := by
  intro c a d _ _ hrun
  exact absurd hrun failHere_ne_ok

theorem first {op : Scan α} {next : α → Scan β} (hop : EndsNames op) : EndsNames (op >>= next) := by
  intro c b e hc hpast hrun
  obtain ⟨a, d, hfirst, -⟩ := bind_eq_ok.mp hrun
  exact hop hc hpast hfirst

theorem after {op : Scan α} {next : α → Scan β} (hop : StaysOrEnds op)
    (hnext : ∀ a, EndsNames (next a)) : EndsNames (op >>= next) := by
  intro c b e hc hpast hrun
  obtain ⟨a, d, hfirst, hrest⟩ := bind_eq_ok.mp hrun
  rcases hop hc hpast hfirst with hends | rfl
  · exact hends
  · exact hnext a hc hpast hrest

/-- A mark that stands at the cursor ends the name; otherwise the rest decides. -/
theorem accept {next : Bool → Scan α} (hmark : StartsApart mark) (hnext : EndsNames (next false)) :
    EndsNames (accept mark >>= next) := by
  intro c b e hc hpast hrun
  obtain ⟨found, d, haccept, hrest⟩ := bind_eq_ok.mp hrun
  rcases accept_cases haccept with ⟨-, hstarts, -⟩ | ⟨rfl, -, rfl⟩
  · exact hmark.endsName hc hstarts
  · exact hnext hc hpast hrest

theorem expect (hmark : StartsApart mark) : EndsNames (expect mark) := by
  intro c u d hc _ hrun
  exact hmark.endsName hc (expect_eq_ok.mp hrun).1

theorem expectWord (hword : bytesOf word = b :: rest) (hb : isNamePart b = true) :
    EndsNames (expectWord word) := by
  intro c u d _ hpast hrun
  have hstarts := (expectWord_eq_ok.mp hrun).1
  rw [startsWithWord_of_pastName hword hb hpast] at hstarts
  cases hstarts

theorem block {opener closer : UInt8} (hopener : isSeparator opener = true) :
    EndsNames (block opener closer) := by
  intro c r d hc _ hrun
  unfold Scan.block at hrun
  split at hrun
  · rename_i hbyte
    cases hafter : c.after with
    | nil => exact endsName_of_nil hafter
    | cons b rest =>
      simp only [byte?, hafter, head?_cons, beq_iff_eq, Option.some.injEq] at hbyte
      exact endsName_of_separator hc hafter (hbyte ▸ hopener)
  · cases hrun

end EndsNames

theorem StaysOrEnds.accept {op : Scan α} {a : α} (hmark : StartsApart mark) :
    StaysOrEnds (accept mark >>= fun found => if found then op else Pure.pure a) := by
  intro c b e hc hpast hrun
  obtain ⟨found, d, haccept, hrest⟩ := bind_eq_ok.mp hrun
  rcases accept_cases haccept with ⟨-, hstarts, -⟩ | ⟨rfl, -, rfl⟩
  · exact .inl (hmark.endsName hc hstarts)
  · exact .inr (pure_eq_ok.mp hrest).2

/-- A word that may be absent cannot follow a name at once. -/
theorem StaysOrEnds.acceptWord {op : Scan α} {a : α} (hword : bytesOf word = b :: rest)
    (hb : isNamePart b = true) :
    StaysOrEnds (acceptWord word >>= fun found => if found then op else Pure.pure a) := by
  intro c x e hc hpast hrun
  obtain ⟨found, d, haccept, hrest⟩ := bind_eq_ok.mp hrun
  rcases acceptWord_cases haccept with ⟨-, hstarts, -⟩ | ⟨rfl, -, rfl⟩
  · rw [startsWithWord_of_pastName hword hb hpast] at hstarts
    cases hstarts
  · exact .inr (pure_eq_ok.mp hrest).2

theorem space_staysOrEnds : StaysOrEnds space := by
  intro c u d hc _ hrun
  obtain ⟨length, crosses, hreach, rfl⟩ := space_eq_advance.mp hrun
  rcases endsName_of_reach hc hreach with hends | ⟨rfl, -⟩
  · exact .inl hends
  · exact .inr (advance_zero c)

end Scan

/-! ## Names at the end of expressions -/

/-- An expression ends after trivia that crosses a line, or before one of a few marks. -/
theorem ends_of_before (h : StretchKind.expression.boundary start last false b = .before) :
    (b == byte ';' || b == byte ',' || isCloser b) = true := by
  simp only [StretchKind.boundary, Bool.false_and, Bool.false_eq_true, ↓reduceIte] at h
  split at h
  · rename_i hb
    rw [hb, Bool.true_or, Bool.true_or]
  split at h
  · rename_i hb
    rw [(Bool.and_eq_true_iff.mp hb).1, Bool.or_true, Bool.true_or]
  split at h
  · rename_i hb
    rw [hb, Bool.or_true]
  · cases h

theorem isSeparator_of_ends : (b == byte ';' || b == byte ',' || isCloser b) = true →
    isSeparator b = true := by
  apply forall_byte _ b
  decide +kernel

theorem StretchRun.endsName (h : StretchRun .expression start c depth d) (hc : c.IsBoundary) :
    d.endsName = true := by
  induction h with
  | atEnd hspace hq =>
    obtain ⟨length, hreach, rfl⟩ := Scan.trivia_eq_ok.mp hspace
    rcases endsName_of_reach hc hreach with hends | ⟨rfl, -⟩
    · exact hends
    · rw [advance_zero] at hq
      exact endsName_of_nil hq
  | before hspace hq hb =>
    obtain ⟨length, hreach, rfl⟩ := Scan.trivia_eq_ok.mp hspace
    rcases endsName_of_reach hc hreach with hends | ⟨rfl, rfl⟩
    · exact hends
    · rw [advance_zero] at hq
      exact endsName_of_separator hc hq (isSeparator_of_ends (ends_of_before hb))
  | after _ _ hb => grind [StretchKind.boundary]
  | block _ _ hkind => cases hkind
  | token hspace _ _ _ htoken _ ih =>
    exact ih ((Scan.token_onward _ htoken).boundary ((Scan.trivia_onward hspace).boundary hc))

namespace Scan

open Cursor

theorem heritageFrom_endsName {r : Range} (hc : c.IsBoundary) (hlast : last = c)
    (hrun : heritageFrom start last depth c = .ok r d) :
    ∃ stop, r = start.rangeTo stop ∧ c.Onward stop ∧ stop.endsName = true := by
  fun_induction heritageFrom start last depth c with
  | case1 | case2 | case4 => cases hrun
  | case3 last depth c length crosses hreach q b rest hq hb =>
    subst hlast
    injection hrun with hr hd
    refine ⟨last, hr.symm, .refl _, ?_⟩
    rcases endsName_of_reach hc hreach with hends | ⟨rfl, -⟩
    · exact hends
    · have hbrace : b = byte '\x7b' := beq_iff_eq.mp (Bool.and_eq_true_iff.mp hb).2
      subst hbrace
      rw [← advance_zero last] at hc ⊢
      exact endsName_of_separator hc hq (by decide)
  | case5 last depth c length crosses hreach q b rest hq _ e hlit ih =>
    have hmove : c.Onward q := (triviaReach_onward hreach).2
    have htoken := literal_onward hlit
    obtain ⟨stop, hr, hstop, hends⟩ := ih ((hmove.trans htoken).boundary hc) rfl hrun
    exact ⟨stop, hr, (hmove.trans htoken).trans hstop, hends⟩
  | case6 last depth c length crosses hreach q b rest hq
  | case7 last depth c length crosses hreach q b rest hq
  | case8 last depth c length crosses hreach q b rest hq =>
    rename_i ih
    have hmove : c.Onward q := (triviaReach_onward hreach).2
    have hstep : q.Onward (q.advance q.stepLength) :=
      .of_advance fun hbound => hbound.advance_stepLength
    obtain ⟨stop, hr, hstop, hends⟩ := ih ((hmove.trans hstep).boundary hc) rfl hrun
    exact ⟨stop, hr, (hmove.trans hstep).trans hstop, hends⟩

end Scan

end ModuleBridge
