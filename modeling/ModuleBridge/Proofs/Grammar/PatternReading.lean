import ModuleBridge.Proofs.Grammar.Layout
import ModuleBridge.Proofs.Grammar.PatternText

/-!
# Patterns that were read

Where the names of a pattern are collected, a printed pattern stands: the text that was passed is
taken apart token by token, along the shape of the reading. With the reading of printed patterns
this says which texts are patterns.
-/

namespace ModuleBridge

open Scan Cursor List
open String (utf8EncodeChar)

variable {text mark : String} {b : UInt8} {chars : List Char}

namespace Cursor

variable {c d e : Cursor}

/-- Between `c` and the later cursor `d` stands `text`. -/
structure Passes (c : Cursor) (text : String) (d : Cursor) : Prop where
  after_eq : c.after = bytesOf text ++ d.after
  eq_past : d = c.past text

theorem Passes.of_after {rest : List UInt8} (h : c.after = bytesOf text ++ rest) :
    c.Passes text (c.past text) :=
  ⟨by rw [after_past h, h], rfl⟩

theorem Passes.trans {front back : String} (hfront : c.Passes front d) (hback : d.Passes back e) :
    c.Passes (front ++ back) e := by
  constructor
  · rw [hfront.after_eq, hback.after_eq, bytesOf_append, append_assoc]
  · rw [past_append, ← hfront.eq_past, hback.eq_past]

theorem Passes.boundary (h : c.Passes text d) (hc : c.IsBoundary) : d.IsBoundary := by
  obtain ⟨-, back, hback⟩ := id hc
  obtain ⟨rest, hrest⟩ := exists_rest (hback.symm.trans h.after_eq)
  rw [h.eq_past]
  refine hc.of_cut text rest ?_ ?_
  · rw [h.after_eq, take_left]
  · rw [h.after_eq, drop_left, hrest]

theorem Passes.ne_nil (h : c.Passes text d) (htext : bytesOf text ≠ []) : c.after ≠ [] := by
  rw [h.after_eq]
  exact append_ne_nil_of_left_ne_nil htext _

theorem Passes.ne_nil_of_later (h : c.Passes text d) (hd : d.after ≠ []) : c.after ≠ [] := by
  rw [h.after_eq]
  exact append_ne_nil_of_right_ne_nil _ hd

theorem Passes.textUpTo_eq (h : c.Passes text d) : c.textUpTo d = text := by
  rw [h.eq_past, past, textUpTo_advance, h.after_eq, take_left, textOf_bytesOf]

theorem Onward.exists_passes (h : c.Onward d) (hc : c.IsBoundary) : ∃ text, c.Passes text d := by
  obtain ⟨n, rfl⟩ := h.reaches
  obtain ⟨text, htext⟩ := hc.exists_text (h.boundary hc)
  refine ⟨text, ?_, ?_⟩
  · rw [← htext, after_advance, take_append_drop]
  · rw [past, ← htext, length_take, advance_min]

end Cursor

namespace Scan

variable {c d e q : Cursor}

/-! ## Tokens that were read -/

theorem accept_passes (h : accept text c = .ok true d) : c.Passes text d := by
  rcases accept_cases h with ⟨-, hstarts, rfl⟩ | ⟨hfound, -⟩
  · obtain ⟨rest, hrest⟩ := isPrefixOf_iff_prefix.mp hstarts
    exact .of_after hrest.symm
  · cases hfound

theorem space_passes (hc : c.IsBoundary) (h : space c = .ok () d) (hne : d.after ≠ []) :
    ∃ gap : Spacing, c.Passes gap.text d := by
  obtain ⟨length, crosses, hreach, rfl⟩ := space_eq_advance.mp h
  obtain ⟨text, htext, hkind | ⟨hlength, -⟩⟩ := triviaReach_text hc hreach
  · refine ⟨⟨text, hkind⟩, ?_, ?_⟩
    · rw [← htext, after_advance, take_append_drop]
    · rw [past, ← htext, length_take, advance_min]
  · exact absurd (drop_eq_nil_of_le (Nat.le_of_eq hlength)) hne

theorem takeWhile_passes {p : UInt8 → Bool} (hp : ∀ b, p b = true → b < 128) (hc : c.IsBoundary) :
    ∃ text, c.Passes text (c.advance (c.after.takeWhile p).length) ∧
      bytesOf text = c.after.takeWhile p := by
  obtain ⟨text, hpasses⟩ := (Onward.takeWhile hp).exists_passes hc
  refine ⟨text, hpasses, ?_⟩
  have hafter := hpasses.after_eq
  rw [after_advance, ← dropWhile_eq_drop] at hafter
  exact append_cancel_right (hafter.symm.trans takeWhile_append_dropWhile.symm)

theorem name_passes (hc : c.IsBoundary) {n : Name} (h : name c = .ok n d) :
    ∃ i : Identifier, c.Passes i.text d ∧ n.text = i.text := by
  obtain ⟨hstart, rfl, rfl⟩ := name_eq_ok.mp h
  obtain ⟨text, hpasses, hbytes⟩ := takeWhile_passes (fun b => isNamePart_ascii) hc
  refine ⟨⟨text, ?_, ?_⟩, hpasses, ?_⟩
  · rw [hbytes]
    cases hafter : c.after with
    | nil => simp [byte?, hafter] at hstart
    | cons b rest =>
      have hb : isNameStart b = true := by simpa [byte?, hafter] using hstart
      rw [takeWhile_cons_of_pos (by rw [isNamePart, hb, Bool.true_or]), head?_cons,
        Option.any_some, hb]
  · rw [hbytes]
    exact all_eq_true.mp all_takeWhile
  · change c.textUpTo _ = text
    rw [← hbytes, textUpTo_advance, hpasses.after_eq, take_left, textOf_bytesOf]

theorem passes_of_past (hmark : bytesOf mark = [b]) (hb : b < 128) (hc : c.IsBoundary)
    (h : Past (· == b) c d) : ∃ code, c.Passes (code ++ mark) d := by
  obtain ⟨n, a, rfl, hget, ha⟩ := h
  rw [beq_iff_eq.mp ha] at hget
  have hbefore : c.Onward (c.advance n) := .of_advance fun hc => hc.advance_before hget hb
  obtain ⟨code, hcode⟩ := hbefore.exists_passes hc
  have hafter : (c.advance n).after = bytesOf mark ++ (c.advance (n + 1)).after := by
    obtain ⟨hlt, hvalue⟩ := List.getElem?_eq_some_iff.mp hget
    rw [after_advance, after_advance, hmark, singleton_append, ← hvalue,
      getElem_cons_drop]
  refine ⟨code, hcode.trans ⟨hafter, ?_⟩⟩
  rw [past, hmark, length_singleton, advance_advance]

theorem passes_of_head (hmark : bytesOf mark = [b]) (hb : c.byte? = some b) :
    c.Passes mark (c.advance 1) := by
  obtain ⟨rest, hafter⟩ := head?_eq_some_iff.mp hb
  constructor
  · rw [after_advance, hafter, hmark]
    rfl
  · rw [past, hmark, length_singleton]

theorem brackets_passes (hc : c.IsBoundary) {r : Range} (h : brackets c = .ok r d) :
    ∃ code, c.Passes ("[" ++ code ++ "]") d := by
  have hopen : bytesOf "[" = [byte '['] := by decide
  have hclose : bytesOf "]" = [byte ']'] := by decide
  unfold brackets block at h
  split at h
  · rename_i hbyte
    have hmark := passes_of_head hopen (beq_iff_eq.mp hbyte)
    split at h
    · rename_i hrun
      cases h
      have hpast : Past (· == byte ']') (c.advance 1) d :=
        closeEnclosures_past hrun (by simp)
      obtain ⟨code, hcode⟩ := passes_of_past hclose (by decide) (hmark.boundary hc) hpast
      refine ⟨code, ?_⟩
      rw [String.append_assoc]
      exact hmark.trans hcode
    · cases h
  · cases h

theorem number_passes (hc : c.IsBoundary) {t : NumberToken} (h : number c = .ok t d) :
    ∃ n : DecimalText, c.Passes n.text d := by
  have hpoint : bytesOf "." = [byte '.'] := by decide
  obtain ⟨whole, hwhole, hbytes⟩ := takeWhile_passes (fun b => isDigitByte_ascii) hc
  have hdigits : ∀ b ∈ bytesOf whole, isDigitByte b = true := by
    rw [hbytes]
    exact List.all_eq_true.mp all_takeWhile
  have hrest : c.after.dropWhile isDigitByte =
      (c.advance (c.after.takeWhile isDigitByte).length).after := dropWhile_eq_drop _ _
  have hboundary := hwhole.boundary hc
  unfold number at h
  dsimp only at h
  split at h
  · cases h
  · rename_i hsome
    cases h
    rw [hrest, ← hbytes] at hsome
    rw [hrest, ← advance_advance, ← advance_advance]
    rw [← hbytes] at hwhole hboundary ⊢
    generalize c.advance (bytesOf whole).length = e at hwhole hboundary hsome
    split
    · rename_i hhead
      have hmark := passes_of_head hpoint (beq_iff_eq.mp hhead)
      obtain ⟨fraction, hfraction, hdigits'⟩ := takeWhile_passes (fun b => isDigitByte_ascii)
        (hmark.boundary hboundary)
      have htail : e.after.tail = (e.advance 1).after := by
        rw [after_advance, drop_one]
      rw [htail, ← hdigits'] at hsome ⊢
      rw [← hdigits'] at hfraction
      refine ⟨⟨whole, some fraction, hdigits, ?_, fun hempty => hsome ?_⟩,
        hwhole.trans (hmark.trans hfraction)⟩
      · rw [Option.getD_some, hdigits']
        exact List.all_eq_true.mp all_takeWhile
      · rw [if_pos hhead, ← bytesOf_append]
        exact bytesOf_inj.mpr hempty
    · rename_i hhead
      refine ⟨⟨whole, none, hdigits, by simp, fun hempty => hsome ?_⟩, ?_⟩
      · rw [if_neg hhead, append_nil]
        rw [Option.getD_none, String.append_empty] at hempty
        rw [hempty, bytesOf_empty]
      · simpa [DecimalText.text] using hwhole

end Scan

/-! ## Strings -/

theorem eq_of_head?_flatMap {ch : Char} (hone : utf8EncodeChar ch = [b]) (hb : b < 128)
    (h : (chars.flatMap utf8EncodeChar).head? = some b) : ∃ rest, chars = ch :: rest := by
  cases chars with
  | nil => cases h
  | cons first rest =>
    have hmem : b ∈ utf8EncodeChar first := by
      cases hbytes : utf8EncodeChar first with
      | nil => exact absurd hbytes String.utf8EncodeChar_ne_nil
      | cons a more =>
        rw [flatMap_cons, hbytes, cons_append, head?_cons,
          Option.some.injEq] at h
        rw [h]
        exact mem_cons_self
    have hdecode := decodeFirst?_utf8EncodeChar first []
    rw [utf8EncodeChar_eq_of_mem hmem hb, ← hone, decodeFirst?_utf8EncodeChar] at hdecode
    exact ⟨rest, by rw [Option.some.inj hdecode]⟩

theorem exists_stringItems {mark : QuoteMark} {n m : Nat}
    (h : quotedReach (byte mark.char) (chars.flatMap utf8EncodeChar) n = .closed m) :
    ∃ (items : List (StringItem mark)) (rest : List Char),
      chars = items.flatMap StringItem.chars ++ mark.char :: rest ∧
        m = n + (itemBytes items).length + 1 := by
  have hmark : utf8EncodeChar mark.char = [byte mark.char] ∧ byte mark.char < 128 := by
    cases mark <;> decide
  have hslash : utf8EncodeChar '\\' = [byte '\\'] := by decide
  have hreturn : utf8EncodeChar '\r' = [byte '\r'] := by decide
  have hfeed : utf8EncodeChar '\n' = [byte '\n'] := by decide
  induction hsize : chars.length using Nat.strongRecOn generalizing chars n with
  | ind size ih =>
    subst hsize
    -- Each item takes its characters from the front; the rest of the string is shorter.
    have hstep : ∀ (item : StringItem mark) (rest : List Char), chars = item.chars ++ rest →
        quotedReach (byte mark.char) (rest.flatMap utf8EncodeChar)
          (n + (item.chars.flatMap utf8EncodeChar).length) = .closed m →
        ∃ (items : List (StringItem mark)) (tail : List Char),
          chars = items.flatMap StringItem.chars ++ mark.char :: tail ∧
            m = n + (itemBytes items).length + 1 := by
      intro item rest hchars hrest
      have hless : rest.length < chars.length := by
        rw [hchars, length_append]
        cases item <;> simp [StringItem.chars]
      obtain ⟨items, tail, htail, hm⟩ := ih _ hless hrest rfl
      refine ⟨item :: items, tail, ?_, ?_⟩
      · rw [hchars, htail, flatMap_cons, append_assoc]
      · rw [hm, itemBytes, itemBytes, flatMap_cons, length_append, Nat.add_assoc n]
    cases chars with
    | nil => cases h
    | cons ch chars =>
      rw [flatMap_cons] at h
      by_cases hescape : ch = '\\'
      · subst hescape
        rw [hslash, singleton_append] at h
        cases chars with
        | nil => cases h
        | cons a chars =>
          by_cases hpair : a = '\r' ∧ ∃ rest, chars = '\n' :: rest
          · obtain ⟨rfl, rest, rfl⟩ := hpair
            refine hstep .continuation rest rfl ?_
            rw [flatMap_cons, flatMap_cons, hreturn, hfeed, singleton_append,
              singleton_append, quotedReach_continuation] at h
            exact h
          · have hrest : a = '\r' →
                (chars.flatMap utf8EncodeChar).head? ≠ some (byte '\n') :=
              fun ha hhead => hpair ⟨ha, eq_of_head?_flatMap hfeed (by decide) hhead⟩
            refine hstep (.escape a) chars rfl ?_
            rw [flatMap_cons, quotedReach_escape hmark.2 hrest] at h
            rw [StringItem.chars, flatMap_cons, flatMap_singleton, hslash,
              singleton_append, length_cons, Nat.add_comm _ 1, ← Nat.add_assoc]
            exact h
      · by_cases hquote : ch = mark.char
        · subst hquote
          have hclose := @quotedReach_items mark [] (chars.flatMap utf8EncodeChar) n
          rw [hmark.1] at h
          exact ⟨[], chars, rfl, (Reach.closed.inj (hclose.symm.trans h)).symm⟩
        · by_cases hline : ch = '\n' ∨ ch = '\r'
          · have hbroken : ∀ {b : UInt8} {rest : List UInt8}, isLineEndByte b = true →
                quotedReach (byte mark.char) ([b] ++ rest) n = .broken n := by
              intro b rest hb
              rw [singleton_append, quotedReach.eq_def]
              simp only [hb, if_true]
            rcases hline with rfl | rfl
            · rw [hfeed, hbroken (by decide)] at h
              cases h
            · rw [hreturn, hbroken (by decide)] at h
              cases h
          · have hplain : ch ∉ [mark.char, '\\', '\n', '\r'] := by
              simp_all
            refine hstep (.plain ch hplain) chars rfl ?_
            rw [quotedReach_bytes (StringItem.plain_bytes hplain)] at h
            rw [StringItem.chars, flatMap_singleton]
            exact h

namespace Scan

variable {c d e q : Cursor}

theorem quoted_passes (hc : c.IsBoundary) {t : Quoted} (h : quoted c = .ok t d) :
    ∃ mark, ∃ items : List (StringItem mark), c.Passes (stringText mark items) d ∧
      t.value.toList = items.flatMap StringItem.chars := by
  unfold quoted at h
  split at h
  · cases h
  · rename_i quote rest hafter
    split at h
    · rename_i hquote
      obtain ⟨mark, rfl⟩ : ∃ mark : QuoteMark, quote = byte mark.char := by
        rw [isQuote, Bool.or_eq_true, beq_iff_eq, beq_iff_eq] at hquote
        rcases hquote with rfl | rfl
        · exact ⟨.single, rfl⟩
        · exact ⟨.double, rfl⟩
      have hmark : bytesOf mark.char.toString = [byte mark.char] := by cases mark <;> decide
      have hopen : c.Passes mark.char.toString (c.advance 1) :=
        passes_of_head hmark (by rw [byte?, hafter]; rfl)
      obtain ⟨-, inside, hinside⟩ := hopen.boundary hc
      have hrest : rest = inside.toList.flatMap utf8EncodeChar := by
        rw [← bytesOf_eq_flatMap, ← hinside, after_advance, hafter]
        rfl
      split at h
      · rename_i length hreach
        cases h
        rw [hrest] at hreach
        obtain ⟨items, tail, hchars, rfl⟩ := exists_stringItems hreach
        have hbytes : c.after =
            bytesOf (stringText mark items) ++ tail.flatMap utf8EncodeChar := by
          rw [hafter, hrest, hchars, bytesOf_stringText, flatMap_append, flatMap_assoc,
            flatMap_cons, ← bytesOf_toString, hmark]
          exact congrArg (byte mark.char :: ·) (append_assoc ..).symm
        have hlength : (bytesOf (stringText mark items)).length =
            0 + (itemBytes items).length + 1 + 1 := by
          rw [bytesOf_stringText, length_cons, length_append, length_singleton,
            Nat.zero_add]
        have hvalue : rest.take (0 + (itemBytes items).length + 1 - 1) =
            bytesOf (String.ofList (items.flatMap StringItem.chars)) := by
          rw [Nat.add_sub_cancel, Nat.zero_add, hrest, hchars, flatMap_append,
            flatMap_assoc, bytesOf_ofList, flatMap_assoc]
          exact take_left
        rw [hvalue, textOf_bytesOf, ← hlength]
        exact ⟨mark, items, .of_after hbytes, String.toList_ofList⟩
      · cases h
    · cases h

/-! ## Keys and default values that were read -/

theorem propertyKey_passes (hc : c.IsBoundary) {answer : Option Name}
    (h : propertyKey c = .ok answer d) :
    ∃ key : PropertyKey, c.Passes key.text d ∧ key.Fits c ∧
      (answer.isSome = true → ∃ n, key = .name n) := by
  have hname : (do return some (← name) : Scan (Option Name)) c = .ok answer d →
      ∃ key : PropertyKey, c.Passes key.text d ∧ key.Fits c ∧
        (answer.isSome = true → ∃ n, key = .name n) := by
    intro h
    obtain ⟨n, hrun, -⟩ := map_eq_ok.mp h
    obtain ⟨i, hpasses, -⟩ := name_passes hc hrun
    exact ⟨.name i, hpasses, trivial, fun _ => ⟨i, rfl⟩⟩
  cases hbyte : c.byte? with
  | none =>
    rw [propertyKey, get_bind, hbyte] at h
    exact hname h
  | some b =>
    rw [propertyKey_eq hbyte] at h
    split at h
    · obtain ⟨t, hrun, rfl⟩ := map_eq_ok.mp h
      obtain ⟨mark, items, hpasses, -⟩ := quoted_passes hc hrun
      exact ⟨.string mark items, hpasses, trivial, fun hsome => by cases hsome⟩
    · split at h
      · obtain ⟨r, hrun, rfl⟩ := map_eq_ok.mp h
        obtain ⟨code, hpasses⟩ := brackets_passes hc hrun
        refine ⟨.computed code, hpasses, ⟨r, ?_⟩, fun hsome => by cases hsome⟩
        rw [hrun, hpasses.eq_past]
      · split at h
        · rename_i hdigit
          obtain ⟨t, hrun, rfl⟩ := map_eq_ok.mp h
          obtain ⟨n, hpasses⟩ := number_passes hc hrun
          exact ⟨.decimal n, hpasses, trivial, fun hsome => by cases hsome⟩
        · exact hname h

theorem ne_nil_of_onward (h : c.Onward d) (hd : d.after ≠ []) : c.after ≠ [] := by
  intro hnil
  have hle := h.length_le
  rw [hnil, length_nil, Nat.le_zero, length_eq_zero_iff] at hle
  exact hd hle

theorem defaultValue_passes (hc : c.IsBoundary) (h : defaultValue c = .ok () d)
    (hspace : space d = .ok () q) (hq : q.after ≠ []) :
    ∃ (value : Option DefaultText) (after : Spacing),
      c.Passes (valueText value ++ after.text) q ∧ ∀ v ∈ value, v.Fits c := by
  obtain ⟨_, _, hbefore, htest⟩ := bind_eq_ok.mp h
  obtain ⟨found, x, hpeek, hrest⟩ := bind_eq_ok.mp htest
  obtain ⟨hfound, rfl⟩ := peek_eq_ok.mp hpeek
  cases found with
  | false =>
    obtain ⟨-, rfl⟩ := pure_eq_ok.mp hrest
    rw [space_space hbefore] at hspace
    cases hspace
    obtain ⟨gap, hgap⟩ := space_passes hc hbefore hq
    exact ⟨none, gap, by simpa [valueText] using hgap, by simp⟩
  | true =>
    obtain ⟨taken, y, haccept, hrest⟩ := bind_eq_ok.mp hrest
    obtain ⟨_, z, hafter, hrest⟩ := bind_eq_ok.mp hrest
    obtain ⟨r, hexpression, -⟩ := map_eq_ok.mp hrest
    obtain ⟨hsingle, hdouble⟩ := Bool.and_eq_true_iff.mp hfound.symm
    have hmark : x.Passes "=" y := by
      rw [accept, if_pos hsingle] at haccept
      cases haccept
      exact accept_passes (by rw [accept, if_pos hsingle])
    have hx := (space_onward hbefore).boundary hc
    have hy := hmark.boundary hx
    have hz := (space_onward hafter).boundary hy
    have hd := (expression_onward hexpression).boundary hz
    have hdne := ne_nil_of_onward (space_onward hspace) hq
    have hzne := ne_nil_of_onward (expression_onward hexpression) hdne
    obtain ⟨before, hgap⟩ := space_passes hc hbefore (hmark.ne_nil (by decide))
    obtain ⟨after, hgap'⟩ := space_passes hy hafter hzne
    obtain ⟨code, hcode⟩ := (expression_onward hexpression).exists_passes hz
    obtain ⟨behind, hbehind⟩ := space_passes hd hspace hq
    have hvalue : (bytesOf (after.text ++ code)).head? ≠ some (byte '=') := by
      intro hhead
      obtain ⟨more, hmore⟩ := head?_eq_some_iff.mp hhead
      have htwice : x.startsWith "==" = true := by
        have hbytes : bytesOf "==" = bytesOf "=" ++ [byte '='] := by decide
        rw [startsWith, hmark.after_eq, (hgap'.trans hcode).after_eq, hmore, hbytes,
          isPrefixOf_iff_prefix]
        exact (prefix_append_right_inj _).mpr ⟨_, rfl⟩
      rw [htwice] at hdouble
      cases hdouble
    refine ⟨some ⟨before, after, code, hvalue⟩, behind, ?_, ?_⟩
    · exact (hgap.trans (hmark.trans (hgap'.trans hcode))).trans hbehind
    · rintro v ⟨⟩
      refine ⟨r, ?_⟩
      dsimp only
      rw [← hgap.eq_past, ← hmark.eq_past, ← hgap'.eq_past, ← hcode.eq_past, hexpression]

/-! ## Patterns that were read -/

variable {fuel : Nat} {names found : List Name} {next : List Name → Scan (List Name)}
  {more : Scan (List Name)} {closer : String}

/-- With this fuel only printed patterns are read. -/
def TellsPatterns (fuel : Nat) : Prop :=
  ∀ ⦃c : Cursor⦄ ⦃names d⦄, c.IsBoundary → bindingNames fuel c = .ok names d →
    ∃ p : BindingPattern, c.Passes p.text d ∧ p.Fits c

def TellsProperties (fuel : Nat) : Prop :=
  ∀ ⦃c : Cursor⦄ ⦃names d⦄, c.IsBoundary → objectNames fuel c = .ok names d →
    ∃ ps : PropertyList, c.Passes ps.text d ∧ ps.Fits c

def TellsElements (fuel : Nat) : Prop :=
  ∀ ⦃c : Cursor⦄ ⦃names d⦄, c.IsBoundary → arrayNames fuel c = .ok names d →
    ∃ es : ElementList, c.Passes es.text d ∧ es.Fits c

theorem accept_misses_eq (h : accept text c = .ok false d) : d = c := by
  rcases accept_cases h with ⟨hfound, -⟩ | ⟨-, -, heq⟩
  · cases hfound
  · exact heq

theorem tellsPatterns_succ (hobject : TellsProperties fuel) (harray : TellsElements fuel) :
    TellsPatterns (fuel + 1) := by
  intro c names d hc h
  rw [bindingNames] at h
  obtain ⟨brace, x, hbrace, hrest⟩ := bind_eq_ok.mp h
  cases brace with
  | true =>
    have hmark := accept_passes hbrace
    obtain ⟨ps, hps, hfits⟩ := hobject (hmark.boundary hc) hrest
    rw [hmark.eq_past] at hfits
    exact ⟨.object ps, hmark.trans hps, hfits⟩
  | false =>
    rw [accept_misses_eq hbrace] at hrest
    obtain ⟨bracket, y, hbracket, hlast⟩ := bind_eq_ok.mp hrest
    cases bracket with
    | true =>
      have hmark := accept_passes hbracket
      obtain ⟨es, hes, hfits⟩ := harray (hmark.boundary hc) hlast
      rw [hmark.eq_past] at hfits
      exact ⟨.array es, hmark.trans hes, hfits⟩
    | false =>
      rw [accept_misses_eq hbracket] at hlast
      obtain ⟨n, hname, -⟩ := map_eq_ok.mp hlast
      obtain ⟨i, hpasses, -⟩ := name_passes hc hname
      exact ⟨.name i, hpasses, trivial⟩

theorem patternRest_cases (h : patternRest more closer found d = .ok names e) :
    ∃ q, space d = .ok () q ∧ (q.Passes closer e ∨
      ∃ x rest, q.Passes "," x ∧ more x = .ok rest e) := by
  obtain ⟨_, q, hspace, htest⟩ := bind_eq_ok.mp h
  obtain ⟨comma, x, haccept, hrest⟩ := bind_eq_ok.mp htest
  refine ⟨q, hspace, ?_⟩
  cases comma with
  | true =>
    obtain ⟨rest, hmore, -⟩ := map_eq_ok.mp hrest
    exact .inr ⟨x, rest, accept_passes haccept, hmore⟩
  | false =>
    rw [accept_misses_eq haccept] at hrest
    obtain ⟨_, hexpect, -⟩ := map_eq_ok.mp hrest
    obtain ⟨hstarts, rfl⟩ := expect_eq_ok.mp hexpect
    exact .inl (accept_passes (by rw [accept, if_pos hstarts]))

/-- Behind an entry `next` goes on, and up to the next byte that is no trivia the text is one of
`Entry` with its trivia. -/
def EndsEntry (next : List Name → Scan (List Name)) (names : List Name) (e : Cursor)
    (Entry : Spacing → Cursor → Prop) : Prop :=
  ∃ found d, next found d = .ok names e ∧ ∀ ⦃q⦄, space d = .ok () q → q.after ≠ [] →
    ∃ after : Spacing, Entry after q

section

variable (htells : TellsPatterns fuel)

include htells

theorem target_passes (hc : c.IsBoundary) (h : entry (bindingNames fuel) next c = .ok names e) :
    EndsEntry next names e fun after q =>
      ∃ (target : BindingPattern) (value : Option DefaultText),
        c.Passes (target.text ++ valueText value ++ after.text) q ∧ target.Fits c ∧
          ∀ v ∈ value, v.Fits (c.past target.text) := by
  obtain ⟨found, x, hbinding, hrest⟩ := bind_eq_ok.mp h
  obtain ⟨_, d, hdefault, hnext⟩ := bind_eq_ok.mp hrest
  refine ⟨found, d, hnext, fun q hspace hq => ?_⟩
  obtain ⟨target, htarget, hfits⟩ := htells hc hbinding
  obtain ⟨value, after, hvalue, hvalueFits⟩ :=
    defaultValue_passes (htarget.boundary hc) hdefault hspace hq
  refine ⟨after, target, value, ?_, hfits, ?_⟩
  · rw [String.append_assoc]
    exact htarget.trans hvalue
  · rwa [← htarget.eq_past]

theorem property_passes (hc : c.IsBoundary)
    (h : property (bindingNames fuel) next c = .ok names e) :
    EndsEntry next names e fun after q =>
      ∃ p : Property, c.Passes (p.text ++ after.text) q ∧ p.Fits c := by
  obtain ⟨dots, x, haccept, htest⟩ := bind_eq_ok.mp h
  cases dots with
  | true =>
    have hmark := accept_passes haccept
    have hx := hmark.boundary hc
    obtain ⟨_, y, hgap, hrest⟩ := bind_eq_ok.mp htest
    obtain ⟨found, d, hbinding, hnext⟩ := bind_eq_ok.mp hrest
    refine ⟨found, d, hnext, fun q hspace hq => ?_⟩
    have hy := (space_onward hgap).boundary hx
    obtain ⟨target, htarget, hfits⟩ := htells hy hbinding
    have honward := ((patterns_onward fuel).1 hbinding).trans (space_onward hspace)
    obtain ⟨gap, hgap⟩ := space_passes hx hgap (ne_nil_of_onward honward hq)
    obtain ⟨after, hafter⟩ := space_passes (htarget.boundary hy) hspace hq
    refine ⟨after, .rest gap target, (hmark.trans (hgap.trans htarget)).trans hafter, ?_⟩
    rw [Property.Fits, ← hmark.eq_past, ← hgap.eq_past]
    exact hfits
  | false =>
    rw [accept_misses_eq haccept] at htest
    obtain ⟨answer, y, hkey, hrest⟩ := bind_eq_ok.mp htest
    obtain ⟨_, z, hbefore, hcolonTest⟩ := bind_eq_ok.mp hrest
    obtain ⟨colon, w, hcolon, hlast⟩ := bind_eq_ok.mp hcolonTest
    obtain ⟨key, hpasses, hfits, hname⟩ := propertyKey_passes hc hkey
    have hy := hpasses.boundary hc
    cases colon with
    | true =>
      have hmark := accept_passes hcolon
      have hw := hmark.boundary ((space_onward hbefore).boundary hy)
      obtain ⟨_, v, hafter, htarget⟩ := bind_eq_ok.mp hlast
      have hv := (space_onward hafter).boundary hw
      obtain ⟨found, d, hnext, hread⟩ := target_passes htells hv htarget
      refine ⟨found, d, hnext, fun q hspace hq => ?_⟩
      obtain ⟨behind, target, value, htext, htargetFits, hvalueFits⟩ := hread hspace hq
      obtain ⟨before, hbefore⟩ := space_passes hy hbefore (hmark.ne_nil (by decide))
      obtain ⟨after, hafter⟩ := space_passes hw hafter (htext.ne_nil_of_later hq)
      have hstart : v = (((c.past key.text).past before.text).past ":").past after.text := by
        rw [← hpasses.eq_past, ← hbefore.eq_past, ← hmark.eq_past, ← hafter.eq_past]
      refine ⟨behind, .keyed key before after target value, ?_, hfits, ?_, ?_⟩
      · have hall := hpasses.trans (hbefore.trans (hmark.trans (hafter.trans htext)))
        simpa only [Property.text, String.append_assoc] using hall
      · rw [← hstart]
        exact htargetFits
      · rw [← hstart]
        exact hvalueFits
    | false =>
      rw [accept_misses_eq hcolon] at hlast
      cases answer with
      | none => exact absurd hlast failHere_ne_ok
      | some n =>
        obtain ⟨i, rfl⟩ := hname rfl
        obtain ⟨_, d, hdefault, hnext⟩ := bind_eq_ok.mp hlast
        rw [defaultValue_of_space hbefore] at hdefault
        refine ⟨[n], d, hnext, fun q hspace hq => ?_⟩
        obtain ⟨value, after, hvalue, hvalueFits⟩ := defaultValue_passes hy hdefault hspace hq
        refine ⟨after, .shorthand i value, ?_, ?_⟩
        · have hall := hpasses.trans hvalue
          simpa only [Property.text, PropertyKey.text, String.append_assoc] using hall
        · rw [hpasses.eq_past] at hvalueFits
          exact hvalueFits

theorem element_passes (hc : c.IsBoundary) (h : element (bindingNames fuel) next c = .ok names e) :
    EndsEntry next names e fun after q =>
      ∃ x : Element, c.Passes (x.text ++ after.text) q ∧ x.Fits c := by
  obtain ⟨dots, x, haccept, htest⟩ := bind_eq_ok.mp h
  cases dots with
  | true =>
    have hmark := accept_passes haccept
    have hx := hmark.boundary hc
    obtain ⟨_, y, hgap, htarget⟩ := bind_eq_ok.mp htest
    obtain ⟨found, d, hnext, hread⟩ :=
      target_passes htells ((space_onward hgap).boundary hx) htarget
    refine ⟨found, d, hnext, fun q hspace hq => ?_⟩
    obtain ⟨after, target, value, htext, htargetFits, hvalueFits⟩ := hread hspace hq
    obtain ⟨gap, hgap⟩ := space_passes hx hgap (htext.ne_nil_of_later hq)
    have hstart : y = (c.past "...").past gap.text := by
      rw [← hmark.eq_past, ← hgap.eq_past]
    rw [hstart] at htargetFits hvalueFits
    refine ⟨after, .rest gap target value, ?_, htargetFits, hvalueFits⟩
    have hall := hmark.trans (hgap.trans htext)
    simpa only [Element.text, String.append_assoc] using hall
  | false =>
    rw [accept_misses_eq haccept] at htest
    obtain ⟨found, d, hnext, hread⟩ := target_passes htells hc htest
    refine ⟨found, d, hnext, fun q hspace hq => ?_⟩
    obtain ⟨after, target, value, htext, hfits⟩ := hread hspace hq
    exact ⟨after, .item target value, htext, hfits⟩

theorem tellsProperties_succ (hobject : TellsProperties fuel) : TellsProperties (fuel + 1) := by
  intro c names e hc h
  rw [objectNames_succ] at h
  obtain ⟨_, x, hspace, htest⟩ := bind_eq_ok.mp h
  obtain ⟨brace, y, hbrace, hrest⟩ := bind_eq_ok.mp htest
  cases brace with
  | true =>
    obtain ⟨-, rfl⟩ := pure_eq_ok.mp hrest
    have hmark := accept_passes hbrace
    obtain ⟨gap, hgap⟩ := space_passes hc hspace (hmark.ne_nil (by decide))
    exact ⟨.close gap, hgap.trans hmark, trivial⟩
  | false =>
    have hx := (space_onward hspace).boundary hc
    rw [accept_misses_eq hbrace] at hrest
    obtain ⟨found, d, hnext, hread⟩ := property_passes htells hx hrest
    obtain ⟨q, hq, hclose | ⟨z, rest, hcomma, hmore⟩⟩ := patternRest_cases hnext
    · have hqne := hclose.ne_nil (by decide)
      obtain ⟨after, p, hp, hfits⟩ := hread hq hqne
      obtain ⟨gap, hgap⟩ := space_passes hc hspace (hp.ne_nil_of_later hqne)
      refine ⟨.last gap p after, ?_, ?_⟩
      · have hall := hgap.trans (hp.trans hclose)
        simpa only [PropertyList.text, String.append_assoc] using hall
      · rw [PropertyList.Fits, ← hgap.eq_past]
        exact hfits
    · have hqne := hcomma.ne_nil (by decide)
      obtain ⟨after, p, hp, hfits⟩ := hread hq hqne
      obtain ⟨gap, hgap⟩ := space_passes hc hspace (hp.ne_nil_of_later hqne)
      obtain ⟨others, hothers, hothersFits⟩ :=
        hobject (hcomma.boundary (hp.boundary hx)) hmore
      refine ⟨.more gap p after others, ?_, ?_, ?_⟩
      · have hall := hgap.trans (hp.trans (hcomma.trans hothers))
        simpa only [PropertyList.text, String.append_assoc] using hall
      · rw [← hgap.eq_past]
        exact hfits
      · rw [← hgap.eq_past, ← past_append x p.text, ← hp.eq_past, ← hcomma.eq_past]
        exact hothersFits

theorem tellsElements_succ (harray : TellsElements fuel) : TellsElements (fuel + 1) := by
  intro c names e hc h
  rw [arrayNames_succ] at h
  obtain ⟨_, x, hspace, htest⟩ := bind_eq_ok.mp h
  obtain ⟨bracket, y, hbracket, hholeTest⟩ := bind_eq_ok.mp htest
  have hx := (space_onward hspace).boundary hc
  cases bracket with
  | true =>
    obtain ⟨-, rfl⟩ := pure_eq_ok.mp hholeTest
    have hmark := accept_passes hbracket
    obtain ⟨gap, hgap⟩ := space_passes hc hspace (hmark.ne_nil (by decide))
    exact ⟨.close gap, hgap.trans hmark, trivial⟩
  | false =>
    rw [accept_misses_eq hbracket] at hholeTest
    obtain ⟨hole, z, hcomma, hrest⟩ := bind_eq_ok.mp hholeTest
    cases hole with
    | true =>
      have hmark := accept_passes hcomma
      obtain ⟨gap, hgap⟩ := space_passes hc hspace (hmark.ne_nil (by decide))
      obtain ⟨others, hothers, hfits⟩ := harray (hmark.boundary hx) hrest
      refine ⟨.hole gap others, hgap.trans (hmark.trans hothers), ?_⟩
      rw [ElementList.Fits, ← hgap.eq_past, ← hmark.eq_past]
      exact hfits
    | false =>
      rw [accept_misses_eq hcomma] at hrest
      obtain ⟨found, d, hnext, hread⟩ := element_passes htells hx hrest
      obtain ⟨q, hq, hclose | ⟨w, rest, hcomma, hmore⟩⟩ := patternRest_cases hnext
      · have hqne := hclose.ne_nil (by decide)
        obtain ⟨after, item, hp, hfits⟩ := hread hq hqne
        obtain ⟨gap, hgap⟩ := space_passes hc hspace (hp.ne_nil_of_later hqne)
        refine ⟨.last gap item after, ?_, ?_⟩
        · have hall := hgap.trans (hp.trans hclose)
          simpa only [ElementList.text, String.append_assoc] using hall
        · rw [ElementList.Fits, ← hgap.eq_past]
          exact hfits
      · have hqne := hcomma.ne_nil (by decide)
        obtain ⟨after, item, hp, hfits⟩ := hread hq hqne
        obtain ⟨gap, hgap⟩ := space_passes hc hspace (hp.ne_nil_of_later hqne)
        obtain ⟨others, hothers, hothersFits⟩ :=
          harray (hcomma.boundary (hp.boundary hx)) hmore
        refine ⟨.more gap item after others, ?_, ?_, ?_⟩
        · have hall := hgap.trans (hp.trans (hcomma.trans hothers))
          simpa only [ElementList.text, String.append_assoc] using hall
        · rw [← hgap.eq_past]
          exact hfits
        · rw [← hgap.eq_past, ← past_append x item.text, ← hp.eq_past, ← hcomma.eq_past]
          exact hothersFits

end

theorem tells_patterns (fuel : Nat) :
    TellsPatterns fuel ∧ TellsProperties fuel ∧ TellsElements fuel := by
  induction fuel with
  | zero =>
    refine ⟨fun c names d _ h => ?_, fun c names d _ h => ?_, fun c names d _ h => ?_⟩
    · rw [bindingNames] at h
      exact absurd h failHere_ne_ok
    · rw [objectNames] at h
      exact absurd h failHere_ne_ok
    · rw [arrayNames] at h
      exact absurd h failHere_ne_ok
  | succ fuel ih =>
    obtain ⟨hpatterns, hobject, harray⟩ := ih
    exact ⟨tellsPatterns_succ hobject harray, tellsProperties_succ hpatterns hobject,
      tellsElements_succ hpatterns harray⟩

theorem boundNames_passes (hc : c.IsBoundary) (h : boundNames c = .ok names d) :
    ∃ p : BindingPattern, c.Passes p.text d ∧ p.Fits c :=
  (tells_patterns _).1 hc h

end Scan

end ModuleBridge
