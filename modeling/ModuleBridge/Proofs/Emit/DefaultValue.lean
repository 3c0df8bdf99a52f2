import ModuleBridge.Proofs.Emit.Requests
import ModuleBridge.Proofs.Grammar.PatternReading
import ModuleBridge.Proofs.Grammar.Tiling

/-!
# Values of default exports

A value without a name is bound to a constant, without the white space and the semicolons at its
end. Code ends with a token, and what starts a token is no blank and no line end for the scanner;
but the next line character is white space, and in a bracket that is never closed a semicolon is code
like any other. Only these two can be trimmed away.
-/

namespace ModuleBridge

open Scan Cursor List

variable {c d e q : Cursor} {b : UInt8} {ch : Char} {text : String} {depth : Nat}

/-! ## Last characters -/

/-- The code between two cursors ends with the byte before the second one, if that is a character of
its own. -/
theorem Cursor.Passes.lastChar (h : c.Passes text d) (hne : bytesOf text ≠ [])
    (hlast : d.last? = some b) (hb : b < 128) :
    ∃ ch, text.toList.getLast? = some ch ∧ String.utf8EncodeChar ch = [b] := by
  have hbytes : (bytesOf text).getLast? = some b := by
    rw [← hlast, h.eq_past, past, last?, before_advance, h.after_eq, take_left, head?_append,
      head?_reverse, getLast?_eq_some_getLast hne]
    rfl
  rcases eq_nil_or_concat text.toList with hnil | ⟨front, ch, hchars⟩
  · rw [bytesOf_eq_flatMap, hnil] at hbytes
    cases hbytes
  · rw [concat_eq_append] at hchars
    refine ⟨ch, by rw [hchars, getLast?_concat], utf8EncodeChar_eq_of_mem ?_ hb⟩
    rw [bytesOf_eq_flatMap, hchars, flatMap_append, flatMap_singleton,
      getLast?_append_of_ne_nil _ String.utf8EncodeChar_ne_nil] at hbytes
    exact mem_of_getLast? hbytes

def isCode (ch : Char) : Bool :=
  !isBlank ch && !isLineBreak ch

/-- The bytes that end a token, other than a character of its own. -/
def endsToken (b : UInt8) : Bool :=
  endsLiteral b || isOpener b || isCloser b

theorem endsToken_ascii (b : UInt8) : endsToken b = true → b < 128 := by
  apply forall_byte _ b
  decide +kernel

theorem isCode_of_endsToken (hb : endsToken b = true) (hone : String.utf8EncodeChar ch = [b]) :
    isCode ch = true ∧ ch ≠ ';' := by
  have hread : decodeFirst? [b] = some ch := by
    rw [← hone, ← append_nil (String.utf8EncodeChar ch), decodeFirst?_utf8EncodeChar]
  have hall : endsToken b = true →
      (decodeFirst? [b]).all (fun ch => isCode ch && ch != ';') = true := by
    apply forall_byte _ b
    decide +kernel
  simpa [hread] using hall hb

theorem token_last {depth' : Nat} {rest : List UInt8} (hc : c.IsBoundary)
    (hnone : triviaItem c.after = .nothing) (hafter : c.after = b :: rest)
    (h : token depth c = .ok depth' d) :
    ∃ text ch, c.Passes text d ∧ text.toList.getLast? = some ch ∧ isCode ch = true ∧
      (ch = ';' → b = byte ';' ∧ depth' = depth) := by
  have hpast : Past endsToken c d → ∃ text ch, c.Passes text d ∧ text.toList.getLast? = some ch ∧
      isCode ch = true ∧ (ch = ';' → b = byte ';' ∧ depth' = depth) := by
    intro hpast
    obtain ⟨text, htext⟩ := (hpast.onward endsToken_ascii).exists_passes hc
    obtain ⟨n, a, rfl, hget, ha⟩ := hpast
    have hne : bytesOf text ≠ [] := by
      intro hnil
      have hpos := congrArg Cursor.pos htext.eq_past
      simp [past, hnil, hafter] at hpos
    obtain ⟨ch, hlast, hone⟩ := htext.lastChar hne (last?_advance_succ hget) (endsToken_ascii a ha)
    obtain ⟨hcode, hother⟩ := isCode_of_endsToken ha hone
    exact ⟨text, ch, htext, hlast, hcode, fun h => absurd h hother⟩
  rcases token_cases hafter h with ⟨hliteral, -⟩ | ⟨-, ⟨hopen, -, rfl⟩ | ⟨-, hclose, -, rfl⟩ |
    ⟨-, -, rfl, ⟨hname, rfl⟩ | ⟨-, rfl⟩⟩⟩
  · obtain ⟨n, a, hd, hget, ha⟩ := literal_past hliteral
    exact hpast ⟨n, a, hd, hget, by simp [endsToken, ha]⟩
  · exact hpast (.of_cons hafter (by simp [endsToken, hopen]))
  · exact hpast (.of_cons hafter (by simp [endsToken, hclose]))
  · have hlength : (c.after.takeWhile isNamePart).length =
        (rest.takeWhile isNamePart).length + 1 := by
      rw [hafter, takeWhile_cons_of_pos hname, length_cons]
    obtain ⟨a, hget, ha⟩ := takeWhile_inside (i := (rest.takeWhile isNamePart).length)
      (Nat.lt_of_lt_of_eq (Nat.lt_succ_self _) hlength.symm)
    exact hpast ⟨_, a, by rw [hlength], hget, by simp [endsToken, endsLiteral, ha]⟩
  · obtain ⟨ch, hch⟩ := hc.exists_char (by simp [hafter])
    obtain ⟨more, hmore⟩ := exists_of_decodeFirst? hch
    have hstep : c.stepLength = (bytesOf ch.toString).length := by
      rw [stepLength, hch, bytesOf_toString, String.length_utf8EncodeChar]
    rw [hstep]
    refine ⟨ch.toString, ch, .of_after (by rw [bytesOf_toString, hmore]), by simp, ?_, ?_⟩
    · cases hcode : isCode ch with
      | true => rfl
      | false =>
        have hspace : isBlank ch = true ∨ isLineBreak ch = true := by
          cases hblank : isBlank ch <;> simp_all [isCode]
        rw [hmore, triviaItem_blank hspace] at hnone
        cases hnone
    · rintro rfl
      refine ⟨?_, rfl⟩
      exact (List.cons.inj (hafter.symm.trans hmore)).1

/-! ## Code that ends a value -/

/-- Nothing but trivia follows. -/
def Cursor.OnlyTriviaFollows (c : Cursor) : Prop :=
  ∃ q, space c = .ok () q ∧ q.after = []

/-- An expression ends with a character that is no trivia. It ends with a semicolon only in a bracket
that is not closed up to the end of the text. -/
theorem StretchRun.last {start : Cursor} (h : StretchRun .expression start c depth d)
    (hc : c.IsBoundary) :
    d = c ∧ (depth ≠ 0 → c.OnlyTriviaFollows) ∨
      ∃ text ch, c.Passes text d ∧ text.toList.getLast? = some ch ∧ isCode ch = true ∧
        (ch = ';' → d.OnlyTriviaFollows) := by
  induction h with
  | atEnd hspace hq => exact .inl ⟨rfl, fun _ => ⟨_, space_eq_ok.mpr ⟨_, hspace⟩, hq⟩⟩
  | before => exact .inl ⟨rfl, fun hdepth => absurd rfl hdepth⟩
  | after _ _ hb => grind [StretchKind.boundary]
  | block _ _ hkind => cases hkind
  | @token c q e d depth depth' crosses b rest hspace hq hb _ htoken _ ih =>
    have hgap := trivia_onward hspace
    obtain ⟨gap, hgap⟩ := hgap.exists_passes hc
    have hqb := hgap.boundary hc
    have hnone : triviaItem q.after = .nothing := by
      obtain ⟨length, hreach, rfl⟩ := trivia_eq_ok.mp hspace
      rw [after_advance]
      exact triviaItem_after_reach hreach
    obtain ⟨code, ch, hcode, hlast, hch, hsemicolon⟩ := token_last hqb hnone hq htoken
    refine .inr ?_
    rcases ih (hcode.boundary hqb) with ⟨rfl, hopen⟩ | ⟨more, ch', hmore, hlast', hch', hend⟩
    · refine ⟨gap ++ code, ch, hgap.trans hcode, ?_, hch, fun hsemi => hopen ?_⟩
      · rw [String.toList_append, getLast?_append, hlast, Option.some_or]
      · obtain ⟨rfl, rfl⟩ := hsemicolon hsemi
        intro hzero
        grind [StretchKind.boundary]
    · refine ⟨gap ++ code ++ more, ch', (hgap.trans hcode).trans hmore, ?_, hch', hend⟩
      rw [String.toList_append, getLast?_append, hlast', Option.some_or]

/-- The code of `r` ends with a character that is no trivia, and with a semicolon only where nothing
follows in the text. -/
def Range.EndsInCode (r : Range) (text : String) : Prop :=
  ∃ ch, (r.slice text).toList.getLast? = some ch ∧ isCode ch = true ∧
    (ch = ';' → ((ofText text).moveTo r.stop).OnlyTriviaFollows)

theorem value_endsInCode {x : Expression} (hc : c.IsIn text) (h : value c = .ok x d) :
    x.range.EndsInCode text := by
  obtain ⟨r, hrun, hne, rfl⟩ := classified_eq_ok.mp h
  obtain ⟨hstretch, rfl⟩ := run_of_stretchFrom hrun
  have honward := hstretch.onward
  rcases hstretch.last hc.2 with ⟨rfl, -⟩ | ⟨code, ch, hcode, hlast, hch, hend⟩
  · simp [Range.isEmpty, Cursor.rangeTo] at hne
  · rw [classifyExpression_range]
    refine ⟨ch, ?_, hch, fun hsemi => ?_⟩
    · rw [← hlast, ← hcode.textUpTo_eq, ← honward.slice_eq hc.1]
      rfl
    · have hd := hend hsemi
      rwa [← moveTo_pos (honward.bytes_eq.trans hc.1)] at hd

theorem braces_last {body : Range} (hc : c.IsIn text) (honward : c.Onward d) (hlt : c.pos < d.pos)
    (h : braces q = .ok body d) : ((c.rangeTo d).slice text).toList.getLast? = some '\x7d' := by
  obtain ⟨code, hcode⟩ := honward.exists_passes hc.2
  have hne : bytesOf code ≠ [] := by
    intro hnil
    have hpos := congrArg Cursor.pos hcode.eq_past
    simp only [past, hnil, length_nil, advance_zero] at hpos
    omega
  have hlast : d.last? = some (byte '\x7d') := by
    have hany := (block_past h).last?
    cases hd : d.last? with
    | none => rw [hd] at hany; cases hany
    | some a => rw [hd, Option.any_some, beq_iff_eq] at hany; rw [hany]
  obtain ⟨ch, hch, hone⟩ := hcode.lastChar hne hlast (by decide)
  rw [honward.slice_eq hc.1, hcode.textUpTo_eq, hch]
  have hread := decodeFirst?_utf8EncodeChar ch []
  rw [hone] at hread
  exact hread.symm

/-- The scanner passes all white space but the next line character. -/
theorem isWhiteSpace_iff_of_isCode (h : isCode ch = true) :
    isWhiteSpace ch = true ↔ ch = '\u0085' := by
  have hcontrol : '\t' ≤ ch → ch ≤ '\r' → isCode ch = false := by
    intro (hlow : 9 ≤ ch.toNat) (hhigh : ch.toNat ≤ 13)
    rw [← Char.ofNat_toNat ch]
    generalize ch.toNat = n at hlow hhigh
    obtain rfl | rfl | rfl | rfl | rfl : n = 9 ∨ n = 10 ∨ n = 11 ∨ n = 12 ∨ n = 13 := by omega
    all_goals decide
  constructor
  · intro hspace
    simp only [isCode, isBlank, isLineBreak, isWhiteSpace] at h hspace hcontrol
    grind
  · rintro rfl
    decide

theorem trimValue_eq_self_iff :
    trimValue text = text ↔ ∀ ch ∈ text.toList.getLast?, isWhiteSpace ch = false ∧ ch ≠ ';' := by
  have hchars : trimValue text = text ↔
      (text.toList.reverse.dropWhile isWhiteSpace).dropWhile (· == ';') = text.toList.reverse := by
    rw [trimValue, trimEnd, reverse_reverse, ← String.toList_inj, String.toList_ofList,
      reverse_eq_iff]
  rw [hchars, getLast?_eq_head?_reverse]
  cases text.toList.reverse with
  | nil => simp
  | cons a rest =>
    have hle : ∀ (p : Char → Bool) (l : List Char), (l.dropWhile p).length ≤ l.length := fun p _ =>
      (dropWhile_suffix p).length_le
    have hspaces := hle isWhiteSpace rest
    have hboth := hle (· == ';') (rest.dropWhile isWhiteSpace)
    have hsemicolons := hle (· == ';') rest
    simp only [head?_cons, Option.mem_some_iff, forall_eq', dropWhile_cons]
    split
    · next hspace =>
      refine iff_of_false (fun h => ?_) (by simp [hspace])
      have hlength := congrArg length h
      rw [length_cons] at hlength
      omega
    · next hspace =>
      rw [dropWhile_cons]
      split
      · next hsemicolon =>
        refine iff_of_false (fun h => ?_) (by simp_all)
        have hlength := congrArg length h
        rw [length_cons] at hlength
        omega
      · next hsemicolon => exact iff_of_true rfl ⟨by simpa using hspace, by simpa using hsemicolon⟩

/-! ## Default exports of a module -/

theorem Scan.ModuleRun.defaultRun {body : List Statement} {v : DefaultExport} {r : Range}
    (h : ModuleRun c body e) (hc : c.IsIn text) (hs : .exportDefault v r ∈ body) :
    ∃ q d, q.IsIn text ∧ DefaultRun q v d := by
  obtain ⟨q, d, hq, -, hread⟩ := h.exists_read hs
  cases topLevelStatement_run hread with
  | importing hread =>
    obtain ⟨_, _, heq⟩ := importStatement_run hread
    cases heq
  | exporting hread =>
    cases exportStatement_run hread with
    | default hx hspace hvalue =>
      exact ⟨_, _, (hq.trans (hx.trans (space_onward hspace))).isIn hc, hvalue⟩

theorem Scan.DefaultRun.endsInCode {v : DefaultExport} (h : DefaultRun c v d) (hc : c.IsIn text) :
    v.range.EndsInCode text ∧
      (v.declaration?.isSome → (v.range.slice text).toList.getLast? = some '\x7d') := by
  have hbody : ∀ {q body}, c.Onward d → c.pos < d.pos → braces q = .ok body d →
      (c.rangeTo d).EndsInCode text ∧
        ((c.rangeTo d).slice text).toList.getLast? = some '\x7d' := by
    intro q body honward hlt hbody
    have hlast := braces_last hc honward hlt hbody
    exact ⟨⟨_, hlast, by decide, fun h => absurd h (by decide)⟩, hlast⟩
  cases h with
  | function hread =>
    obtain ⟨hrange, -, q, body, hbraces⟩ := functionDeclaration_run hread
    obtain ⟨honward, hlt⟩ := (functionDeclaration_progresses false).advances hread
    rw [DefaultExport.range, hrange]
    exact (hbody honward hlt hbraces).imp_right fun h _ => h
  | classOf hread =>
    obtain ⟨hrange, -, q, body, hbraces⟩ := classDeclaration_run hread
    obtain ⟨honward, hlt⟩ := (classDeclaration_progresses false).advances hread
    rw [DefaultExport.range, hrange]
    exact (hbody honward hlt hbraces).imp_right fun h _ => h
  | expression hread => exact ⟨value_endsInCode hc hread, fun h => by cases h⟩

theorem Converter.occurs_bound (k : Converter) (m : Module) (path : Option String)
    {value : DefaultExport} {range : Range} (hs : .exportDefault value range ∈ m.body)
    (hvalue : value.knownAs = none) :
    Occurs ("const __esm_default = " ++ trimValue (value.range.slice text) ++ ";")
      (k.convert m text path).1 := by
  have hline : .bindDefault (trimValue (value.range.slice text)) ∈ k.lines m text path := by
    refine mem_convertStatements_lines.mpr (.inr ⟨_, hs, .inl (.inr (.inr ?_))⟩)
    simp [Statement.adds, DefaultExport.lines, hvalue, boundDefaultLines, settingOf]
  exact (occurs_renderLines hline).trans (k.occurs_lines m text path)

/-- A value without a name is bound verbatim, unless its code ends with the next line character or
with a semicolon. A function or a class always is; and a semicolon ends the code only where nothing
follows in the text. -/
theorem Converter.default_verbatim_iff {m : Module} (hread : parseModule text = .ok m)
    {value : DefaultExport} {range : Range} (hs : .exportDefault value range ∈ m.body)
    (hvalue : value.knownAs = none) (k : Converter) (path : Option String) :
    Occurs ("const __esm_default = " ++ trimValue (value.range.slice text) ++ ";")
        (k.convert m text path).1 ∧
      (trimValue (value.range.slice text) = value.range.slice text ↔
        (value.range.slice text).toList.getLast? ≠ some '\u0085' ∧
          (value.range.slice text).toList.getLast? ≠ some ';') ∧
      (value.declaration?.isSome →
        trimValue (value.range.slice text) = value.range.slice text) ∧
      ((value.range.slice text).toList.getLast? = some ';' →
        ((ofText text).moveTo value.range.stop).OnlyTriviaFollows) := by
  obtain ⟨e, hrun⟩ := parseModule_eq_ok.mp hread
  obtain ⟨q, d, hq, hdefault⟩ := hrun.defaultRun (isIn_pastShebang text) hs
  obtain ⟨⟨ch, hlast, hcode, hend⟩, hbrace⟩ := hdefault.endsInCode hq
  refine ⟨k.occurs_bound m path hs hvalue, ?_, fun hsome => ?_, fun hsemi => ?_⟩
  · rw [trimValue_eq_self_iff, hlast]
    have hspace := isWhiteSpace_iff_of_isCode hcode
    simp [← hspace]
  · rw [trimValue_eq_self_iff, hbrace hsome]
    rintro _ ⟨⟩
    decide
  · exact hend (Option.some.inj (hlast.symm.trans hsemi))

def nextLineExport : String :=
  "export default a\u0085"

theorem nextLine_trimmed :
    ∃ m value range, parseModule nextLineExport = .ok m ∧ .exportDefault value range ∈ m.body ∧
      value.knownAs = none ∧ value.range.slice nextLineExport = "a\u0085" ∧
      Occurs "const __esm_default = a;"
        ((Converter.ofOptions .standard).convert m nextLineExport none).1 ∧
      trimValue (value.range.slice nextLineExport) ≠ value.range.slice nextLineExport := by
  have hread : parseModule nextLineExport =
      .ok ⟨[.exportDefault (.expression (.verbatim "a\u0085" ⟨15, 18⟩)) ⟨0, 18⟩]⟩ := by cbv
  have hslice : (⟨15, 18⟩ : Range).slice nextLineExport = "a\u0085" := by decide
  have htrim : trimValue ((⟨15, 18⟩ : Range).slice nextLineExport) = "a" := by
    rw [hslice]
    decide
  obtain ⟨hoccurs, hiff, -⟩ := Converter.default_verbatim_iff hread mem_cons_self rfl
    (.ofOptions .standard) none
  refine ⟨_, _, _, hread, mem_cons_self, rfl, hslice, ?_, fun h => (hiff.mp h).1 ?_⟩
  · change Occurs ("const __esm_default = " ++ trimValue ((⟨15, 18⟩ : Range).slice nextLineExport) ++
      ";") _ at hoccurs
    rwa [htrim] at hoccurs
  · change ((⟨15, 18⟩ : Range).slice nextLineExport).toList.getLast? = _
    rw [hslice]
    decide

end ModuleBridge
