import ModuleBridge.Proofs.Source.IndexedScan

/-!
# Reading by offset stays in range

The operations that cut a text out of the source, and those that match or search. A text is only cut
between characters: the operations start at a boundary and pass ASCII bytes.
-/

namespace ModuleBridge

open Cursor List Option Scan

namespace Indexed

variable {text : String} {c d : Cursor}

/-! ## Matching -/

theorem startsWith?_eq (c : Cursor) (lit : String) :
    startsWith? c.bytes lit c.pos = some (c.startsWith lit) := by
  have hrest : slice? c.bytes c.pos c.bytes.length = some c.after :=
    slice?_from (n := 0) (Nat.zero_le _)
  simp only [startsWith?, hrest, bind_eq_bind, bind_some]
  rfl

theorem startsWithWord?_eq (c : Cursor) (word : String) :
    startsWithWord? c.bytes word c.pos = some (c.startsWithWord word) := by
  simp only [startsWithWord?, startsWith?_eq, bind_eq_bind, bind_some,
    c.getElem?_bytes, startsWithWord]
  cases c.startsWith word <;> rfl

theorem pos_advance_of_startsWith {lit : String} (h : c.startsWith lit = true) :
    (c.advance (bytesOf lit).length).pos = c.pos + (bytesOf lit).length := by
  obtain ⟨rest, hrest⟩ := isPrefixOf_iff_prefix.mp h
  apply pos_advance_of_le
  rw [← hrest, length_append]
  omega

theorem accept_eq (c : Cursor) (lit : String) :
    accept (startsWith? c.bytes lit c.pos) lit c.pos = observe (Scan.accept lit c) := by
  rw [accept, startsWith?_eq, bind_some, Scan.accept]
  cases hstarts : c.startsWith lit with
  | true => simp only [if_true, observe_ok, pos_advance_of_startsWith hstarts]
  | false => simp

theorem acceptWord_eq (c : Cursor) (word : String) :
    accept (startsWithWord? c.bytes word c.pos) word c.pos = observe (acceptWord word c) := by
  rw [accept, startsWithWord?_eq, bind_some, acceptWord]
  cases hstarts : c.startsWithWord word with
  | true =>
    have hpos := pos_advance_of_startsWith (startsWith_of_startsWithWord hstarts)
    simp only [if_true, observe_ok, hpos]
  | false => simp

/-- Expecting a text by offset, however it is looked for. -/
theorem expect_eq {found? : Option Bool} {lit : String} {look : Scan Bool}
    (hlook : accept found? lit c.pos = observe (look c))
    (honward : ∀ found d, look c = .ok found d → d.bytes = c.bytes) :
    expect c.bytes found? lit c.pos =
      observe ((do unless ← look do failHere .expected [lit] : Scan Unit) c) := by
  rw [expect, hlook]
  change _ = observe (EStateM.bind look _ c)
  unfold EStateM.bind
  cases hrun : look c with
  | error fault d => rfl
  | ok found d =>
    simp only [observe_ok, Outcome.andThen_ok]
    cases found with
    | true => rfl
    | false =>
      rw [← honward _ _ hrun, faultAt_eq]
      rfl

theorem skipShebang_eq (c : Cursor) :
    observe (Scan.skipShebang c) = some (.ok (), skipShebang c.bytes c.pos) := by
  change some (Except.ok (), pos _) = _
  rw [skipShebang]
  by_cases hstart : c.pos = 0
  · have hafter : c.after = c.bytes := by rw [← c.drop_bytes, hstart, drop_zero]
    have hlength : lineLength c.bytes ≤ c.after.length := by
      rw [hafter]
      exact (takeWhile_sublist _).length_le
    simp only [hstart, startsWith, hafter]
    split
    · rw [pos_advance_of_le hlength, hstart, Nat.zero_add]
    · rw [hstart]
  · simp [hstart]

theorem skipPast_eq (c : Cursor) (b : UInt8) :
    skipPast c.bytes b c.pos = observe (Scan.skipPast b c) := by
  have hrest : slice? c.bytes c.pos c.bytes.length = some c.after :=
    slice?_from (n := 0) (Nat.zero_le _)
  have hlength := c.length_bytes
  simp only [skipPast, hrest, bind_some, Scan.skipPast, observe_ok]
  rcases takeWhile_stop (· != b) c.after with hend | ⟨e, hget, he⟩
  · rw [if_neg (by omega), drop_eq_nil_of_le (by omega), pos_advance]
    simp only [head?_nil, Option.some.injEq, Prod.mk.injEq, Except.ok.injEq]
    refine ⟨rfl, ?_⟩
    omega
  · have hlt := (List.getElem?_eq_some_iff.mp hget).1
    have heq : e = b := by simpa using he
    rw [if_pos hlt, head?_drop, hget, pos_advance_of_le hlt, heq]
    simp

/-! ## Cutting texts out -/

section

variable (hbytes : c.bytes = bytesOf text)

include hbytes

theorem sliceText?_eq (hc : c.IsBoundary) (honward : c.Onward d) :
    sliceText? text c.pos d.pos = some (c.textUpTo d) := by
  have hd := (honward.boundary hc).isValid (honward.bytes_eq.trans hbytes)
  rw [sliceText?, if_pos ⟨honward.pos_le, hc.isValid hbytes, hd⟩, ← hbytes, c.drop_bytes]
  rfl

theorem name_eq (hc : c.IsBoundary) : name text c.pos = observe (Scan.name c) := by
  have hbyte : c.bytes[c.pos]? = c.byte? := c.getElem?_bytes_pos
  rw [name, ← hbytes, hbyte, faultAt_eq, Scan.name]
  by_cases hstart : c.byte?.any isNameStart = true
  · rw [if_pos hstart, if_pos hstart]
    have hstop : runEnd c.bytes isNamePart (c.pos + 1) =
        (c.advance (c.after.takeWhile isNamePart).length).pos := by
      rw [byte?] at hstart
      cases hafter : c.after with
      | nil => simp [hafter] at hstart
      | cons b rest =>
        have hpart : isNamePart b = true := by
          rw [hafter] at hstart
          simpa [isNamePart] using Or.inl hstart
        have hend := runEnd_eq (c.advance 1) isNamePart
        rw [bytes_advance, pos_advance_of_le (by simp [hafter])] at hend
        rw [hend, after_advance, advance_advance, hafter, drop_one,
          tail_cons, takeWhile_cons_of_pos hpart, length_cons, Nat.add_comm]
    have hslice := sliceText?_eq hbytes hc (.takeWhile fun b => isNamePart_ascii (b := b))
    simp only [hstop, hslice, bind_some]
    rfl
  · rw [if_neg hstart, if_neg hstart]
    rfl

theorem quoted_eq (hc : c.IsBoundary) : quoted text c.pos = observe (Scan.quoted c) := by
  simp only [quoted, ← hbytes, c.getElem?_bytes_pos, faultAt_eq, Scan.quoted]
  cases hafter : c.after with
  | nil => rfl
  | cons quote rest =>
    simp only [head?_cons]
    cases hquote : isQuote quote with
    | false => rfl
    | true =>
      simp only [if_true, string_eq hafter]
      cases hreach : quotedReach quote rest 0 with
      | broken length => rfl
      | closed length =>
        obtain ⟨n, hlength, hget⟩ := quotedReach_eq_closed hreach
        have hlt := (List.getElem?_eq_some_iff.mp hget).1
        have hascii := isQuote_ascii hquote
        -- The cuts lie just after the first quote and just before the last.
        have hfirst : (c.advance 1).IsBoundary :=
          hc.advance_past (n := 0) (by rw [hafter]; rfl) hascii
        have hlast : (c.advance 1).Onward ((c.advance 1).advance n) :=
          .of_advance fun h => h.advance_before (by simpa [hafter] using hget) hascii
        have hslice := sliceText?_eq ((c.bytes_advance 1).trans hbytes) hfirst hlast
        have hsize : c.after.length = rest.length + 1 := by rw [hafter, length_cons]
        rw [textUpTo_advance, after_advance, advance_advance,
          pos_advance_of_le (by omega), pos_advance_of_le (by omega), hafter,
          drop_one, tail_cons] at hslice
        simp only [Outcome.andThen_ok, observe_ok]
        rw [pos_advance_of_le (by omega), difference?_of_le (by omega)]
        rw [show c.pos + (length + 1) - 1 = c.pos + (1 + n) by omega]
        simp only [bind_some, hslice, rangeTo]
        rw [pos_advance_of_le (by omega), show length - 1 = n by omega]

/-! ## Numbers -/

omit hbytes in
theorem bytesOf_textUpTo (hc : c.IsBoundary) (honward : c.Onward d) :
    bytesOf (c.textUpTo d) = c.after.take (d.pos - c.pos) := by
  obtain ⟨n, rfl⟩ := honward.reaches
  obtain ⟨⟨front, hfront⟩, _⟩ := id hc
  obtain ⟨⟨longer, hlonger⟩, _⟩ := honward.boundary hc
  rw [before_advance, reverse_append, reverse_reverse, hfront] at hlonger
  obtain ⟨between, hbetween⟩ := exists_rest hlonger.symm
  have hlength : (c.advance n).pos - c.pos = min n c.after.length := by
    rw [pos_advance]
    omega
  rw [textUpTo_advance, hbetween, textOf_bytesOf, ← hbetween, hlength]
  by_cases hn : n ≤ c.after.length
  · rw [Nat.min_eq_left hn]
  · rw [Nat.min_eq_right (by omega), take_length, take_of_length_le (by omega)]

omit hbytes in
theorem isDigitByte_of_mem_takeWhile {bytes : List UInt8} :
    ∀ b ∈ bytes.takeWhile isDigitByte, isDigitByte b = true := by
  exact all_eq_true.mp all_takeWhile

section Decimal

variable {whole fraction : List UInt8}

section

variable (hwhole : ∀ b ∈ whole, isDigitByte b = true)

include hwhole

omit hbytes in
theorem decimalValue_whole :
    decimalValue whole = Binary64.ofDecimal (digitsValue whole) 0 := by
  have hdrop : whole.dropWhile isDigitByte = [] := by
    rw [← append_nil whole, dropWhile_append_of_pos hwhole, dropWhile_nil]
  rw [decimalValue, filter_eq_self.mpr hwhole, hdrop]
  rfl

omit hbytes in
theorem decimalValue_point (hfraction : ∀ b ∈ fraction, isDigitByte b = true) :
    decimalValue (whole ++ byte '.' :: fraction) =
      Binary64.ofDecimal (digitsValue (whole ++ fraction)) fraction.length := by
  have hpoint : ¬isDigitByte (byte '.') = true := by decide
  rw [decimalValue, filter_append, filter_cons_of_neg hpoint,
    filter_eq_self.mpr hwhole, filter_eq_self.mpr hfraction,
    dropWhile_append_of_pos hwhole, dropWhile_cons_of_neg hpoint]
  rfl

omit hbytes in
theorem any_isDigitByte : whole.any isDigitByte = !whole.isEmpty := by
  cases whole with
  | nil => rfl
  | cons b whole => simp [hwhole b (.head _)]

end

end Decimal

/-- What is left to do once the end of a number is known. -/
theorem number_cut (hc : c.IsBoundary) {n : Nat} {digits : List UInt8} {places : Nat}
    (hn : n ≤ c.after.length) (honward : c.Onward (c.advance n))
    (hany : (c.after.take n).any isDigitByte = !digits.isEmpty)
    (hvalue : decimalValue (c.after.take n) =
      Binary64.ofDecimal (digitsValue digits) places) :
    ((sliceText? text c.pos (c.pos + n)).bind fun raw =>
      if (bytesOf raw).any isDigitByte then
        some (.ok (NumberToken.mk (decimalValue (bytesOf raw)) ⟨c.pos, c.pos + n⟩), c.pos + n)
      else some (.error (c.fault .digitExpected []), c.pos)) =
    observe (match digits with
      | [] => .error (c.fault .digitExpected []) c
      | digits =>
        .ok ⟨Binary64.ofDecimal (digitsValue digits) places, c.rangeTo (c.advance n)⟩
          (c.advance n)) := by
  have hpos := pos_advance_of_le hn
  have hslice := sliceText?_eq hbytes hc honward
  have hraw := bytesOf_textUpTo hc honward
  rw [hpos] at hslice hraw
  rw [hslice, bind_some, hraw, Nat.add_sub_cancel_left, hany, hvalue]
  cases digits with
  | nil => rfl
  | cons b digits =>
    simp only [isEmpty_cons, Bool.not_false, if_true, observe_ok, rangeTo, hpos]

theorem number_eq (hc : c.IsBoundary) : number text c.pos = observe (Scan.number c) := by
  have hdigits : ∀ b ∈ c.after.takeWhile isDigitByte, isDigitByte b = true :=
    isDigitByte_of_mem_takeWhile
  have hwhole : c.Onward (c.advance (c.after.takeWhile isDigitByte).length) :=
    .takeWhile fun b => isDigitByte_ascii
  have hle : (c.after.takeWhile isDigitByte).length ≤ c.after.length :=
    (takeWhile_sublist _).length_le
  have hsplit : c.after = c.after.takeWhile isDigitByte ++ c.after.dropWhile isDigitByte :=
    takeWhile_append_dropWhile.symm
  have hget : c.bytes[c.pos + (c.after.takeWhile isDigitByte).length]? =
      (c.after.dropWhile isDigitByte).head? := by
    rw [c.getElem?_bytes, dropWhile_eq_drop, head?_drop]
  rw [number, ← hbytes, runEnd_eq, pos_advance_of_le hle, hget, faultAt_eq, Scan.number]
  generalize c.after.takeWhile isDigitByte = whole at hdigits hwhole hle hsplit ⊢
  generalize c.after.dropWhile isDigitByte = rest at hsplit ⊢
  by_cases hpoint : (rest.head? == some (byte '.')) = true
  · cases rest with
    | nil => simp at hpoint
    | cons b rest =>
      have hb : b = byte '.' := by simpa using hpoint
      subst hb
      have hfraction : ∀ b ∈ rest.takeWhile isDigitByte, isDigitByte b = true :=
        isDigitByte_of_mem_takeWhile
      have hrest : (c.advance (whole.length + 1)).after = rest := by
        rw [after_advance, hsplit, drop_append]
        simp
      have hdrop : c.bytes.drop (c.pos + whole.length + 1) = rest := by
        rw [← drop_drop, ← drop_drop, c.drop_bytes, drop_drop]
        exact hrest
      have hfew : (rest.takeWhile isDigitByte).length ≤ rest.length :=
        (takeWhile_sublist _).length_le
      have hsize := congrArg List.length hsplit
      rw [length_append, length_cons] at hsize
      have hpast : (c.advance whole.length).Onward (c.advance (whole.length + 1)) := by
        rw [← advance_advance]
        refine .of_advance fun h => h.advance_past (n := 0) (b := byte '.') ?_ (by decide)
        rw [after_advance, hsplit, drop_left]
        rfl
      have hmore := Cursor.Onward.takeWhile (c := c.advance (whole.length + 1)) fun b =>
        isDigitByte_ascii (b := b)
      rw [hrest, advance_advance] at hmore
      have hends := takeWhile_append_dropWhile (p := isDigitByte) (l := rest)
      simp only [if_pos hpoint, runEnd, hdrop, tail_cons]
      generalize rest.takeWhile isDigitByte = fraction at hfraction hfew hmore hends ⊢
      have htake : c.after.take (whole.length + 1 + fraction.length) =
          whole ++ byte '.' :: fraction := by
        rw [hsplit, ← hends, ← cons_append, ← append_assoc]
        apply take_left'
        rw [length_append, length_cons]
        omega
      rw [show c.pos + whole.length + 1 + fraction.length =
        c.pos + (whole.length + 1 + fraction.length) by omega]
      refine number_cut hbytes hc (by omega) (hwhole.trans (hpast.trans hmore)) ?_ ?_
      · have hnone : isDigitByte (byte '.') = false := by decide
        rw [htake, ← any_isDigitByte, any_append, any_cons, hnone, Bool.false_or,
          any_append]
        intro b hb
        cases mem_append.mp hb with
        | inl hb => exact hdigits b hb
        | inr hb => exact hfraction b hb
      · rw [htake, decimalValue_point hdigits hfraction]
  · have htake : c.after.take whole.length = whole := by rw [hsplit, take_left]
    simp only [if_neg hpoint]
    refine number_cut hbytes hc hle hwhole ?_ ?_
    · rw [htake, any_isDigitByte hdigits, append_nil]
    · rw [htake, decimalValue_whole hdigits, append_nil]
      rfl

/-! ## Words -/

theorem nextWordFrom_eq {rounds : Nat} (hc : c.IsBoundary) (hrounds : c.after.length < rounds) :
    nextWordFrom text rounds c.pos = observe (ModuleBridge.nextWordFrom c) := by
  induction rounds generalizing c with
  | zero => omega
  | succ rounds ih =>
    have hnext : ∀ {d : Cursor}, c.Onward d → d.after.length < c.after.length →
        nextWordFrom text rounds d.pos = observe (ModuleBridge.nextWordFrom d) := by
      intro d honward hless
      exact ih (honward.bytes_eq.trans hbytes) (honward.boundary hc) (by omega)
    rw [nextWordFrom, ModuleBridge.nextWordFrom_eq, ← hbytes, trivia_eq]
    cases htrivia : Scan.trivia c with
    | error fault q => rfl
    | ok crosses q =>
      have honward := trivia_onward htrivia
      have hshort := honward.length_le
      have hqbytes := honward.bytes_eq
      simp only [observe_ok, Outcome.andThen_ok, ← hqbytes]
      rw [q.getElem?_bytes_pos]
      cases hq : q.after with
      | nil => rfl
      | cons b rest =>
        simp only [head?_cons, literal_eq hq]
        cases hliteral : Scan.literal q with
        | error fault e => rfl
        | ok found e =>
          cases found with
          | true =>
            have hpast := literal_onward hliteral
            have hless := literal_lt hliteral
            exact hnext (honward.trans hpast) (by omega)
          | false =>
            simp only [observe_ok, Outcome.andThen_ok, Bool.false_eq_true, if_false]
            by_cases hstart : isNameStart b = true
            · have hpart : isNamePart b = true := by simp [isNamePart, hstart]
              have hrun : q.Onward (q.advance (q.after.takeWhile isNamePart).length) :=
                .takeWhile fun b => isNamePart_ascii
              have hslice := sliceText?_eq (hqbytes.trans hbytes) (honward.boundary hc) hrun
              rw [if_pos hstart, if_pos hstart, runEnd_eq, advance_nameParts hq hpart,
                hslice]
              rfl
            rw [if_neg hstart, if_neg hstart]
            by_cases hdigit : isDigitByte b = true
            · have hpart : isNamePart b = true := by simp [isNamePart, hdigit]
              have hless := advance_lt
                (Nat.succ_pos (rest.takeWhile isNamePart).length) hq
              rw [if_pos hdigit, if_pos hdigit, runEnd_eq]
              rw [Nat.succ_eq_add_one, advance_nameParts hq hpart] at hless
              rw [advance_nameParts hq hpart]
              exact hnext (honward.trans (.takeWhile fun b => isNamePart_ascii)) (by omega)
            · have hless := advance_lt q.stepLength_pos hq
              have hstep := stepLength_le (c := q) (by simp [hq])
              rw [if_neg hdigit, if_neg hdigit, stepLength_eq,
                ← pos_advance_of_le hstep]
              refine hnext (honward.trans (.of_advance ?_)) (by omega)
              exact fun hbound => hbound.advance_stepLength

theorem nextWord_eq (hc : c.IsBoundary) : nextWord text c.pos = observe (Scan.nextWord c) := by
  have hlength := c.length_bytes
  rw [hbytes] at hlength
  exact nextWordFrom_eq hbytes hc (by omega)

end

end Indexed

end ModuleBridge
