import ModuleBridge.Proofs.Grammar.PatternReading
import ModuleBridge.Proofs.Source.NameEnd

/-!
# Lone names, strings and numbers

The tokens of an expression are read from the whole text, not from the slice that the expression
covers. Where an expression ends nothing goes on with its last token, so a token covers the
expression exactly when the slice is the text of such a token.
-/

namespace ModuleBridge

open Cursor List Scan

variable {c d e : Cursor} {stop : Nat}

theorem joinsToken_of_ends {b : UInt8} : (b == byte ';' || b == byte ',' || isCloser b) = true →
    joinsToken b = false := by
  apply forall_byte _ b
  decide +kernel

theorem StretchRun.stopsToken {start : Cursor} {depth : Nat}
    (h : StretchRun .expression start c depth d) : StopsToken d.after := by
  -- Trivia joins no token, so only an end without trivia in front of it is of interest.
  have htrivia : ∀ {c q : Cursor} {crosses : Bool}, trivia c = .ok crosses q →
      StopsToken c.after ∨ q = c ∧ crosses = false := by
    intro c q crosses hspace
    obtain ⟨length, hreach, rfl⟩ := trivia_eq_ok.mp hspace
    rcases triviaReach_eq_clear hreach with ⟨-, rfl, rfl⟩ | ⟨more, breaks, _, _, hitem, _⟩
    · exact .inr ⟨c.advance_zero, rfl⟩
    · refine .inl ?_
      cases hafter : c.after with
      | nil => rfl
      | cons b rest =>
        refine stopsToken_cons (Bool.eq_false_iff.mpr fun hjoins => ?_)
        rw [hafter, triviaItem_of_startsCode (startsCode_of_joins hjoins)] at hitem
        cases hitem
  induction h with
  | atEnd hspace hq =>
    rcases htrivia hspace with hstops | ⟨rfl, -⟩
    · exact hstops
    · rw [hq]
      rfl
  | before hspace hq hb =>
    rcases htrivia hspace with hstops | ⟨rfl, rfl⟩
    · exact hstops
    · rw [hq]
      exact stopsToken_cons (joinsToken_of_ends (ends_of_before hb))
  | after _ _ hb => grind [StretchKind.boundary]
  | block _ _ hkind => cases hkind
  | token _ _ _ _ _ _ ih => exact ih

/-! ## Tokens that cover an expression -/

theorem Cursor.Passes.eq_of_pos {text other : String} (h : c.Passes text d) (h' : c.Passes other e)
    (hpos : e.pos = d.pos) : other = text ∧ e = d := by
  have hlength : (bytesOf other).length = (bytesOf text).length := by
    rw [h.eq_past, h'.eq_past, pos_past h.after_eq, pos_past h'.after_eq] at hpos
    exact Nat.add_left_cancel hpos
  have htext := (append_inj (h'.after_eq.symm.trans h.after_eq) hlength).1
  obtain rfl := bytesOf_inj.mp htext
  exact ⟨rfl, h'.eq_past.trans h.eq_past.symm⟩

theorem classifyExpression_of_quoted {q : Quoted} (h : coversTo quoted c stop = some q) :
    classifyExpression c stop = .string q.value ⟨c.pos, stop⟩ := by
  obtain ⟨d, hrun, -⟩ := coversTo_eq_some.mp h
  obtain ⟨b, hb, hquote⟩ : ∃ b, c.byte? = some b ∧ isQuote b = true := by
    unfold quoted at hrun
    grind [byte?]
  simp [classifyExpression, hb, hquote, h]

theorem classifyExpression_of_number {t : NumberToken} (h : coversTo number c stop = some t) :
    classifyExpression c stop = .number t.value ⟨c.pos, stop⟩ := by
  obtain ⟨d, hrun, -⟩ := coversTo_eq_some.mp h
  obtain ⟨b, hb, hdigit⟩ : ∃ b, c.byte? = some b ∧ (isDigitByte b || b == byte '.') = true := by
    cases hafter : c.after with
    | nil => simp [number, hafter] at hrun
    | cons b rest =>
      refine ⟨b, by rw [byte?, hafter]; rfl, Bool.not_eq_false _ |>.mp fun hother => ?_⟩
      obtain ⟨hdigit, hpoint⟩ := Bool.or_eq_false_iff.mp hother
      have hhead : (some b == some (byte '.')) = false := hpoint
      simp only [number, hafter, takeWhile_cons, dropWhile_cons, hdigit, head?_cons, hhead,
        Bool.false_eq_true, if_false, append_nil] at hrun
      cases hrun
  have hquote : isQuote b = false := by
    revert hdigit
    apply forall_byte _ b
    decide +kernel
  simp only [classifyExpression, hb, hquote, hdigit, h, Bool.false_eq_true, if_false, if_true]

theorem classifyExpression_of_name {n : Name} (h : coversTo name c stop = some n) :
    classifyExpression c stop = .name n := by
  obtain ⟨d, hrun, -⟩ := coversTo_eq_some.mp h
  have hstart := (name_eq_ok.mp hrun).1
  cases hb : c.byte? with
  | none => simp [hb] at hstart
  | some b =>
    rw [hb, Option.any_some] at hstart
    have hother : isQuote b = false ∧ (isDigitByte b || b == byte '.') = false := by
      revert hstart
      apply forall_byte _ b
      decide +kernel
    simp only [classifyExpression, hb, hother, hstart, h, Bool.false_eq_true, if_false, if_true]

/-- One of the three tokens covers the expression, or it is kept verbatim. -/
theorem classifyExpression_cases (c : Cursor) (stop : Nat) :
    (∃ q, coversTo quoted c stop = some q ∧
      classifyExpression c stop = .string q.value ⟨c.pos, stop⟩) ∨
    (∃ t, coversTo number c stop = some t ∧
      classifyExpression c stop = .number t.value ⟨c.pos, stop⟩) ∨
    (∃ n, coversTo name c stop = some n ∧ classifyExpression c stop = .name n) ∨
    classifyExpression c stop = .verbatim (textOf (c.after.take (stop - c.pos))) ⟨c.pos, stop⟩ := by
  cases hquoted : coversTo quoted c stop with
  | some q => exact .inl ⟨q, rfl, classifyExpression_of_quoted hquoted⟩
  | none =>
    cases hnumber : coversTo number c stop with
    | some t => exact .inr (.inl ⟨t, rfl, classifyExpression_of_number hnumber⟩)
    | none =>
      cases hname : coversTo name c stop with
      | some n => exact .inr (.inr (.inl ⟨n, rfl, classifyExpression_of_name hname⟩))
      | none =>
        refine .inr (.inr (.inr ?_))
        simp only [classifyExpression, hquoted, hnumber, hname, ite_self]
        cases c.byte? <;> rfl

/-! ## The classes of expressions -/

/-- The slice is one complete string, with `value` between its quotes. -/
def IsStringOf (slice value : String) : Prop :=
  ∃ mark, ∃ items : List (StringItem mark), slice = stringText mark items ∧
    value = String.ofList (items.flatMap StringItem.chars)

theorem IsStringOf.value_eq {slice value other : String} (h : IsStringOf slice value)
    (h' : IsStringOf slice other) : value = other := by
  obtain ⟨mark, items, rfl, rfl⟩ := h
  obtain ⟨mark', items', hslice, rfl⟩ := h'
  have hchars := congrArg String.toList hslice
  simp only [stringText, String.toList_ofList, cons_append, List.cons.injEq] at hchars
  rw [(append_inj' hchars.2 rfl).1]

section Covers

variable {slice : String} (hc : c.IsBoundary) (hslice : c.Passes slice d)
  (hstop : StopsToken d.after)

include hc hslice

theorem coversTo_quoted_iff {value : String} :
    (∃ q, coversTo quoted c d.pos = some q ∧ q.value = value) ↔ IsStringOf slice value := by
  have hread : ∀ {q}, coversTo quoted c d.pos = some q → IsStringOf slice q.value := by
    intro q hq
    obtain ⟨e, hrun, hpos⟩ := coversTo_eq_some.mp hq
    obtain ⟨mark, items, hpasses, hvalue⟩ := quoted_passes hc hrun
    obtain ⟨rfl, -⟩ := hslice.eq_of_pos hpasses hpos
    exact ⟨mark, items, rfl, by rw [← hvalue, String.ofList_toList]⟩
  constructor
  · rintro ⟨q, hq, rfl⟩
    exact hread hq
  · intro h
    obtain ⟨mark, items, rfl, -⟩ := id h
    obtain ⟨q, hrun⟩ := quoted_items mark items hslice.after_eq
    rw [← hslice.eq_past] at hrun
    have hq := coversTo_eq_some.mpr ⟨d, hrun, rfl⟩
    exact ⟨q, hq, (hread hq).value_eq h⟩

include hstop

theorem coversTo_number_iff :
    (∃ t, coversTo number c d.pos = some t) ↔ ∃ n : DecimalText, slice = n.text := by
  constructor
  · rintro ⟨t, ht⟩
    obtain ⟨e, hrun, hpos⟩ := coversTo_eq_some.mp ht
    obtain ⟨n, hpasses⟩ := number_passes hc hrun
    exact ⟨n, (hslice.eq_of_pos hpasses hpos).1.symm⟩
  · rintro ⟨n, rfl⟩
    obtain ⟨t, hrun⟩ := number_past n hslice.after_eq hstop
    exact ⟨t, coversTo_eq_some.mpr ⟨_, hrun, by rw [hslice.eq_past]⟩⟩

theorem coversTo_name_iff {n : Name} :
    coversTo name c d.pos = some n ↔ IsIdentifier slice ∧ n = ⟨slice, c.rangeTo d⟩ := by
  rw [coversTo_eq_some]
  constructor
  · rintro ⟨e, hrun, hpos⟩
    obtain ⟨i, hpasses, htext⟩ := name_passes hc hrun
    obtain ⟨rfl, rfl⟩ := hslice.eq_of_pos hpasses hpos
    obtain ⟨-, -, rfl⟩ := name_eq_ok.mp hrun
    exact ⟨i.isIdentifier, by rw [← htext]⟩
  · rintro ⟨hidentifier, rfl⟩
    have hrun := name_past (n := ⟨slice, hidentifier⟩) hslice.after_eq hstop
    rw [← hslice.eq_past] at hrun
    exact ⟨d, hrun, rfl⟩

end Covers

/-- An expression is a name, a string or a number exactly when the slice that it covers is the text
of one, and else it is kept verbatim. -/
theorem classifyExpression_exact {text : String} {r : Range} (hc : c.IsIn text)
    (hrun : expression c = .ok r d) :
    (classifyExpression c r.stop).range = r ∧
    (∀ n, classifyExpression c r.stop = .name n ↔
      IsIdentifier (r.slice text) ∧ n = ⟨r.slice text, r⟩) ∧
    (∀ value, classifyExpression c r.stop = .string value r ↔
      IsStringOf (r.slice text) value) ∧
    ((∃ value, classifyExpression c r.stop = .number value r) ↔
      ∃ n : DecimalText, r.slice text = n.text) ∧
    (classifyExpression c r.stop = .verbatim (r.slice text) r ↔
      ¬IsIdentifier (r.slice text) ∧ (∀ value, ¬IsStringOf (r.slice text) value) ∧
        ∀ n : DecimalText, r.slice text ≠ n.text) := by
  obtain ⟨hstretch, rfl⟩ := run_of_stretchFrom hrun
  obtain ⟨slice, hslice⟩ := hstretch.onward.exists_passes hc.2
  have hstop := hstretch.stopsToken
  rw [hstretch.onward.slice_eq hc.1, hslice.textUpTo_eq]
  have hname : ∀ {n}, IsIdentifier slice ∧ n = ⟨slice, c.rangeTo d⟩ →
      classifyExpression c d.pos = .name n :=
    fun h => classifyExpression_of_name ((coversTo_name_iff hc.2 hslice hstop).mpr h)
  have hstring : ∀ {value}, IsStringOf slice value →
      classifyExpression c d.pos = .string value (c.rangeTo d) := by
    intro value h
    obtain ⟨q, hq, rfl⟩ := (coversTo_quoted_iff hc.2 hslice).mpr h
    exact classifyExpression_of_quoted hq
  have hnumber : (∃ n : DecimalText, slice = n.text) →
      ∃ value, classifyExpression c d.pos = .number value (c.rangeTo d) := by
    intro h
    obtain ⟨t, ht⟩ := (coversTo_number_iff hc.2 hslice hstop).mpr h
    exact ⟨t.value, classifyExpression_of_number ht⟩
  have hcases := classifyExpression_cases c d.pos
  refine ⟨classifyExpression_range c d.pos, fun n => ⟨fun h => ?_, hname⟩,
    fun value => ⟨fun h => ?_, hstring⟩, ⟨?_, hnumber⟩, fun h => ?_, ?_⟩
  · rcases hcases with ⟨_, _, he⟩ | ⟨_, _, he⟩ | ⟨m, hm, he⟩ | he <;> cases he.symm.trans h
    exact (coversTo_name_iff hc.2 hslice hstop).mp hm
  · rcases hcases with ⟨q, hq, he⟩ | ⟨_, _, he⟩ | ⟨_, _, he⟩ | he <;> cases he.symm.trans h
    exact (coversTo_quoted_iff hc.2 hslice).mp ⟨q, hq, rfl⟩
  · rintro ⟨value, h⟩
    rcases hcases with ⟨_, _, he⟩ | ⟨t, ht, he⟩ | ⟨_, _, he⟩ | he <;> cases he.symm.trans h
    exact (coversTo_number_iff hc.2 hslice hstop).mp ⟨t, ht⟩
  · refine ⟨fun hidentifier => ?_, fun value hvalue => ?_, fun n hn => ?_⟩
    · cases h.symm.trans (hname ⟨hidentifier, rfl⟩)
    · cases h.symm.trans (hstring hvalue)
    · obtain ⟨value, hvalue⟩ := hnumber ⟨n, hn⟩
      cases h.symm.trans hvalue
  · rintro ⟨hidentifier, hvalue, hn⟩
    rcases hcases with ⟨q, hq, -⟩ | ⟨t, ht, -⟩ | ⟨n, hname, -⟩ | he
    · exact absurd ((coversTo_quoted_iff hc.2 hslice).mp ⟨q, hq, rfl⟩) (hvalue _)
    · obtain ⟨n, htext⟩ := (coversTo_number_iff hc.2 hslice hstop).mp ⟨t, ht⟩
      exact absurd htext (hn n)
    · exact absurd ((coversTo_name_iff hc.2 hslice hstop).mp hname).1 hidentifier
    · exact he.trans (congrArg (Expression.verbatim · _) hslice.textUpTo_eq)

/-- A string with an escaped quote, up to the comma behind it. -/
theorem escapedQuote_classified :
    ∃ r d, expression (ofText "'a\\'b', 1") = .ok r d ∧
      IsStringOf (r.slice "'a\\'b', 1") "a\\'b" ∧
      classifyExpression (ofText "'a\\'b', 1") r.stop = .string "a\\'b" r := by
  have hrun : expression (ofText "'a\\'b', 1") =
      .ok ⟨0, 6⟩ ((ofText "'a\\'b', 1").advance 6) := by cbv
  have hvalue : IsStringOf ((⟨0, 6⟩ : Range).slice "'a\\'b', 1") "a\\'b" :=
    ⟨.single, [.plain 'a' (by decide), .escape '\'', .plain 'b' (by decide)], by decide, by decide⟩
  have hc : (ofText "'a\\'b', 1").IsIn _ := ⟨rfl, isBoundary_ofText _⟩
  exact ⟨_, _, hrun, hvalue, ((classifyExpression_exact hc hrun).2.2.1 _).mpr hvalue⟩

end ModuleBridge
