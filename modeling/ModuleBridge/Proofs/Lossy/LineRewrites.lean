import ModuleBridge.Proofs.Grammar.PrintedLines
import ModuleBridge.Proofs.Lossy.OrdinaryLines

/-!
# Declarations in lines, rewritten

What the passes make of declarations that stand one in a line. A pass either fits at such a line,
and then takes the line and no more, or refuses it whatever follows; so a pass works on each line
alone.
What has been rewritten declares nothing and stays as it is.
-/

namespace ModuleBridge

open List Prod

variable {passes : List Pass} {line : List Char} {outs : List (List Char)}

theorem eq_ofNat_of_utf8EncodeChar {c : Char} {b : UInt8} (h : String.utf8EncodeChar c = [b])
    (hb : b < 128) : c = Char.ofNat b.toNat := by
  have hother : b < 128 → String.utf8EncodeChar (Char.ofNat b.toNat) = [b] := by
    apply forall_byte _ b
    decide +kernel
  have hc := decodeFirst?_utf8EncodeChar c []
  rw [h, ← hother hb, decodeFirst?_utf8EncodeChar] at hc
  exact (Option.some.inj hc).symm

/-- What holds of the character of every byte of a name holds of every character of it. -/
theorem Identifier.forall_chars {P : Char → Prop} (n : Identifier)
    (h : ∀ b, isNamePart b = true → P (Char.ofNat b.toNat)) : ∀ c ∈ n.text.toList, P c := by
  intro c hc
  obtain ⟨b, more, hbytes⟩ := exists_cons_of_ne_nil
    (ne_nil_of_length_pos (by
      rw [String.length_utf8EncodeChar]
      exact c.utf8Size_pos) : String.utf8EncodeChar c ≠ [])
  have hmem : b ∈ String.utf8EncodeChar c := by simp [hbytes]
  have hpart : isNamePart b = true := by
    apply n.bytes
    rw [bytesOf_eq_flatMap]
    exact mem_flatMap.mpr ⟨c, hc, hmem⟩
  have hb := isNamePart_ascii hpart
  rw [eq_ofNat_of_utf8EncodeChar (utf8EncodeChar_eq_of_mem hmem hb) hb]
  exact h b hpart

def isPlainNameChar (c : Char) : Bool :=
  Recogniser.isNameRest c && !isWhiteSpace c && c != ',' && c != '\x7d' && c != '\n' && c != '\r'

theorem Identifier.isPlainNameChar (n : Identifier) :
    ∀ c ∈ n.text.toList, ModuleBridge.isPlainNameChar c = true :=
  n.forall_chars (forall_byte (P := fun b => isNamePart b = true →
    ModuleBridge.isPlainNameChar (Char.ofNat b.toNat) = true) (by decide +kernel))

theorem Identifier.exists_chars (n : Identifier) :
    ∃ c rest, n.text.toList = c :: rest ∧ Recogniser.isNameFirst c = true := by
  obtain ⟨first, more, hbytes, hfirst⟩ := n.exists_cons
  rw [bytesOf_eq_flatMap] at hbytes
  cases hchars : n.text.toList with
  | nil =>
    rw [hchars] at hbytes
    cases hbytes
  | cons c rest =>
    rw [hchars, flatMap_cons] at hbytes
    have hb := isNamePart_ascii (b := first) (by simp [isNamePart, hfirst])
    have hmem : first ∈ String.utf8EncodeChar c := by
      cases hencode : String.utf8EncodeChar c with
      | nil => exact absurd hencode (String.utf8EncodeChar_ne_nil)
      | cons b bytes =>
        rw [hencode, cons_append] at hbytes
        simp [(List.cons.inj hbytes).1]
    refine ⟨c, rest, rfl, ?_⟩
    rw [eq_ofNat_of_utf8EncodeChar (utf8EncodeChar_eq_of_mem hmem hb) hb]
    exact forall_byte (P := fun b => isNameStart b = true →
      Recogniser.isNameFirst (Char.ofNat b.toNat) = true) (by decide +kernel) first hfirst

/-! ## Recognisers on known text -/

namespace Recogniser

variable {α β : Type} {p : Recogniser α} {next : α → Recogniser β} {text mid rest : List Char}

theorem bind_of_some {a : α} (h : p text = some (a, mid)) : (p >>= next) text = next a mid := by
  change (p text).bind (fun result => next result.1 result.2) = _
  rw [h]
  rfl

theorem bind_of_none (h : p text = none) : (p >>= next) text = none := by
  change (p text).bind (fun result => next result.1 result.2) = _
  rw [h]
  rfl

def Unspaced (text : List Char) : Prop :=
  text.head?.any isWhiteSpace = false

theorem Unspaced.dropWhile (h : Unspaced text) : text.dropWhile isWhiteSpace = text := by
  cases text with
  | nil => rfl
  | cons c text => exact dropWhile_cons_of_neg (by simpa [Unspaced] using h)

theorem space_blank {next : Unit → Recogniser β} (h : Unspaced text) :
    (space >>= next) (' ' :: text) = next () text := by
  apply bind_of_some
  change some ((), (' ' :: text).dropWhile isWhiteSpace) = _
  rw [dropWhile_cons_of_pos (by decide), h.dropWhile]

theorem space1_blank {next : Unit → Recogniser β} (h : Unspaced text) :
    (space1 >>= next) (' ' :: text) = next () text := by
  apply bind_of_some
  have hrun : run isWhiteSpace (' ' :: text) =
      some (' ' :: text.takeWhile isWhiteSpace, text) := by
    rw [run, takeWhile_cons_of_pos (by decide), dropWhile_cons_of_pos (by decide),
      h.dropWhile]
  have hrun1 : run1 isWhiteSpace (' ' :: text) =
      some (' ' :: text.takeWhile isWhiteSpace, text) := by
    rw [run1, bind_of_some hrun]
    rfl
  rw [space1, bind_of_some hrun1]
  rfl

theorem word_found {next : List Char → Recogniser β} {word : String}
    (h : word.toList.head?.any isIndentChar = false) (rest : List Char) (hne : word.toList ≠ []) :
    (do
      let indentation ← indent
      exactly word
      next indentation) (word.toList ++ rest) = next [] rest := by
  obtain ⟨c, more, hword⟩ := exists_cons_of_ne_nil hne
  have hc : ¬isIndentChar c = true := by simpa [hword] using h
  have hindent : indent (word.toList ++ rest) = some ([], word.toList ++ rest) := by
    rw [indent, run, hword, cons_append, takeWhile_cons_of_neg hc,
      dropWhile_cons_of_neg hc]
  rw [bind_of_some hindent, bind_of_some (exactly_append word rest)]

theorem name_found (n : Identifier) (rest : List Char) :
    name (n.text.toList ++ ' ' :: rest) = some (n.text.toList, ' ' :: rest) := by
  obtain ⟨c, more, hchars, hfirst⟩ := n.exists_chars
  have hmore : ∀ d ∈ more, isNameRest d = true := by
    intro d hd
    have hplain := n.isPlainNameChar d (by simp [hchars, hd])
    simp only [isPlainNameChar, Bool.and_eq_true] at hplain
    exact hplain.1.1.1.1.1
  have hblank : isNameRest ' ' = false := by decide
  simp only [name, hchars, cons_append, hfirst, if_true, takeWhile_append_of_pos hmore,
    dropWhile_append_of_pos hmore]
  simp [hblank]

theorem semicolon_found (rest : List Char) : semicolon (';' :: rest) = some ((), rest) := by
  have hindent : indent (';' :: rest) = some ([], ';' :: rest) := rfl
  have hexact : exactly ";" (';' :: rest) = some ((), rest) := exactly_append ";" rest
  rw [semicolon, bind_of_some hindent]
  simp only [optionally, hexact]

theorem source_found (s : PlainSource) (rest : List Char) :
    source ('\'' :: (s.value.toList ++ '\'' :: rest)) = some (s.value.toList, rest) := by
  have hopen : ∀ text, oneOf ["'", "\""] ('\'' :: text) = some ((), text) := by
    intro text
    simp [oneOf, exactly]
  have hinside : ∀ c ∈ s.value.toList, (!(isQuoteChar c || c == '\n')) = true := by
    intro c hc
    have hplain := s.isPlain c hc
    simp [isQuoteChar, hplain]
  have hrun : run (fun c => !(isQuoteChar c || c == '\n')) (s.value.toList ++ '\'' :: rest) =
      some (s.value.toList, '\'' :: rest) := by
    rw [run, takeWhile_append_of_pos hinside, dropWhile_append_of_pos hinside]
    simp [isQuoteChar]
  have hrun1 : run1 (fun c => !(isQuoteChar c || c == '\n')) (s.value.toList ++ '\'' :: rest) =
      some (s.value.toList, '\'' :: rest) := by
    have hne : s.value.toList.isEmpty = false := by simp [s.ne_empty]
    rw [run1, bind_of_some hrun, hne]
    rfl
  rw [source, bind_of_some (hopen _), bind_of_some hrun1, bind_of_some (hopen _)]
  rfl

end Recogniser

def PlainSource.chars (s : PlainSource) (rest : List Char) : List Char :=
  '\'' :: (s.value.toList ++ '\'' :: ';' :: rest)

def PlainSource.fromChars (s : PlainSource) (rest : List Char) : List Char :=
  "from".toList ++ ' ' :: s.chars rest

namespace Recogniser

theorem fromSource_found (s : PlainSource) (rest : List Char) :
    fromSource (s.fromChars rest) = some (s.value.toList, rest) := by
  have hunspaced : Unspaced (s.chars rest) := rfl
  rw [fromSource, PlainSource.fromChars, bind_of_some (exactly_append _ _), space_blank hunspaced,
    PlainSource.chars, bind_of_some (source_found s _), bind_of_some (semicolon_found rest)]
  rfl

theorem braces_found {inside : List Char} (h : '\x7d' ∉ inside) (rest : List Char) :
    braces ('\x7b' :: (inside ++ '\x7d' :: rest)) = some (inside, rest) := by
  have hinside : ∀ c ∈ inside, (c != '\x7d') = true := by
    intro c hc
    exact bne_iff_ne.mpr fun heq => h (heq ▸ hc)
  have hrun : run (· != '\x7d') (inside ++ '\x7d' :: rest) = some (inside, '\x7d' :: rest) := by
    rw [run, takeWhile_append_of_pos hinside, dropWhile_append_of_pos hinside]
    simp
  have hopen : exactly "\x7b" ('\x7b' :: (inside ++ '\x7d' :: rest)) =
      some ((), inside ++ '\x7d' :: rest) := exactly_append "\x7b" _
  have hclose : exactly "\x7d" ('\x7d' :: rest) = some ((), rest) := exactly_append "\x7d" _
  rw [braces, bind_of_some hopen, bind_of_some hrun, bind_of_some hclose]
  rfl

end Recogniser

theorem Identifier.unspaced (n : Identifier) (rest : List Char) :
    Recogniser.Unspaced (n.text.toList ++ rest) := by
  obtain ⟨c, more, hchars, hfirst⟩ := n.exists_chars
  have hplain := n.isPlainNameChar c (by simp [hchars])
  simp only [ModuleBridge.isPlainNameChar, Bool.and_eq_true, Bool.not_eq_true'] at hplain
  simp [Recogniser.Unspaced, hchars, hplain]

namespace Pass

open Recogniser

def EndsLine (tail : List Char) : Prop :=
  ∀ c, tail.head? = some c → c = '\n'

/-- The pass does not fit at the line. -/
def Refuses (pass : Pass) (line : List Char) : Prop :=
  ∀ ⦃tail⦄, EndsLine tail → pass (line ++ tail) = none

/-- The pass takes the line and no more, and puts `outs` in its place. -/
def Rewrites (pass : Pass) (line : List Char) (outs : List (List Char)) : Prop :=
  outs ≠ [] ∧ ∀ ⦃tail⦄, EndsLine tail →
    pass (line ++ tail) = some (.plain (joinLines false outs), tail)

/-- A line that has something on it. -/
def IsLine (line : List Char) : Prop :=
  '\n' ∉ line ∧ line ≠ []

/-- What the passes make of a line, one after the other. -/
inductive Becomes : List Pass → List Char → List (List Char) → Prop where
  | done {line : List Char} (hline : IsLine line) : Becomes [] line [line]
  | refused {pass : Pass} {passes : List Pass} {line : List Char} {outs : List (List Char)}
      (hpass : Refuses pass line) (hrest : Becomes passes line outs) :
      Becomes (pass :: passes) line outs
  | rewritten {pass : Pass} {passes : List Pass} {line : List Char} {outs : List (List Char)}
      (hline : IsLine line) (hpass : Rewrites pass line outs)
      (hrest : ∀ out ∈ outs, Becomes passes out [out]) : Becomes (pass :: passes) line outs

theorem Becomes.isLine (h : Becomes passes line outs) : IsLine line := by
  induction h with
  | done hline => exact hline
  | refused hpass hrest ih => exact ih
  | rewritten hline hpass hrest ih => exact hline

theorem Becomes.eq_of_nil (h : Becomes [] line outs) : outs = [line] := by
  cases h
  rfl

theorem becomes_of_ordinary (hpasses : ∀ pass ∈ passes, pass ∈ all) (hline : IsLine line)
    (h : isDeclarationLine line = false) : Becomes passes line [line] := by
  induction passes with
  | nil => exact .done hline
  | cons pass passes ih =>
    refine .refused (fun tail htail => ?_) (ih fun other hmem =>
      hpasses other (mem_cons_of_mem pass hmem))
    exact refuses_of_ordinary (hpasses pass mem_cons_self) h fun c hc => .inl (htail c hc)

/-! ### All lines of a text -/

section

variable {pass : Pass} {line rest : List Char} {outs : List (List Char)}

theorem step_rewritten (hline : IsLine line) (h : Rewrites pass line outs) {tail : List Char}
    (htail : EndsLine tail) :
    pass.step true (line ++ tail) = ⟨.plain (joinLines false outs), tail, false⟩ := by
  have hlast : (line.getLast? == some '\n') = false := by
    refine beq_eq_false_iff_ne.mpr fun hfeed => ?_
    exact hline.1 (mem_of_getLast? hfeed)
  have hshorter : tail.length < (line ++ tail).length := by
    have hpos := length_pos_iff.mpr hline.2
    rw [length_append]
    omega
  have htaken : (line ++ tail).take ((line ++ tail).length - tail.length) = line := by
    rw [length_append, Nat.add_sub_cancel, take_left]
  simp only [Pass.step, if_true, h.2 htail, hshorter, htaken, hlast]

/-- What a pass leaves of a line: the line itself where it does not fit. -/
def Leaves (pass : Pass) (line : List Char) (outs : List (List Char)) : Prop :=
  Refuses pass line ∧ outs = [line] ∨ Rewrites pass line outs

theorem Leaves.ne_nil (h : Leaves pass line outs) : outs ≠ [] := by
  cases h with
  | inl hrefused => simp [hrefused.2]
  | inr hrewritten => exact hrewritten.1

theorem Leaves.runFrom_line (h : Leaves pass line outs) (hline : IsLine line) (rest : List Char) :
    pass.runFrom true (line ++ '\n' :: rest) =
      ⟨joinLines true outs ++ (pass.runFrom true rest).text,
        (pass.runFrom true rest).exported⟩ := by
  have htail : EndsLine ('\n' :: rest) := by simp [EndsLine]
  cases h with
  | inl hrefused =>
    rw [Pass.runFrom_line hline.1 (hrefused.1 htail), hrefused.2]
    simp [joinLines]
  | inr hrewritten =>
    -- The pass stops in front of the line feed, which is then copied.
    have hcopy : pass.step false ('\n' :: rest) = ⟨.plain ['\n'], rest, true⟩ :=
      copyLine_feed not_mem_nil
    rw [runFrom_step (by simp) (step_rewritten hline hrewritten htail),
      runFrom_step (by simp) hcopy, joinLines_true_eq hrewritten.1]
    simp [Replacement.plain]

theorem Leaves.runFrom_last (h : Leaves pass line outs) (hline : IsLine line) :
    pass.runFrom true line = .plain (joinLines false outs) := by
  have htail : EndsLine [] := by simp [EndsLine]
  cases h with
  | inl hrefused =>
    have hnone := hrefused.1 htail
    rw [append_nil] at hnone
    rw [Pass.runFrom_last hline.1 hline.2 hnone, hrefused.2]
    rfl
  | inr hrewritten =>
    have hstep := step_rewritten hline hrewritten htail
    rw [append_nil] at hstep
    rw [runFrom_step hline.2 hstep]
    simp [Replacement.plain]

end

/-- Lines, each with what will become of it. -/
abbrev Plan := List (List Char × List (List Char))

/-- The first pass leaves lines that the other passes bring to the same end. -/
theorem Becomes.leaves {pass : Pass} (h : Becomes (pass :: passes) line outs) :
    ∃ plan : Plan, Leaves pass line (plan.map fst) ∧
      (∀ p ∈ plan, Becomes passes p.1 p.2) ∧ plan.flatMap snd = outs := by
  cases h with
  | refused hpass hrest =>
    exact ⟨[(line, outs)], .inl ⟨hpass, rfl⟩, by simpa using hrest, by simp⟩
  | rewritten hline hpass hrest =>
    refine ⟨outs.map fun out => (out, [out]), .inr ?_, ?_, ?_⟩
    · simpa [Function.comp_def] using hpass
    · intro p hp
      obtain ⟨out, hout, rfl⟩ := mem_map.mp hp
      exact hrest out hout
    · simp [flatMap_map]

theorem run_plan {pass : Pass} (feed : Bool) {plan : Plan}
    (h : ∀ p ∈ plan, Becomes (pass :: passes) p.1 p.2) :
    ∃ later : Plan, (∀ p ∈ later, Becomes passes p.1 p.2) ∧
      later.flatMap snd = plan.flatMap snd ∧ (later = [] ↔ plan = []) ∧
      pass.run (joinLines feed (plan.map fst)) =
        .plain (joinLines feed (later.map fst)) := by
  unfold Pass.run
  induction plan with
  | nil => exact ⟨[], forall_mem_nil _, rfl, Iff.rfl, runFrom_nil true⟩
  | cons p plan ih =>
    obtain ⟨line, outs⟩ := p
    have hfirst := h (line, outs) mem_cons_self
    have hline : IsLine line := hfirst.isLine
    obtain ⟨lines, hleaves, hbecome, houts⟩ := hfirst.leaves
    obtain ⟨later, hlater, hlaterOuts, hnil, hrun⟩ :=
      ih fun other hmem => h other (mem_cons_of_mem _ hmem)
    refine ⟨lines ++ later, ?_, ?_, ?_, ?_⟩
    · intro other hother
      exact (mem_append.mp hother).elim (hbecome other) (hlater other)
    · rw [flatMap_append, houts, hlaterOuts, flatMap_cons]
    · have hlines : lines ≠ [] := fun heq => hleaves.ne_nil (by rw [heq, map_nil])
      simp [hlines]
    · cases plan with
      | nil =>
        rw [hnil.mpr rfl, append_nil]
        cases feed with
        | true =>
          have hlast := hleaves.runFrom_line hline []
          rw [runFrom_nil, Replacement.plain, append_nil] at hlast
          exact hlast
        | false => exact hleaves.runFrom_last hline
      | cons q plan =>
        have hrest : later.map fst ≠ [] := by simp [hnil]
        rw [map_cons, joinLines_cons (by simp), hleaves.runFrom_line hline, hrun,
          map_append, joinLines_append hrest]
        rfl

/-- What the passes make of a text is what they make of its lines. -/
theorem runPasses_plan (feed : Bool) {plan : Plan} (h : ∀ p ∈ plan, Becomes passes p.1 p.2) :
    runPasses passes (joinLines feed (plan.map fst)) =
      .plain (joinLines feed (plan.flatMap snd)) := by
  induction passes generalizing plan with
  | nil =>
    have hsame : plan.flatMap snd = plan.map fst := by
      rw [← flatMap_singleton' (plan.map fst), flatMap_map]
      exact flatMap_congr fun p hp => (h p hp).eq_of_nil
    rw [hsame, runPasses]
  | cons pass passes ih =>
    obtain ⟨later, hlater, houts, _, hrun⟩ := run_plan feed h
    rw [runPasses, hrun, ← houts]
    simp only [Replacement.plain, ih hlater, nil_append]

end Pass

end ModuleBridge
