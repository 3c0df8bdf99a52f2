import ModuleBridge.Proofs.Lossy.DeclarationLines

/-!
# Ordinary lines in a lossy conversion

A pass only takes text that begins with the word `import` or `export`, and what it asks for behind
the word, even on a later line, makes the first line one that declares. So no pass fits where the
lines of a text declare nothing, and such a text comes out as it went in.
-/

namespace ModuleBridge

open List

variable {c : Char} {text tail : List Char} {word : String}

/-- What stands behind one of the two words makes them a declaration: the word ends there, and the
next character, white space and line ends apart, is neither a parenthesis nor a point. -/
def Declares (rest : List Char) : Prop :=
  (∀ c, rest.head? = some c → isWordChar c = false) ∧
    ∀ c, rest.find? (!isWhiteSpace ·) = some c → c ≠ '(' ∧ c ≠ '.'

/-- A text that begins with a declaration, at its indentation. -/
def BeginsDeclaration (text : List Char) : Prop :=
  ∃ indentation word rest, text = indentation ++ word ++ rest ∧
    (∀ c ∈ indentation, Recogniser.isIndentChar c = true) ∧
    (word = "import".toList ∨ word = "export".toList) ∧ Declares rest

/-! ## What recognisers ask for -/

namespace Recogniser

variable {α β : Type} {P : List Char → Prop} {q : Char → Bool}

/-- `p` only takes texts with the property `P`. -/
def Asks (P : List Char → Prop) (p : Recogniser α) : Prop :=
  ∀ ⦃text a rest⦄, p text = some (a, rest) → P text

/-- The first character of a text satisfies `q`. -/
def Heads (q : Char → Bool) (text : List Char) : Prop :=
  ∃ c rest, text = c :: rest ∧ q c = true

namespace Asks

theorem bind {p : Recogniser β} {next : β → Recogniser α} (hp : Asks P p) :
    Asks P (p >>= next) := by
  intro text a rest h
  obtain ⟨b, mid, hfirst, _⟩ := bind_eq_some.mp h
  exact hp hfirst

theorem taken {p : Recogniser α} (hp : Asks P p) : Asks P (taken p) := by
  intro text result rest h
  unfold Recogniser.taken at h
  split at h
  · next value rest' htake => exact hp htake
  · cases h

theorem optionally {p : Recogniser β} {next : Unit → Recogniser α} (hp : Asks P p)
    (hnext : Asks P (next ())) : Asks P (optionally p >>= next) := by
  intro text a rest h
  obtain ⟨_, mid, hfirst, hrest⟩ := bind_eq_some.mp h
  unfold Recogniser.optionally at hfirst
  split at hfirst
  · next result mid' htake => exact hp htake
  · cases hfirst
    exact hnext hrest

theorem exactly (hword : word.toList.head?.any q = true) : Asks (Heads q) (exactly word) := by
  intro text a rest h
  unfold Recogniser.exactly at h
  split at h
  · next htake =>
    obtain ⟨more, rfl⟩ := isPrefixOf_iff_prefix.mp htake
    cases hchars : word.toList with
    | nil => simp [hchars] at hword
    | cons c chars => exact ⟨c, chars ++ more, rfl, by simpa [hchars] using hword⟩
  · cases h

theorem oneOf {words : List String} (hwords : (words.all (·.toList.head?.any q)) = true) :
    Asks (Heads q) (oneOf words) := by
  induction words with
  | nil =>
    intro text a rest h
    cases h
  | cons word words ih =>
    rw [all_cons, Bool.and_eq_true] at hwords
    intro text a rest h
    simp only [Recogniser.oneOf] at h
    split at h
    · next result htake => exact exactly hwords.1 htake
    · exact ih hwords.2 h

theorem name (hq : ∀ c, isNameFirst c = true → q c = true) : Asks (Heads q) name := by
  intro text a rest h
  unfold Recogniser.name at h
  split at h
  · next c more =>
    split at h
    · next hfirst => exact ⟨c, more, rfl, hq c hfirst⟩
    · cases h
  · cases h

end Asks

end Recogniser

/-! ## Behind the word -/

theorem toNat_mem_of_isWhiteSpace (h : isWhiteSpace c = true) :
    c.toNat ∈ [9, 10, 11, 12, 13, 32, 0x85, 0xa0, 0x1680, 0x2000, 0x2001, 0x2002, 0x2003, 0x2004,
      0x2005, 0x2006, 0x2007, 0x2008, 0x2009, 0x200a, 0x2028, 0x2029, 0x202f, 0x205f, 0x3000] := by
  simp only [isWhiteSpace, Bool.or_eq_true, Bool.and_eq_true, decide_eq_true_eq, beq_iff_eq,
    Char.le_def, UInt32.le_iff_toNat_le] at h
  rcases h with (((((((((⟨hlow, hhigh⟩ | rfl) | rfl) | rfl) | rfl) | ⟨hlow, hhigh⟩) | rfl) | rfl) |
    rfl) | rfl) | rfl
  case inl.inl.inl.inl.inl.inl.inl.inl.inl.inl =>
    have hlow : 9 ≤ c.toNat := hlow
    have hhigh : c.toNat ≤ 13 := hhigh
    simp only [mem_cons]
    omega
  case inl.inl.inl.inl.inl.inr =>
    have hlow : 0x2000 ≤ c.toNat := hlow
    have hhigh : c.toNat ≤ 0x200a := hhigh
    simp only [mem_cons]
    omega
  all_goals decide

theorem isWordChar_of_isWhiteSpace (h : isWhiteSpace c = true) : isWordChar c = false := by
  have hcodes : [9, 10, 11, 12, 13, 32, 0x85, 0xa0, 0x1680, 0x2000, 0x2001, 0x2002, 0x2003, 0x2004,
      0x2005, 0x2006, 0x2007, 0x2008, 0x2009, 0x200a, 0x2028, 0x2029, 0x202f, 0x205f, 0x3000].all
      (fun code => !isWordChar (Char.ofNat code)) = true := by decide +kernel
  have hc := all_eq_true.mp hcodes _ (toNat_mem_of_isWhiteSpace h)
  simpa [Char.ofNat_toNat] using hc

namespace Recogniser

variable {α : Type}

/-- A character that makes a declaration of the word before it, when that has ended. -/
def isNoCall (c : Char) : Bool :=
  c != '(' && c != '.'

/-- A character that ends the word right before it and makes a declaration of it. -/
def isDeclaring (c : Char) : Bool :=
  !isWordChar c && isNoCall c

/-- The first character behind white space is the one that counts. -/
theorem declares_of_dropWhile {more : List Char} (hdrop : text.dropWhile isWhiteSpace = c :: more)
    (hc : isNoCall c = true) (hend : text.head?.any isWordChar = false) : Declares text := by
  refine ⟨fun b hb => by simpa [hb] using hend, fun b hb => ?_⟩
  rw [find?_not_eq_head?_dropWhile, hdrop, head?_cons] at hb
  cases hb
  simpa [isNoCall] using hc

theorem asks_space {next : Unit → Recogniser α} (h : Asks (Heads isDeclaring) (next ())) :
    Asks Declares (space >>= next) := by
  intro text a rest htake
  obtain ⟨_, mid, hspace, hnext⟩ := bind_eq_some.mp htake
  cases hspace
  obtain ⟨c, more, hdrop, hc⟩ := h hnext
  simp only [isDeclaring, Bool.and_eq_true, Bool.not_eq_true'] at hc
  refine declares_of_dropWhile hdrop hc.2 ?_
  cases text with
  | nil => rfl
  | cons b text =>
    by_cases hb : isWhiteSpace b = true
    · exact isWordChar_of_isWhiteSpace hb
    · rw [dropWhile_cons_of_neg hb] at hdrop
      cases hdrop
      exact hc.1

theorem run1_eq_some {p : Char → Bool} {chars rest : List Char}
    (h : run1 p text = some (chars, rest)) :
    chars = text.takeWhile p ∧ rest = text.dropWhile p ∧ chars ≠ [] := by
  obtain ⟨found, mid, hrun, hdone⟩ := bind_eq_some.mp h
  cases hrun
  split at hdone
  · cases hdone
  · next hsome =>
    cases hdone
    exact ⟨rfl, rfl, by simpa using hsome⟩

theorem asks_space1 {next : Unit → Recogniser α} (h : Asks (Heads isNoCall) (next ())) :
    Asks Declares (space1 >>= next) := by
  intro text a rest htake
  obtain ⟨_, mid, hspace, hnext⟩ := bind_eq_some.mp htake
  obtain ⟨chars, behind, hrun, hdone⟩ := bind_eq_some.mp hspace
  cases hdone
  obtain ⟨hchars, rfl, hsome⟩ := run1_eq_some hrun
  obtain ⟨c, more, hdrop, hc⟩ := h hnext
  refine declares_of_dropWhile hdrop hc ?_
  cases text with
  | nil => rfl
  | cons b text =>
    by_cases hb : isWhiteSpace b = true
    · exact isWordChar_of_isWhiteSpace hb
    · rw [takeWhile_cons_of_neg hb] at hchars
      exact absurd hchars hsome

theorem asks_declaration (hword : word = "import" ∨ word = "export")
    {next : List Char → Recogniser α} (h : ∀ indentation, Asks Declares (next indentation)) :
    Asks BeginsDeclaration (do
      let indentation ← indent
      exactly word
      next indentation) := by
  intro text a rest htake
  obtain ⟨indentation, mid, hindent, hrest⟩ := bind_eq_some.mp htake
  obtain ⟨_, behind, hexact, hnext⟩ := bind_eq_some.mp hrest
  cases hindent
  unfold exactly at hexact
  split at hexact
  · next hstarts =>
    obtain ⟨more, hmore⟩ := isPrefixOf_iff_prefix.mp hstarts
    refine ⟨text.takeWhile isIndentChar, word.toList, more, ?_, ?_, ?_, ?_⟩
    · rw [append_assoc, hmore, takeWhile_append_dropWhile]
    · exact fun c hc => mem_takeWhile_imp hc
    · exact hword.imp (congrArg String.toList) (congrArg String.toList)
    · cases hexact
      rw [← hmore, drop_left] at hnext
      exact h _ hnext
  · cases hexact

end Recogniser

namespace Pass

open Recogniser

theorem isNoCall_of_isNameFirst (h : isNameFirst c = true) : isNoCall c = true := by
  have hopen : isNameFirst '(' = false := by decide
  have hpoint : isNameFirst '.' = false := by decide
  simp only [isNoCall, Bool.and_eq_true, bne_iff_ne]
  refine ⟨?_, ?_⟩
  · rintro rfl
    exact absurd h (by simp [hopen])
  · rintro rfl
    exact absurd h (by simp [hpoint])

theorem declarationWords_asks : Asks (Heads isNoCall) declarationWords := by
  refine .optionally (.bind (.exactly (by decide))) ?_
  intro text a rest h
  dsimp only at h
  split at h
  · next result htake => exact Asks.bind (.exactly (by decide)) htake
  · exact Asks.bind (.oneOf (by decide)) h

/-- Whatever a pass takes begins with a declaration. -/
theorem all_ask : ∀ pass ∈ all, Asks BeginsDeclaration pass := by
  intro pass hpass
  simp only [all, mem_cons, not_mem_nil, or_false] at hpass
  have hstar : Asks (Heads isNoCall) namespaceName := .bind (.exactly (by decide))
  have hbraces : Asks (Heads isDeclaring) braces := .bind (.exactly (by decide))
  have hsource : Asks (Heads isDeclaring) source := .bind (.oneOf (by decide))
  rcases hpass with rfl | rfl | rfl | rfl | rfl | rfl | rfl | rfl | rfl | rfl | rfl | rfl | rfl
  · exact asks_declaration (.inr rfl) fun _ => asks_space (.bind (.exactly (by decide)))
  · exact asks_declaration (.inr rfl) fun _ => asks_space1 (.bind hstar)
  · exact asks_declaration (.inr rfl) fun _ => asks_space1 (.bind (.exactly (by decide)))
  · exact asks_declaration (.inr rfl) fun _ => asks_space (.bind hbraces)
  · exact asks_declaration (.inl rfl) fun _ => asks_space1 (.bind hstar)
  · exact asks_declaration (.inl rfl) fun _ =>
      asks_space1 (.bind (.name fun _ => isNoCall_of_isNameFirst))
  · exact asks_declaration (.inl rfl) fun _ => asks_space (.bind hbraces)
  · exact asks_declaration (.inl rfl) fun _ => asks_space (.bind hsource)
  · exact asks_declaration (.inr rfl) fun _ => asks_space1 (.bind (.exactly (by decide)))
  · exact asks_declaration (.inr rfl) fun _ =>
      asks_space1 (.bind (.taken (.bind (.oneOf (by decide)))))
  · exact asks_declaration (.inr rfl) fun _ =>
      asks_space1 (.bind (.taken (.bind declarationWords_asks)))
  · exact asks_declaration (.inr rfl) fun _ => asks_space1 (.bind (.taken
      (.optionally (.bind (.exactly (by decide))) (.bind (.oneOf (by decide))))))
  · exact asks_declaration (.inr rfl) fun _ => asks_space (.bind hbraces)

end Pass

/-! ## Lines that declare nothing -/

theorem eq_of_isIndentChar (h : Recogniser.isIndentChar c = true) : c = ' ' ∨ c = '\t' := by
  simpa [Recogniser.isIndentChar] using h

/-- The line that begins with a declaration declares, even where a later line completes it. -/
theorem BeginsDeclaration.declaresModule {line : List Char} (h : BeginsDeclaration (line ++ tail))
    (htail : ∀ c, tail.head? = some c → c = '\n' ∨ c = '\r') : DeclaresModule line := by
  obtain ⟨indentation, word, rest, htext, hindent, hword, hend, hnext⟩ := h
  have hinside : ∀ c ∈ indentation ++ word, c ≠ '\n' ∧ c ≠ '\r' := by
    intro c hc
    rcases mem_append.mp hc with hc | hc
    · rcases eq_of_isIndentChar (hindent c hc) with rfl | rfl <;> decide
    · have hletters : ("import".toList ++ "export".toList).all
          (fun c => c != '\n' && c != '\r') = true := by decide
      have hmem : c ∈ "import".toList ++ "export".toList := by
        rcases hword with rfl | rfl
        · exact mem_append_left _ hc
        · exact mem_append_right _ hc
      simpa using all_eq_true.mp hletters c hmem
  have hline : indentation ++ word <+: line := by
    refine (List.prefix_or_prefix_of_prefix ⟨rest, htext.symm⟩ ⟨tail, rfl⟩).elim id fun hshort => ?_
    obtain ⟨more, hmore⟩ := hshort
    cases more with
    | nil => exact ⟨[], by rw [append_nil, ← hmore, append_nil]⟩
    | cons c more =>
      rw [← hmore, append_assoc, append_cancel_left_eq] at htext
      have hc := hinside c (by simp [← hmore])
      rcases htail c (by rw [htext]; rfl) with heq | heq
      · exact absurd heq hc.1
      · exact absurd heq hc.2
  obtain ⟨more, rfl⟩ := hline
  obtain rfl : rest = more ++ tail := by
    rw [append_assoc] at htext
    exact (append_cancel_left htext).symm
  refine ⟨indentation, word, more, rfl, ?_, hword, ?_, ?_⟩
  · intro c hc
    rcases eq_of_isIndentChar (hindent c hc) with rfl | rfl <;> decide
  · intro c hc
    exact hend c (by rw [head?_append, hc, Option.some_or])
  · intro c hc
    exact hnext c (by rw [find?_append, hc, Option.some_or])

namespace Pass

variable {pass : Pass} {line rest : List Char}

/-- No pass fits at a line that declares nothing, whatever follows its end. -/
theorem refuses_of_ordinary (hpass : pass ∈ all) (hline : isDeclarationLine line = false)
    (htail : ∀ c, tail.head? = some c → c = '\n' ∨ c = '\r') : pass (line ++ tail) = none := by
  refine Option.eq_none_iff_forall_ne_some.mpr fun ⟨replacement, rest⟩ htake => ?_
  have hdeclares := (all_ask pass hpass htake).declaresModule htail
  rw [isDeclarationLine_of_declares hdeclares] at hline
  cases hline

theorem takeWhile_feed (hfeed : '\n' ∉ line) (h : rest = [] ∨ rest.head? = some '\n') :
    (line ++ rest).takeWhile (· != '\n') = line ∧ (line ++ rest).dropWhile (· != '\n') = rest := by
  have hline : ∀ c ∈ line, (c != '\n') = true := by
    intro c hc
    exact bne_iff_ne.mpr fun heq => hfeed (heq ▸ hc)
  rw [takeWhile_append_of_pos hline, dropWhile_append_of_pos hline]
  cases rest with
  | nil => simp
  | cons c rest =>
    obtain rfl : c = '\n' := by simpa using h
    simp

theorem runFrom_step {atLineStart : Bool} (hne : text ≠ []) {step : PassStep}
    (h : pass.step atLineStart text = step) :
    pass.runFrom atLineStart text =
      ⟨step.output.text ++ (pass.runFrom step.atLineStart step.rest).text,
        step.output.exported ++ (pass.runFrom step.atLineStart step.rest).exported⟩ := by
  subst h
  rw [runFrom, dif_neg hne]

@[simp] theorem runFrom_nil (atLineStart : Bool) : pass.runFrom atLineStart [] = .plain [] := by
  rw [runFrom, dif_pos rfl]

theorem copyLine_feed (hfeed : '\n' ∉ line) :
    copyLine (line ++ '\n' :: rest) = ⟨.plain (line ++ ['\n']), rest, true⟩ := by
  obtain ⟨htake, hdrop⟩ := takeWhile_feed hfeed (.inr (head?_cons (l := rest)))
  simp only [copyLine, htake, hdrop]

theorem runFrom_line (hfeed : '\n' ∉ line) (hnone : pass (line ++ '\n' :: rest) = none) :
    pass.runFrom true (line ++ '\n' :: rest) =
      ⟨line ++ '\n' :: (pass.runFrom true rest).text, (pass.runFrom true rest).exported⟩ := by
  have hstep : pass.step true (line ++ '\n' :: rest) = ⟨.plain (line ++ ['\n']), rest, true⟩ := by
    simp only [Pass.step, if_true, hnone, copyLine_feed hfeed]
  rw [runFrom_step (by simp) hstep]
  simp [Replacement.plain]

theorem runFrom_last (hfeed : '\n' ∉ line) (hne : line ≠ []) (hnone : pass line = none) :
    pass.runFrom true line = .plain line := by
  have hcopy : copyLine line = ⟨.plain line, [], false⟩ := by
    obtain ⟨htake, hdrop⟩ := takeWhile_feed hfeed (.inl rfl)
    rw [append_nil] at htake hdrop
    simp only [copyLine, htake, hdrop]
  have hstep : pass.step true line = ⟨.plain line, [], false⟩ := by
    simp only [Pass.step, if_true, hnone, hcopy]
  rw [runFrom_step hne hstep]
  simp [Replacement.plain]

theorem run_of_ordinary (hpass : pass ∈ all)
    (h : ∀ line ∈ splitLines text, isDeclarationLine line = false) :
    pass.run text = .plain text := by
  unfold Pass.run
  induction text using lines_induction with
  | nil => exact runFrom_nil true
  | last line hfeed hne =>
    rw [splitLines_last hfeed hne] at h
    refine runFrom_last hfeed hne ?_
    have hnone : pass (line ++ []) = none :=
      refuses_of_ordinary hpass (h line mem_cons_self) (by simp)
    rwa [append_nil] at hnone
  | line line rest hfeed ih =>
    rw [splitLines_line hfeed] at h
    have hfirst := h _ mem_cons_self
    have hnone : pass (line ++ '\n' :: rest) = none := by
      cases dropReturn_cases line with
      | inl heq =>
        rw [heq] at hfirst
        exact refuses_of_ordinary hpass hfirst (by simp)
      | inr heq =>
        rw [heq, append_assoc]
        exact refuses_of_ordinary hpass hfirst (by simp)
    rw [runFrom_line hfeed hnone, ih fun other hmem => h other (mem_cons_of_mem _ hmem)]
    rfl

end Pass

theorem runPasses_of_ordinary {passes : List Pass} (hpasses : ∀ pass ∈ passes, pass ∈ Pass.all)
    (h : ∀ line ∈ splitLines text, isDeclarationLine line = false) :
    runPasses passes text = .plain text := by
  induction passes with
  | nil => rfl
  | cons pass passes ih =>
    have hfirst := Pass.run_of_ordinary (hpasses pass mem_cons_self) h
    have hlater := ih fun other hmem => hpasses other (mem_cons_of_mem pass hmem)
    simp only [runPasses, hfirst, Replacement.plain] at hlater ⊢
    rw [hlater]
    rfl

/-- A text whose lines declare nothing is changed by no pass, and its lossy conversion is its own
lines between the header and the footer. -/
theorem convertLossily_of_ordinary {source : String}
    (h : ∀ line ∈ splitLines source.toList, isDeclarationLine line = false) :
    (∀ pass ∈ Pass.all, pass.run source.toList = .plain source.toList) ∧
      runPasses Pass.all source.toList = .plain source.toList ∧
      convertLossily source =
        lossyHeader ++ String.join ((splitLines source.toList).map (String.ofList · ++ "\n")) ++
          lossyFooter := by
  have hpasses := runPasses_of_ordinary (fun _ hmem => hmem) h
  refine ⟨fun pass hpass => Pass.run_of_ordinary hpass h, hpasses, ?_⟩
  have hlines : (splitLines source.toList).map lossyLine =
      (splitLines source.toList).map (String.ofList · ++ "\n") := by
    refine map_congr_left fun line hline => ?_
    simp [lossyLine, h line hline]
  simp only [convertLossily, hpasses, Replacement.plain, hlines, map_nil]
  simp

def dynamicImports : String :=
  "f(\r\n  import('a'));\nimport\t.meta;\n\nexports.b = important"

theorem dynamicImports_unchanged :
    (∀ line ∈ splitLines dynamicImports.toList, isDeclarationLine line = false) ∧
      convertLossily dynamicImports = lossyHeader ++
        "f(\n  import('a'));\nimport\t.meta;\n\nexports.b = important\n" ++ lossyFooter := by
  have hordinary : ∀ line ∈ splitLines dynamicImports.toList, isDeclarationLine line = false := by
    have hall : (splitLines dynamicImports.toList).all (!isDeclarationLine ·) = true := by
      decide +kernel
    intro line hline
    simpa using List.all_eq_true.mp hall line hline
  have hlines : String.join ((splitLines dynamicImports.toList).map (String.ofList · ++ "\n")) =
      "f(\n  import('a'));\nimport\t.meta;\n\nexports.b = important\n" := by
    decide +kernel
  refine ⟨hordinary, ?_⟩
  rw [← hlines]
  exact (convertLossily_of_ordinary hordinary).2.2

end ModuleBridge
