import Mathlib
import ModuleBridge.Lossy.Output
import ModuleBridge.Proofs.Text.Lines

/-!
# Declaration lines of lossy output

A module that cannot be read is converted by passes over its text. Whatever the passes leave, no
line of the output declares an import or an export: the lines of the text are commented out where
they do, and the lines that are added to the text hold words only, so that each of them stays one
line.
-/

namespace ModuleBridge

open List Replacement

variable {line text word : List Char}

/-- A line that declares an import or an export: white space, the word `import` or `export`, and
after it, white space apart, neither a parenthesis nor a point. -/
def DeclaresModule (line : List Char) : Prop :=
  ∃ blank word rest, line = blank ++ word ++ rest ∧ (∀ c ∈ blank, isWhiteSpace c = true) ∧
    (word = "import".toList ∨ word = "export".toList) ∧
    (∀ c, rest.head? = some c → isWordChar c = false) ∧
    ∀ c, rest.find? (!isWhiteSpace ·) = some c → c ≠ '(' ∧ c ≠ '.'

namespace Recogniser

variable {α β : Type}

theorem bind_eq_some {p : Recogniser α} {next : α → Recogniser β} {rest : List Char} {b : β} :
    (p >>= next) text = some (b, rest) ↔
      ∃ a mid, p text = some (a, mid) ∧ next a mid = some (b, rest) := by
  change (p text).bind (fun result => next result.1 result.2) = some (b, rest) ↔ _
  simp [Option.bind_eq_some_iff]

/-- Whatever `p` takes off a text, its answer has the property `P`. -/
def Yields (P : α → Prop) (p : Recogniser α) : Prop :=
  ∀ ⦃text a rest⦄, p text = some (a, rest) → P a

namespace Yields

variable {P : α → Prop}

theorem pure {a : α} (h : P a) : Yields P (pure a) := by
  intro text b rest heq
  cases heq
  exact h

theorem bind {Q : β → Prop} {p : Recogniser β} {next : β → Recogniser α} (hp : Yields Q p)
    (hnext : ∀ b, Q b → Yields P (next b)) : Yields P (p >>= next) := by
  intro text a rest h
  obtain ⟨b, mid, hfirst, hrest⟩ := bind_eq_some.mp h
  exact hnext b (hp hfirst) hrest

theorem after {p : Recogniser β} {next : β → Recogniser α} (hnext : ∀ b, Yields P (next b)) :
    Yields P (p >>= next) := by
  intro text a rest h
  obtain ⟨b, mid, _, hrest⟩ := bind_eq_some.mp h
  exact hnext b hrest

theorem taken {p : Recogniser α} (hp : Yields P p) : Yields (fun result => P result.1) (taken p) := by
  intro text result rest h
  unfold Recogniser.taken at h
  split at h
  · next value rest' htake =>
    cases h
    exact hp htake
  · cases h

end Yields

end Recogniser

/-! ## Names in one line -/

def Alias.InLine (a : Alias) : Prop :=
  '\n' ∉ a.name ∧ '\n' ∉ a.other

theorem feed_not_mem_of_nameRest {chars : List Char}
    (h : ∀ c ∈ chars, Recogniser.isNameRest c = true) : '\n' ∉ chars := by
  intro hmem
  exact absurd (h _ hmem) (by decide)

theorem feed_not_mem_of_isBindingName (h : isBindingName text = true) : '\n' ∉ text := by
  cases text with
  | nil => exact not_mem_nil
  | cons c rest =>
    simp only [isBindingName, Bool.and_eq_true, all_eq_true] at h
    have hrest := feed_not_mem_of_nameRest h.2
    have hc : '\n' ≠ c := by
      intro heq
      rw [← heq] at h
      exact absurd h.1 (by decide)
    simp [hc, hrest]

theorem feed_not_mem_of_mem_flatPatternNames {inObject : Bool} {inside name : List Char}
    (h : name ∈ flatPatternNames inObject inside) : '\n' ∉ name := by
  obtain ⟨element, _, hname⟩ := mem_filterMap.mp h
  have hcheck : ∀ target, (if isBindingName target then some target else none) = some name →
      '\n' ∉ name := by
    intro target htarget
    split at htarget
    · next hbinding =>
      cases htarget
      exact feed_not_mem_of_isBindingName hbinding
    · cases htarget
  exact hcheck _ hname

theorem not_whiteSpace_of_mem_splitWordsAux {front : List Char}
    (hfront : ∀ c ∈ front, isWhiteSpace c = false) (h : word ∈ splitWordsAux text front) :
    ∀ c ∈ word, isWhiteSpace c = false := by
  fun_induction splitWordsAux text front with
  | case1 => cases h
  | case2 front =>
    obtain rfl := mem_singleton.mp h
    simpa using hfront
  | case3 c rest hblank ih => exact ih hfront h
  | case4 c rest front hblank _ ih =>
    simp only [mem_cons] at h
    cases h with
    | inl heq => simpa [heq] using hfront
    | inr hmem => exact ih (forall_mem_nil _) hmem
  | case5 c rest front hword ih =>
    apply ih _ h
    simpa [hword] using hfront

theorem feed_not_mem_of_mem_splitWords {item : List Char} (h : word ∈ splitWords item) :
    '\n' ∉ word := by
  intro hmem
  have hspace := not_whiteSpace_of_mem_splitWordsAux (forall_mem_nil _) h '\n' hmem
  exact absurd hspace (by decide)

theorem inLine_of_mem_aliasesOf {list : List Char} {a : Alias} (h : a ∈ aliasesOf list) :
    a.InLine := by
  obtain ⟨item, _, ha⟩ := mem_filterMap.mp h
  have hwords : ∀ word ∈ splitWords item, '\n' ∉ word := fun word => feed_not_mem_of_mem_splitWords
  unfold aliasOf? at ha
  split at ha
  · cases ha
  · next name word other more heq =>
    rw [heq] at hwords
    have hname := hwords name (by simp)
    have hother := hwords other (by simp)
    split at ha
    · cases ha
      exact ⟨hname, hother⟩
    · cases ha
      exact ⟨hname, hname⟩
  · next name more _ heq =>
    rw [heq] at hwords
    have hname := hwords name (by simp)
    cases ha
    exact ⟨hname, hname⟩

/-! ## Exports that passes find -/

def Replacement.InLine (r : Replacement) : Prop :=
  ∀ a ∈ r.exported, a.InLine

theorem Replacement.inLine_plain (text : List Char) : (plain text).InLine :=
  forall_mem_nil _

namespace Pass

open Recogniser

theorem name_yields : Yields (fun name => '\n' ∉ name) Recogniser.name := by
  intro text name rest h
  unfold Recogniser.name at h
  split at h
  · next c more =>
    split at h
    · next hfirst =>
      cases h
      apply feed_not_mem_of_isBindingName
      simp only [isBindingName, hfirst, Bool.true_and, all_eq_true]
      exact fun d hd => mem_takeWhile_imp hd
    · cases h
  · cases h

theorem flatPattern_yields :
    Yields (fun names => ∀ name ∈ names, '\n' ∉ name) flatPattern := by
  have hpattern : ∀ (opener closer : String) (inObject : Bool),
      Yields (fun names => ∀ name ∈ names, '\n' ∉ name)
        (do
          exactly opener
          let inside ← Recogniser.run isFlat
          exactly closer
          return flatPatternNames inObject inside) := by
    intro opener closer inObject
    refine .after fun _ => .after fun inside => .after fun _ => .pure ?_
    exact fun name => feed_not_mem_of_mem_flatPatternNames
  intro text names rest h
  unfold flatPattern at h
  dsimp only at h
  split at h
  · next result hobject =>
    cases h
    exact hpattern _ _ true hobject
  · exact hpattern _ _ false h

theorem exportPattern_yields : Yields InLine exportPattern := by
  refine .after fun indentation => .after fun _ => .after fun _ => .bind (.taken (P := fun names =>
    ∀ name ∈ names, '\n' ∉ name) ?_) ?_
  · exact .after fun _ => .after fun _ => flatPattern_yields
  · intro result hnames
    apply Yields.pure
    intro a ha
    obtain ⟨name, hname, rfl⟩ := mem_map.mp ha
    exact ⟨hnames name hname, hnames name hname⟩

theorem exportDeclaration_yields : Yields InLine exportDeclaration := by
  refine .after fun indentation => .after fun _ => .after fun _ => .bind (.taken (P := fun name =>
    '\n' ∉ name) ?_) ?_
  · exact .after fun _ => .after fun _ => name_yields
  · intro result hname
    apply Yields.pure
    intro a ha
    obtain rfl := mem_singleton.mp ha
    exact ⟨hname, hname⟩

theorem exportList_yields : Yields InLine exportList := by
  refine .after fun indentation => .after fun _ => .after fun _ => .after fun list => .after fun _ =>
    .pure ?_
  intro a ha
  obtain ⟨b, hb, rfl⟩ := mem_map.mp ha
  have hline := inLine_of_mem_aliasesOf hb
  exact ⟨hline.2, hline.1⟩

/-- Three passes find exports, the others answer with a text alone. -/
theorem all_yield : ∀ pass ∈ all, Yields InLine pass := by
  intro pass hpass
  simp only [all, mem_cons, not_mem_nil, or_false] at hpass
  rcases hpass with rfl | rfl | rfl | rfl | rfl | rfl | rfl | rfl | rfl | rfl | rfl | rfl | rfl
  case' inr.inr.inr.inr.inr.inr.inr.inr.inr.inl => exact exportPattern_yields
  case' inr.inr.inr.inr.inr.inr.inr.inr.inr.inr.inl => exact exportDeclaration_yields
  case' inr.inr.inr.inr.inr.inr.inr.inr.inr.inr.inr.inr => exact exportList_yields
  all_goals
    repeat refine Yields.after fun _ => ?_
    exact .pure (inLine_plain _)

theorem copyLine_inLine (text : List Char) : (copyLine text).output.InLine := by
  unfold copyLine
  split
  · exact inLine_plain _
  · exact inLine_plain _

theorem step_inLine {pass : Pass} (h : Yields InLine pass) (atLineStart : Bool)
    (text : List Char) : (pass.step atLineStart text).output.InLine := by
  unfold Pass.step
  split
  · exact copyLine_inLine text
  · next replacement rest htake =>
    split
    · cases atLineStart with
      | true => exact h htake
      | false => cases htake
    · exact copyLine_inLine text

theorem runFrom_inLine {pass : Pass} (h : Yields InLine pass) (atLineStart : Bool)
    (text : List Char) : (pass.runFrom atLineStart text).InLine := by
  fun_induction Pass.runFrom pass atLineStart text with
  | case1 => exact inLine_plain _
  | case2 atLineStart text hne step hlt later ih =>
    intro a ha
    cases mem_append.mp ha with
    | inl hstep => exact step_inLine h atLineStart text a hstep
    | inr hlater => exact ih a hlater

end Pass

theorem runPasses_inLine {passes : List Pass}
    (h : ∀ pass ∈ passes, Recogniser.Yields InLine pass) (text : List Char) :
    (runPasses passes text).InLine := by
  induction passes generalizing text with
  | nil => exact inLine_plain _
  | cons pass passes ih =>
    have hrest : ∀ other ∈ passes, Recogniser.Yields InLine other :=
      fun other hmem => h other (mem_cons_of_mem pass hmem)
    intro a ha
    cases mem_append.mp ha with
    | inl hfirst => exact Pass.runFrom_inLine (h pass mem_cons_self) true text a hfirst
    | inr hlater => exact ih hrest _ a hlater

/-! ## Lines that declare -/

theorem DeclaresModule.dropWhile (h : DeclaresModule line) :
    ∃ word rest, line.dropWhile isWhiteSpace = word ++ rest ∧
      (word = "import".toList ∨ word = "export".toList) ∧
      (∀ c, rest.head? = some c → isWordChar c = false) ∧
      ∀ c, rest.find? (!isWhiteSpace ·) = some c → c ≠ '(' ∧ c ≠ '.' := by
  obtain ⟨blank, word, rest, rfl, hblank, hword, hend, hnext⟩ := h
  refine ⟨word, rest, ?_, hword, hend, hnext⟩
  rw [append_assoc, dropWhile_append_of_pos hblank]
  cases hword with
  | inl heq =>
    subst heq
    exact dropWhile_cons_of_neg (by decide)
  | inr heq =>
    subst heq
    exact dropWhile_cons_of_neg (by decide)

theorem Recogniser.exactly_append (word : String) (rest : List Char) :
    Recogniser.exactly word (word.toList ++ rest) = some ((), rest) := by
  simp [Recogniser.exactly]

theorem oneOf_keyword (h : word = "import".toList ∨ word = "export".toList) (rest : List Char) :
    Recogniser.oneOf ["import", "export"] (word ++ rest) = some ((), rest) := by
  cases h with
  | inl heq =>
    subst heq
    simp only [Recogniser.oneOf, Recogniser.exactly_append]
  | inr heq =>
    subst heq
    have hother : Recogniser.exactly "import" ("export".toList ++ rest) = none := by
      simp [Recogniser.exactly]
    simp only [Recogniser.oneOf, hother, Recogniser.exactly_append]

theorem isDeclarationLine_of_declares (h : DeclaresModule line) :
    isDeclarationLine line = true := by
  obtain ⟨word, rest, hdrop, hword, hend, hnext⟩ := h.dropWhile
  have hhead : (do
      Recogniser.space
      Recogniser.oneOf ["import", "export"]
      Recogniser.wordEnd
      Recogniser.space : Recogniser Unit) line = some ((), rest.dropWhile isWhiteSpace) := by
    refine Recogniser.bind_eq_some.mpr ⟨(), line.dropWhile isWhiteSpace, rfl, ?_⟩
    refine Recogniser.bind_eq_some.mpr ⟨(), rest, ?_, ?_⟩
    · rw [hdrop, oneOf_keyword hword]
    · refine Recogniser.bind_eq_some.mpr ⟨(), rest, ?_, rfl⟩
      have hany : rest.head?.any isWordChar = false := by
        cases hc : rest.head? with
        | none => rfl
        | some c => simpa using hend c hc
      simp [Recogniser.wordEnd, Recogniser.followedBy, hany]
  unfold isDeclarationLine
  dsimp only
  rw [hhead]
  dsimp only
  rw [← find?_not_eq_head?_dropWhile]
  cases hc : rest.find? (!isWhiteSpace ·) with
  | none => rfl
  | some c =>
    have hne := hnext c hc
    simp [hne.1, hne.2]

/-- A carriage return at its end does not make a line declare or not. -/
theorem DeclaresModule.append_return (h : DeclaresModule line) :
    DeclaresModule (line ++ ['\r']) := by
  obtain ⟨blank, word, rest, rfl, hblank, hword, hend, hnext⟩ := h
  refine ⟨blank, word, rest ++ ['\r'], by simp, hblank, hword, ?_, ?_⟩
  · intro c hc
    cases rest with
    | nil =>
      obtain rfl : c = '\r' := by simpa using hc.symm
      decide
    | cons d rest => exact hend c (by simpa using hc)
  · intro c hc
    rw [find?_append] at hc
    have hreturn : ['\r'].find? (!isWhiteSpace ·) = none := by decide
    rw [hreturn, Option.or_none] at hc
    exact hnext c hc

theorem not_declaresModule_nil : ¬DeclaresModule [] := by
  intro h
  obtain ⟨word, rest, hdrop, hword, _⟩ := h.dropWhile
  rcases hword with rfl | rfl <;> simp at hdrop

/-- A line that declares begins with white space or with the first letter of its word. -/
theorem not_declaresModule_cons {c : Char} (hspace : isWhiteSpace c = false) (hi : c ≠ 'i')
    (he : c ≠ 'e') (rest : List Char) : ¬DeclaresModule (c :: rest) := by
  intro h
  obtain ⟨word, more, hdrop, hword, _⟩ := h.dropWhile
  rw [dropWhile_cons_of_neg (by simp [hspace])] at hdrop
  rcases hword with rfl | rfl <;> simp [hi, he] at hdrop

theorem not_declaresModule_exports (rest : List Char) :
    ¬DeclaresModule ("exports".toList ++ rest) := by
  intro h
  obtain ⟨word, more, hdrop, hword, hend, _⟩ := h.dropWhile
  have hstay : ("exports".toList ++ rest).dropWhile isWhiteSpace = "exports".toList ++ rest :=
    dropWhile_cons_of_neg (by decide)
  rw [hstay] at hdrop
  rcases hword with rfl | rfl
  · simp at hdrop
  · have hmore : more = 's' :: rest := by simpa using hdrop.symm
    exact absurd (hend 's' (by rw [hmore]; rfl)) (by decide)

/-! ## Main statement -/

/-- A line of the text, commented out if it declares. -/
def commentedLine (line : List Char) : List Char :=
  if isDeclarationLine line then "// ".toList ++ line else line

theorem toList_render_assign (name other : List Char) :
    (OutputLine.assign (String.ofList name) (String.ofList other)).render.toList =
      "exports".toList ++ ('.' :: (name ++ (" = ".toList ++ (other ++ [';'])))) := by
  have hpoint : "exports.".toList = "exports".toList ++ ['.'] := by decide
  have hend : ";".toList = [';'] := by decide
  change ("exports." ++ String.ofList name ++ " = " ++ String.ofList other ++ ";").toList = _
  simp only [String.toList_append, String.toList_ofList, hpoint, hend, append_assoc,
    cons_append, nil_append]

/-- The lines that are written for a rewritten text, up to the last two. -/
def Replacement.lines (r : Replacement) : List (List Char) :=
  [exportsPreamble.toList, [], "// Fallback transformation due to parsing error".toList] ++
    (splitLines r.text).map commentedLine ++
    r.exported.map fun a =>
      (OutputLine.assign (String.ofList a.name) (String.ofList a.other)).render.toList

theorem toList_convertLossily (source : String) :
    (convertLossily source).toList =
      (runPasses Pass.all source.toList).lines.flatMap (· ++ ['\n']) ++ lossyFooter.toList := by
  have hline : ∀ line, (lossyLine line).toList = commentedLine line ++ ['\n'] := by
    intro line
    unfold lossyLine commentedLine
    split
    · simp
    · simp
  have hheader : lossyHeader.toList =
      [exportsPreamble.toList, [], "// Fallback transformation due to parsing error".toList].flatMap
        (· ++ ['\n']) := by
    decide
  simp only [convertLossily, lines, lossyExport, String.toList_append,
    String.toList_join, flatMap_append, flatMap_map, hline, hheader]
  rfl

namespace Replacement

variable {r : Replacement} {line : List Char}

theorem mem_lines :
    line ∈ r.lines ↔
      line ∈ [exportsPreamble.toList, [],
        "// Fallback transformation due to parsing error".toList] ∨
      (∃ text ∈ splitLines r.text, line = commentedLine text) ∨
      ∃ a ∈ r.exported, line =
        (OutputLine.assign (String.ofList a.name) (String.ofList a.other)).render.toList := by
  simp only [lines, mem_append, mem_map, or_assoc, eq_comm]

theorem feed_not_mem_lines (hr : r.InLine) (h : line ∈ r.lines) : '\n' ∉ line := by
  rcases mem_lines.mp h with hheader | ⟨text, htext, heq⟩ | ⟨a, ha, heq⟩
  · simp only [mem_cons, not_mem_nil, or_false] at hheader
    rcases hheader with heq | heq | heq <;> rw [heq] <;> decide
  · have hfeed := feed_not_mem_of_mem_splitLines htext
    rw [heq, commentedLine]
    split
    · simpa using hfeed
    · exact hfeed
  · have hnames := hr a ha
    rw [heq, toList_render_assign]
    simp [hnames.1, hnames.2]

theorem not_declaresModule_lines (h : line ∈ r.lines) : ¬DeclaresModule line := by
  rcases mem_lines.mp h with hheader | ⟨text, htext, heq⟩ | ⟨a, ha, heq⟩
  · simp only [mem_cons, not_mem_nil, or_false] at hheader
    rcases hheader with heq | heq | heq
    · rw [heq]
      exact not_declaresModule_cons (c := 'v') (by decide) (by decide) (by decide) _
    · rw [heq]
      exact not_declaresModule_nil
    · rw [heq]
      exact not_declaresModule_cons (c := '/') (by decide) (by decide) (by decide) _
  · rw [heq, commentedLine]
    split
    · exact not_declaresModule_cons (c := '/') (by decide) (by decide) (by decide) _
    · next hfalse => exact fun hdeclares => hfalse (isDeclarationLine_of_declares hdeclares)
  · rw [heq, toList_render_assign]
    exact not_declaresModule_exports _

end Replacement

/-- No line of a lossy conversion declares an import or an export. -/
theorem convertLossily_declares_nothing (source : String) :
    ∀ line ∈ splitLines (convertLossily source).toList, ¬DeclaresModule line := by
  have hnames := runPasses_inLine Pass.all_yield source.toList
  intro line hline
  rw [toList_convertLossily,
    splitLines_lines fun _ => Replacement.feed_not_mem_lines hnames] at hline
  cases List.mem_append.mp hline with
  | inl hwritten =>
    obtain ⟨written, hmem, rfl⟩ := List.mem_map.mp hwritten
    intro hdeclares
    apply Replacement.not_declaresModule_lines hmem
    cases dropReturn_cases written with
    | inl heq => rwa [heq] at hdeclares
    | inr heq =>
      rw [heq]
      exact hdeclares.append_return
  | inr hfooter =>
    have hlines : splitLines lossyFooter.toList = [[], "module.exports = exports;".toList] := by
      decide
    rw [hlines] at hfooter
    simp only [List.mem_cons, List.not_mem_nil, or_false] at hfooter
    rcases hfooter with heq | heq
    · rw [heq]
      exact not_declaresModule_nil
    · rw [heq]
      exact not_declaresModule_cons (c := 'm') (by decide) (by decide) (by decide) _

def unknownImport : String :=
  "import x = 1\r\nexport \x7b a as b \x7d\n"

/-- The first line of `unknownImport` declares; what is written for it does not. -/
theorem unknownImport_commented :
    DeclaresModule "import x = 1".toList ∧
    "// import x = 1".toList ∈ splitLines (convertLossily unknownImport).toList ∧
    ¬DeclaresModule "// import x = 1".toList := by
  have hline : "// import x = 1".toList ∈ splitLines (convertLossily unknownImport).toList := by
    decide +kernel
  refine ⟨?_, hline, convertLossily_declares_nothing unknownImport _ hline⟩
  refine ⟨[], "import".toList, ' ' :: 'x' :: " = 1".toList, by decide, by simp, .inl rfl, ?_, ?_⟩
  · intro c hc
    cases hc
    decide
  · intro c hc
    have hfound : (' ' :: 'x' :: " = 1".toList).find? (!isWhiteSpace ·) = some 'x' := by decide
    cases hfound.symm.trans hc
    decide

end ModuleBridge
