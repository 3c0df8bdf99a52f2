import ModuleBridge.Proofs.Lossy.LineRewrites
import ModuleBridge.Proofs.Text.Split

/-!
# What becomes of each declaration in a line

For every form of declaration one pass fits at its line, and the passes before it refuse the line.
The pass puts the lines in its place that the declaration stands for.
-/

namespace ModuleBridge

open List OutputLine

variable {d : LineDeclaration} {c : Char} {text : String} {passes : List Pass}

section

variable {word : List Char}

section

variable (h : ∀ c ∈ word, isWhiteSpace c = false)

include h

theorem splitWordsAux_append (rest front : List Char) :
    splitWordsAux (word ++ rest) front = splitWordsAux rest (word.reverse ++ front) := by
  induction word generalizing front with
  | nil => rfl
  | cons c word ih =>
    have hc : ¬isWhiteSpace c = true := by simp [h c mem_cons_self]
    have hword := ih fun d hd => h d (mem_cons_of_mem c hd)
    rw [cons_append, splitWordsAux.eq_def]
    dsimp only
    rw [if_neg hc, hword, reverse_cons, append_assoc]
    rfl

theorem splitWords_word (hne : word ≠ []) (rest : List Char) :
    splitWords (word ++ ' ' :: rest) = word :: splitWords rest := by
  obtain ⟨c, front, hreverse⟩ := exists_cons_of_ne_nil (reverse_ne_nil_iff.mpr hne)
  rw [splitWords, splitWordsAux_append h, append_nil, hreverse, splitWordsAux.eq_def]
  dsimp only
  rw [if_pos (by decide), ← hreverse, reverse_reverse]
  rfl

theorem splitWords_last (hne : word ≠ []) : splitWords word = [word] := by
  obtain ⟨c, front, hreverse⟩ := exists_cons_of_ne_nil (reverse_ne_nil_iff.mpr hne)
  have hend := splitWordsAux_append h [] []
  have hlast : splitWordsAux [] (c :: front) = [(c :: front).reverse] := rfl
  rw [append_nil, append_nil, hreverse, hlast] at hend
  rw [splitWords, hend, ← hreverse, reverse_reverse]

end

theorem splitWords_blank (rest : List Char) : splitWords (' ' :: rest) = splitWords rest := rfl

end

/-! ## Entries -/

def Entry.asFound (e : Entry) : Alias :=
  ⟨e.name.text.toList, (e.rename.getD e.name).text.toList⟩

theorem Entry.map_asFound {β : Type} (f : String → String → β) (entries : List Entry) :
    ((entries.map asFound).map fun a => f (String.ofList a.name) (String.ofList a.other)) =
      entries.map fun e => f e.names.1 e.names.2 := by
  rw [map_map]
  refine map_congr_left fun e _ => ?_
  change f (String.ofList e.name.text.toList)
    (String.ofList (e.rename.getD e.name).text.toList) = _
  rw [String.ofList_toList, String.ofList_toList]
  rfl

theorem Identifier.not_whiteSpace (n : Identifier) :
    ∀ c ∈ n.text.toList, isWhiteSpace c = false := by
  intro c hc
  have hplain := n.isPlainNameChar c hc
  simp only [ModuleBridge.isPlainNameChar, Bool.and_eq_true, Bool.not_eq_true'] at hplain
  exact hplain.1.1.1.1.2

theorem Identifier.toList_ne_nil (n : Identifier) : n.text.toList ≠ [] := by
  obtain ⟨c, rest, hchars, _⟩ := n.exists_chars
  simp [hchars]

namespace Entry

theorem mem_text {e : Entry} (h : c ∈ e.text.toList) : c = ' ' ∨ isPlainNameChar c = true := by
  obtain ⟨n, rename⟩ := e
  cases rename with
  | none => exact .inr (n.isPlainNameChar c h)
  | some renamed =>
    have hword : isPlainNameChar 'a' = true ∧ isPlainNameChar 's' = true := by decide
    simp only [text, String.toList_append, mem_append] at h
    rcases h with (h | h) | h
    · exact .inr (n.isPlainNameChar c h)
    · have hchars : " as ".toList = [' ', 'a', 's', ' '] := by decide
      simp only [hchars, mem_cons, not_mem_nil, or_false] at h
      rcases h with rfl | rfl | rfl | rfl
      · exact .inl rfl
      · exact .inr hword.1
      · exact .inr hword.2
      · exact .inl rfl
    · exact .inr (renamed.isPlainNameChar c h)

theorem aliasOf?_text (e : Entry) {tail : List Char} (htail : tail = [] ∨ tail = [' ']) :
    aliasOf? (' ' :: (e.text.toList ++ tail)) = some e.asFound := by
  have hlast : ∀ n : Identifier, splitWords (n.text.toList ++ tail) = [n.text.toList] := by
    intro n
    rcases htail with rfl | rfl
    · rw [append_nil, splitWords_last n.not_whiteSpace n.toList_ne_nil]
    · rw [splitWords_word n.not_whiteSpace n.toList_ne_nil]
      rfl
  obtain ⟨n, rename⟩ := e
  cases rename with
  | none =>
    rw [aliasOf?, splitWords_blank, text, hlast]
    rfl
  | some renamed =>
    have htext : (Entry.mk n (some renamed)).text.toList ++ tail =
        n.text.toList ++ ' ' :: (['a', 's'] ++ ' ' :: (renamed.text.toList ++ tail)) := by
      simp [text]
    have hword : ∀ c ∈ ['a', 's'], isWhiteSpace c = false := by
      intro c hc
      simp only [mem_cons, not_mem_nil, or_false] at hc
      rcases hc with rfl | rfl <;> decide
    rw [aliasOf?, splitWords_blank, htext, splitWords_word n.not_whiteSpace n.toList_ne_nil,
      splitWords_word hword (by simp), hlast]
    rfl

end Entry

def LineDeclaration.insideChars (first : Entry) (rest : List Entry) : List Char :=
  ' ' :: ((entriesText first rest).toList ++ [' '])

namespace LineDeclaration

theorem insideChars_cons (first second : Entry) (rest : List Entry) :
    insideChars first (second :: rest) =
      (' ' :: first.text.toList) ++ ',' :: insideChars second rest := by
  simp [insideChars, entriesText]

theorem mem_insideChars {first : Entry} {rest : List Entry} (h : c ∈ insideChars first rest) :
    c = ' ' ∨ c = ',' ∨ isPlainNameChar c = true := by
  induction rest generalizing first with
  | nil =>
    simp only [insideChars, entriesText, mem_cons, mem_append, not_mem_nil,
      or_false] at h
    rcases h with heq | hmem | heq
    · exact .inl heq
    · exact (Entry.mem_text hmem).imp_right .inr
    · exact .inl heq
  | cons second rest ih =>
    rw [insideChars_cons, mem_append, mem_cons, mem_cons] at h
    rcases h with (heq | hmem) | heq | hmem
    · exact .inl heq
    · exact (Entry.mem_text hmem).imp_right .inr
    · exact .inr (.inl heq)
    · exact ih hmem

theorem aliasesOf_inside (first : Entry) (rest : List Entry) :
    aliasesOf (insideChars first rest) = (first :: rest).map Entry.asFound := by
  have hcut : ∀ (e : Entry), ∀ c ∈ ' ' :: (e.text.toList ++ [' ']), (c == ',') = false := by
    intro e c hc
    have hchar : c = ' ' ∨ isPlainNameChar c = true := by
      simp only [mem_cons, mem_append, not_mem_nil, or_false] at hc
      rcases hc with heq | hmem | heq
      · exact .inl heq
      · exact Entry.mem_text hmem
      · exact .inl heq
    refine beq_eq_false_iff_ne.mpr fun heq => ?_
    subst heq
    exact absurd hchar (by decide)
  induction rest generalizing first with
  | nil =>
    have htext : insideChars first [] = ' ' :: (first.text.toList ++ [' ']) := by
      simp [insideChars, entriesText]
    rw [aliasesOf, htext, splitAtAll_last (hcut first)]
    simp [first.aliasOf?_text (.inr rfl)]
  | cons second rest ih =>
    have hfirst : ∀ c ∈ ' ' :: first.text.toList, (c == ',') = false := by
      intro c hc
      exact hcut first c (mem_append_left [' '] hc)
    have halias := first.aliasOf?_text (.inl rfl)
    rw [append_nil] at halias
    have hlater := ih second
    rw [aliasesOf] at hlater ⊢
    rw [insideChars_cons, splitAtAll_part hfirst (by decide), filterMap_cons_some halias,
      hlater]
    rfl

theorem exists_insideChars (first : Entry) (rest : List Entry) :
    ∃ c more, insideChars first rest = ' ' :: c :: more ∧ isPlainNameChar c = true := by
  obtain ⟨c, more, hchars, _⟩ := first.name.exists_chars
  have hname := first.name.isPlainNameChar c (by simp [hchars])
  have hentry : ∃ after, first.text = first.name.text ++ after := by
    unfold Entry.text
    split
    · exact ⟨"", (String.append_empty).symm⟩
    · exact ⟨_, String.append_assoc⟩
  have htext : ∃ after, (entriesText first rest).toList = first.name.text.toList ++ after := by
    obtain ⟨after, hafter⟩ := hentry
    cases rest with
    | nil => exact ⟨after.toList, by simp [entriesText, hafter]⟩
    | cons second rest =>
      refine ⟨after.toList ++ (", " ++ entriesText second rest).toList, ?_⟩
      simp [entriesText, hafter]
  obtain ⟨after, hafter⟩ := htext
  refine ⟨c, more ++ after ++ [' '], ?_, hname⟩
  rw [insideChars, hafter, hchars]
  simp

def word : LineDeclaration → String
  | importOnly _ => "import"
  | importDefault _ _ => "import"
  | importNamespace _ _ => "import"
  | importNamed _ _ _ => "import"
  | exportFrom _ _ _ => "export"
  | exportAll _ => "export"
  | exportNamespace _ _ => "export"

def starChars (name : Identifier) (source : PlainSource) (tail : List Char) : List Char :=
  '*' :: ' ' :: ("as".toList ++ ' ' :: (name.text.toList ++ ' ' :: source.fromChars tail))

def bracesChars (first : Entry) (rest : List Entry) (source : PlainSource) (tail : List Char) :
    List Char :=
  '\x7b' :: (insideChars first rest ++ '\x7d' :: ' ' :: source.fromChars tail)

/-- What follows the word and its blank, up to what follows the line. -/
def behind (tail : List Char) : LineDeclaration → List Char
  | importOnly source => source.chars tail
  | importDefault localName source => localName.text.toList ++ ' ' :: source.fromChars tail
  | importNamespace localName source => starChars localName source tail
  | importNamed first rest source => bracesChars first rest source tail
  | exportFrom first rest source => bracesChars first rest source tail
  | exportAll source => '*' :: ' ' :: source.fromChars tail
  | exportNamespace exported source => starChars exported source tail

theorem toList_text_append (d : LineDeclaration) (tail : List Char) :
    d.text.toList ++ tail = d.word.toList ++ ' ' :: d.behind tail := by
  unfold text
  cases d <;>
    simp [word, behind, starChars, bracesChars, insideChars, PlainSource.fromChars,
      PlainSource.chars]

theorem unspaced_behind (d : LineDeclaration) (tail : List Char) :
    Recogniser.Unspaced (d.behind tail) := by
  cases d with
  | importDefault localName source => exact localName.unspaced _
  | _ => rfl

theorem word_cases (d : LineDeclaration) : d.word = "import" ∨ d.word = "export" := by
  cases d <;> simp [word]

end LineDeclaration

namespace LineDeclaration

def lines : LineDeclaration → List OutputLine
  | importOnly source => [.require (quote source.value)]
  | importDefault localName source => [.requireDefault localName.text (quote source.value)]
  | importNamespace localName source => [.requireNamespace localName.text (quote source.value)]
  | importNamed first rest source =>
    [.requireNamed ((first :: rest).map fun e => importEntry false e.names.1 e.names.2)
      (quote source.value)]
  | exportFrom first rest source =>
    (first :: rest).map fun e => .reexport e.names.2 (quote source.value) e.names.1
  | exportAll source => [.spread (quote source.value)]
  | exportNamespace exported source => [.reexportNamespace exported.text (quote source.value)]

def rendered (d : LineDeclaration) : List (List Char) :=
  d.lines.map (·.render.toList)

end LineDeclaration

/-! ## Texts in one line -/

def isUnbroken (text : String) : Bool :=
  text.toList.all fun c => c != '\n' && c != '\r'

@[simp] theorem isUnbroken_append (a b : String) :
    isUnbroken (a ++ b) = (isUnbroken a && isUnbroken b) := by
  simp [isUnbroken]

theorem feed_not_mem_of_isUnbroken (h : isUnbroken text = true) : '\n' ∉ text.toList := by
  intro hmem
  exact absurd (all_eq_true.mp h _ hmem) (by decide)

theorem return_not_mem_of_isUnbroken (h : isUnbroken text = true) : '\r' ∉ text.toList := by
  intro hmem
  exact absurd (all_eq_true.mp h _ hmem) (by decide)

theorem Identifier.isUnbroken_text (n : Identifier) : isUnbroken n.text = true := by
  refine all_eq_true.mpr fun c hc => ?_
  have hplain := n.isPlainNameChar c hc
  simp only [ModuleBridge.isPlainNameChar, Bool.and_eq_true] at hplain
  simp [hplain]

theorem PlainSource.isUnbroken_value (s : PlainSource) : isUnbroken s.value = true := by
  refine all_eq_true.mpr fun c hc => ?_
  simp [s.isPlain c hc]

theorem PlainSource.isUnbroken_quote (s : PlainSource) : isUnbroken (quote s.value) = true := by
  have hquote : s.value.toList.contains '\'' = false := by
    refine Bool.eq_false_iff.mpr fun hmem => ?_
    exact (s.isPlain _ (contains_iff_mem.mp hmem)).1 rfl
  have hvalue := s.isUnbroken_value
  rw [isUnbroken] at hvalue ⊢
  rw [quote, String.toList_ofList, quoteChars, hquote]
  simp [hvalue]

theorem isUnbroken_intercalate {texts : List String} (h : ∀ text ∈ texts, isUnbroken text = true) :
    isUnbroken (", ".intercalate texts) = true := by
  induction texts with
  | nil => decide
  | cons text texts ih =>
    have hfirst := h text mem_cons_self
    have hrest := ih fun other hmem => h other (mem_cons_of_mem text hmem)
    have hcomma : isUnbroken ", " = true := by decide
    cases texts with
    | nil => rwa [String.intercalate_singleton]
    | cons other texts =>
      rw [String.intercalate_cons_cons, isUnbroken_append, isUnbroken_append, hfirst, hcomma,
        hrest]
      rfl

theorem Entry.isUnbroken_names (e : Entry) :
    isUnbroken e.names.1 = true ∧ isUnbroken e.names.2 = true :=
  ⟨e.name.isUnbroken_text, (e.rename.getD e.name).isUnbroken_text⟩

theorem Entry.isUnbroken_text (e : Entry) : isUnbroken e.text = true := by
  refine all_eq_true.mpr fun c hc => ?_
  rcases Entry.mem_text hc with rfl | hplain
  · decide
  · simp only [isPlainNameChar, Bool.and_eq_true] at hplain
    simp [hplain]

theorem isUnbroken_importEntry (e : Entry) :
    isUnbroken (importEntry false e.names.1 e.names.2) = true := by
  have hcolon : isUnbroken ": " = true := by decide
  unfold importEntry
  split
  · exact e.isUnbroken_names.2
  · simp [e.isUnbroken_names, hcolon]

namespace LineDeclaration

theorem isUnbroken_text (d : LineDeclaration) : isUnbroken d.text = true := by
  have hentries : ∀ first rest, isUnbroken (entriesText first rest) = true := by
    intro first rest
    refine isUnbroken_intercalate fun text htext => ?_
    obtain ⟨e, _, rfl⟩ := mem_map.mp htext
    exact e.isUnbroken_text
  unfold text
  cases d <;>
    simp only [isUnbroken_append, Identifier.isUnbroken_text, PlainSource.isUnbroken_value,
      hentries] <;>
    decide

theorem lines_ne_nil (d : LineDeclaration) : d.lines ≠ [] := by
  cases d <;> simp [lines]

/-- What a line that stands for a declaration begins with. -/
def openings : List String :=
  ["require(", "const ", "exports.", "Object.assign(exports, require("]

theorem exists_opening {line : OutputLine} (h : line ∈ d.lines) :
    ∃ opening ∈ openings, ∃ rest, line.render = opening ++ rest ∧ isUnbroken rest = true := by
  have hcall : isUnbroken " = require(" = true ∧ isUnbroken ");" = true := by decide
  cases d with
  | importOnly s =>
    obtain rfl := mem_singleton.mp h
    refine ⟨"require(", by decide, quote s.value ++ ");", String.append_assoc, ?_⟩
    simp [s.isUnbroken_quote, hcall]
  | importDefault n s =>
    obtain rfl := mem_singleton.mp h
    have hdefault : isUnbroken ").default;" = true := by decide
    refine ⟨"const ", by decide, n.text ++ " = require(" ++ quote s.value ++ ").default;", ?_, ?_⟩
    · simp only [← String.append_assoc]
      rfl
    · simp [n.isUnbroken_text, s.isUnbroken_quote, hcall, hdefault]
  | importNamespace n s =>
    obtain rfl := mem_singleton.mp h
    refine ⟨"const ", by decide, n.text ++ " = require(" ++ quote s.value ++ ");", ?_, ?_⟩
    · simp only [← String.append_assoc]
      rfl
    · simp [n.isUnbroken_text, s.isUnbroken_quote, hcall]
  | importNamed first rest s =>
    obtain rfl := mem_singleton.mp h
    have hbraces : isUnbroken "\x7b " = true ∧ isUnbroken " \x7d = require(" = true := by decide
    have hentries : isUnbroken (", ".intercalate ((first :: rest).map fun e =>
        importEntry false e.names.1 e.names.2)) = true := by
      refine isUnbroken_intercalate fun text htext => ?_
      obtain ⟨e, _, rfl⟩ := mem_map.mp htext
      exact isUnbroken_importEntry e
    refine ⟨"const ", by decide, "\x7b " ++ ", ".intercalate ((first :: rest).map fun e =>
      importEntry false e.names.1 e.names.2) ++ " \x7d = require(" ++ quote s.value ++ ");",
      ?_, ?_⟩
    · simp only [← String.append_assoc]
      rfl
    · simp only [isUnbroken_append, hentries, s.isUnbroken_quote, hcall, hbraces, Bool.and_self]
  | exportFrom first rest s =>
    obtain ⟨e, _, rfl⟩ := mem_map.mp h
    have hends : isUnbroken ")." = true ∧ isUnbroken ";" = true := by decide
    refine ⟨"exports.", by decide,
      e.names.2 ++ " = require(" ++ quote s.value ++ ")." ++ e.names.1 ++ ";", ?_, ?_⟩
    · simp only [← String.append_assoc]
      rfl
    · simp [e.isUnbroken_names, s.isUnbroken_quote, hcall, hends]
  | exportAll s =>
    obtain rfl := mem_singleton.mp h
    have hclose : isUnbroken "));" = true := by decide
    refine ⟨"Object.assign(exports, require(", by decide, quote s.value ++ "));",
      String.append_assoc, ?_⟩
    simp [s.isUnbroken_quote, hclose]
  | exportNamespace n s =>
    obtain rfl := mem_singleton.mp h
    refine ⟨"exports.", by decide, n.text ++ " = require(" ++ quote s.value ++ ");", ?_, ?_⟩
    · simp only [← String.append_assoc]
      rfl
    · simp [n.isUnbroken_text, s.isUnbroken_quote, hcall]

theorem isDeclarationLine_opening {opening : String} (h : opening ∈ openings) (rest : List Char) :
    isDeclarationLine (opening.toList ++ rest) = false := by
  have hrequire : "require(".toList = ['r', 'e', 'q', 'u', 'i', 'r', 'e', '('] := by decide
  have hconst : "const ".toList = ['c', 'o', 'n', 's', 't', ' '] := by decide
  have hexports : "exports.".toList = ['e', 'x', 'p', 'o', 'r', 't', 's', '.'] := by decide
  have hobject : "Object.assign(exports, require(".toList =
      'O' :: "bject.assign(exports, require(".toList := by decide
  simp only [openings, mem_cons, not_mem_nil, or_false] at h
  rcases h with rfl | rfl | rfl | rfl
  · rw [hrequire]
    rfl
  · rw [hconst]
    rfl
  · rw [hexports]
    rfl
  · rw [hobject]
    rfl

theorem isDeclarationLine_render {line : OutputLine} (h : line ∈ d.lines) :
    isDeclarationLine line.render.toList = false := by
  obtain ⟨opening, hopening, rest, hrender, _⟩ := exists_opening h
  rw [hrender, String.toList_append]
  exact isDeclarationLine_opening hopening rest.toList

theorem isUnbroken_render {line : OutputLine} (h : line ∈ d.lines) :
    isUnbroken line.render = true := by
  obtain ⟨opening, hopening, rest, hrender, hrest⟩ := exists_opening h
  have hopenings : openings.all isUnbroken = true := by decide
  rw [hrender, isUnbroken_append, hrest, all_eq_true.mp hopenings _ hopening]
  rfl

theorem isLine_render {line : OutputLine} (h : line ∈ d.lines) :
    Pass.IsLine line.render.toList := by
  refine ⟨feed_not_mem_of_isUnbroken (isUnbroken_render h), ?_⟩
  obtain ⟨opening, hopening, rest, hrender, _⟩ := exists_opening h
  have hopenings : (openings.all fun opening => !opening.toList.isEmpty) = true := by decide
  have hne := all_eq_true.mp hopenings _ hopening
  rw [hrender, String.toList_append]
  refine append_ne_nil_of_left_ne_nil ?_ _
  simpa using hne

end LineDeclaration

namespace Pass

open Recogniser LineDeclaration

variable {α : Type} {next : List Char → Recogniser α} {d : LineDeclaration} {tail : List Char}

theorem at_line (word : String) (d : LineDeclaration) (hword : d.word = word) :
    (do
      let indentation ← indent
      exactly word
      next indentation) (d.text.toList ++ tail) = next [] (' ' :: d.behind tail) := by
  rw [d.toList_text_append, ← hword]
  refine word_found ?_ _ ?_
  · rcases d.word_cases with heq | heq <;> rw [heq] <;> decide
  · rcases d.word_cases with heq | heq <;> rw [heq] <;> decide

theorem at_other_line {word : String} (hword : word = "import" ∨ word = "export")
    (hne : d.word ≠ word) :
    (do
      let indentation ← indent
      exactly word
      next indentation) (d.text.toList ++ tail) = none := by
  have hindent : indent (d.text.toList ++ tail) = some ([], d.text.toList ++ tail) := by
    rw [d.toList_text_append]
    rcases d.word_cases with heq | heq <;> rw [heq] <;> rfl
  refine (bind_of_some hindent).trans (bind_of_none ?_)
  rw [d.toList_text_append]
  rcases hword with rfl | rfl
  · rw [d.word_cases.resolve_left hne]
    rfl
  · rw [d.word_cases.resolve_right hne]
    rfl

theorem quoted_toList (value : String) : quoted value.toList = quote value := rfl

theorem line_nil (output : OutputLine) : line [] output = output.render.toList := nil_append _

theorem importForEffect_line (s : PlainSource) (tail : List Char) :
    importForEffect ((importOnly s).text.toList ++ tail) =
      some (.plain (require (quote s.value)).render.toList, tail) := by
  rw [importForEffect, at_line "import" (.importOnly s) rfl, space_blank (unspaced_behind _ _),
    behind, PlainSource.chars, bind_of_some (source_found s _), bind_of_some (semicolon_found tail),
    quoted_toList, line_nil]
  rfl

theorem importDefault_line (n : Identifier) (s : PlainSource) (tail : List Char) :
    importDefault ((LineDeclaration.importDefault n s).text.toList ++ tail) =
      some (.plain (requireDefault n.text (quote s.value)).render.toList, tail) := by
  have hfrom : Unspaced (s.fromChars tail) := rfl
  rw [importDefault, at_line "import" (.importDefault n s) rfl,
    space1_blank (unspaced_behind _ _), behind, bind_of_some (name_found n _), space1_blank hfrom,
    bind_of_some (fromSource_found s tail), String.ofList_toList, quoted_toList, line_nil]
  rfl

theorem namespaceName_found (n : Identifier) (s : PlainSource) (tail : List Char) :
    namespaceName (starChars n s tail) = some (n.text.toList, s.fromChars tail) := by
  have hstar : ∀ text, exactly "*" ('*' :: text) = some ((), text) := exactly_append "*"
  have has : Unspaced ("as".toList ++ ' ' :: (n.text.toList ++ ' ' :: s.fromChars tail)) := rfl
  have hfrom : Unspaced (s.fromChars tail) := rfl
  rw [namespaceName, starChars, bind_of_some (hstar _), space1_blank has,
    bind_of_some (exactly_append _ _), space1_blank (n.unspaced _), bind_of_some (name_found n _),
    space1_blank hfrom]
  rfl

theorem importNamespace_line (n : Identifier) (s : PlainSource) (tail : List Char) :
    importNamespace ((LineDeclaration.importNamespace n s).text.toList ++ tail) =
      some (.plain (requireNamespace n.text (quote s.value)).render.toList, tail) := by
  rw [importNamespace, at_line "import" (.importNamespace n s) rfl,
    space1_blank (unspaced_behind _ _), behind, bind_of_some (namespaceName_found n s tail),
    bind_of_some (fromSource_found s tail), String.ofList_toList, quoted_toList, line_nil]
  rfl

theorem exportNamespace_line (n : Identifier) (s : PlainSource) (tail : List Char) :
    exportNamespace ((LineDeclaration.exportNamespace n s).text.toList ++ tail) =
      some (.plain (reexportNamespace n.text (quote s.value)).render.toList, tail) := by
  rw [exportNamespace, at_line "export" (.exportNamespace n s) rfl,
    space1_blank (unspaced_behind _ _), behind, bind_of_some (namespaceName_found n s tail),
    bind_of_some (fromSource_found s tail), String.ofList_toList, quoted_toList, line_nil]
  rfl

theorem exportAll_line (s : PlainSource) (tail : List Char) :
    exportAll ((LineDeclaration.exportAll s).text.toList ++ tail) =
      some (.plain (spread (quote s.value)).render.toList, tail) := by
  have hstar : ∀ text, exactly "*" ('*' :: text) = some ((), text) := exactly_append "*"
  have hfrom : Unspaced (s.fromChars tail) := rfl
  rw [exportAll, at_line "export" (.exportAll s) rfl, space1_blank (unspaced_behind _ _), behind,
    bind_of_some (hstar _), space_blank hfrom, bind_of_some (fromSource_found s tail),
    quoted_toList, line_nil]
  rfl

theorem bracesFrom_found {β : Type} (first : Entry) (rest : List Entry) (s : PlainSource)
    (tail : List Char) (next : List Char → List Char → Recogniser β) :
    (do
      let list ← braces
      space
      let value ← fromSource
      next list value) (bracesChars first rest s tail) =
        next (insideChars first rest) s.value.toList tail := by
  have hinside : '\x7d' ∉ insideChars first rest := fun hmem =>
    absurd (mem_insideChars hmem) (by decide)
  have hfrom : Unspaced (s.fromChars tail) := rfl
  rw [bracesChars, bind_of_some (braces_found hinside _), space_blank hfrom,
    bind_of_some (fromSource_found s tail)]

theorem importNamed_line (first : Entry) (rest : List Entry) (s : PlainSource) (tail : List Char) :
    importNamed ((LineDeclaration.importNamed first rest s).text.toList ++ tail) =
      some (.plain (requireNamed ((first :: rest).map fun e =>
        importEntry false e.names.1 e.names.2) (quote s.value)).render.toList, tail) := by
  rw [importNamed, at_line "import" (.importNamed first rest s) rfl,
    space_blank (unspaced_behind _ _), behind, bracesFrom_found, aliasesOf_inside,
    Entry.map_asFound (importEntry false), quoted_toList, line_nil]
  rfl

theorem exportListFrom_line (first : Entry) (rest : List Entry) (s : PlainSource)
    (tail : List Char) :
    exportListFrom ((exportFrom first rest s).text.toList ++ tail) =
      some (.plain (joinLines false (exportFrom first rest s).rendered), tail) := by
  rw [exportListFrom, at_line "export" (.exportFrom first rest s) rfl,
    space_blank (unspaced_behind _ _), behind, bracesFrom_found, aliasesOf_inside,
    Entry.map_asFound fun imported exported =>
      line [] (.reexport exported (quoted s.value.toList) imported),
    quoted_toList, joinLines_false, rendered, lines, map_map]
  simp only [line_nil]
  rfl

/-! ### Refusals -/

theorem namespaceName_eq_none {text : List Char} (h : c ≠ '*') :
    namespaceName (c :: text) = none := by
  apply bind_of_none
  simp [exactly, h.symm]

theorem braces_eq_none {text : List Char} (h : c ≠ '\x7b') : braces (c :: text) = none := by
  apply bind_of_none
  simp [exactly, h.symm]

theorem becomes_of_import (hword : d.word = "import") {outs : List (List Char)}
    (h : Becomes passes d.text.toList outs) :
    Becomes (emptyExport :: exportNamespace :: exportAll :: exportListFrom :: passes)
      d.text.toList outs := by
  have hne : d.word ≠ "export" := by
    rw [hword]
    decide
  refine .refused (fun _ _ => at_other_line (.inr rfl) hne) ?_
  refine .refused (fun _ _ => at_other_line (.inr rfl) hne) ?_
  refine .refused (fun _ _ => at_other_line (.inr rfl) hne) ?_
  exact .refused (fun _ _ => at_other_line (.inr rfl) hne) h

theorem importNamespace_refuses (hword : d.word = "import")
    (h : ∀ tail, namespaceName (d.behind tail) = none) : Refuses importNamespace d.text.toList := by
  intro tail _
  rw [importNamespace, at_line "import" d hword, space1_blank (d.unspaced_behind tail)]
  exact bind_of_none (h tail)

theorem importDefault_refuses (hword : d.word = "import") (h : ∀ tail, name (d.behind tail) = none) :
    Refuses importDefault d.text.toList := by
  intro tail _
  rw [importDefault, at_line "import" d hword, space1_blank (d.unspaced_behind tail)]
  exact bind_of_none (h tail)

theorem importNamed_refuses (s : PlainSource) :
    Refuses importNamed (importOnly s).text.toList := by
  intro tail _
  rw [importNamed, at_line "import" (.importOnly s) rfl, space_blank (unspaced_behind _ _)]
  exact bind_of_none (braces_eq_none (by decide))

theorem exportNamespace_refuses (hword : d.word = "export")
    (h : ∀ tail, namespaceName (d.behind tail) = none) : Refuses exportNamespace d.text.toList := by
  intro tail _
  rw [exportNamespace, at_line "export" d hword, space1_blank (d.unspaced_behind tail)]
  exact bind_of_none (h tail)

theorem exportAll_refuses (first : Entry) (rest : List Entry) (s : PlainSource) :
    Refuses exportAll (exportFrom first rest s).text.toList := by
  intro tail _
  rw [exportAll, at_line "export" (.exportFrom first rest s) rfl,
    space1_blank (unspaced_behind _ _)]
  rfl

theorem namespaceName_eq_none_of_all (s : PlainSource) (tail : List Char) :
    namespaceName ((LineDeclaration.exportAll s).behind tail) = none := by
  have hstar : ∀ text, exactly "*" ('*' :: text) = some ((), text) := exactly_append "*"
  have hfrom : Unspaced (s.fromChars tail) := rfl
  rw [namespaceName, behind, bind_of_some (hstar _), space1_blank hfrom]
  rfl

theorem emptyExport_refuses_star (hword : d.word = "export")
    (h : ∀ tail, (d.behind tail).head? = some '*') : Refuses emptyExport d.text.toList := by
  intro tail _
  obtain ⟨rest, hrest⟩ := head?_eq_some_iff.mp (h tail)
  rw [emptyExport, at_line "export" d hword, space_blank (d.unspaced_behind tail), hrest]
  rfl

theorem emptyExport_refuses_list (first : Entry) (rest : List Entry) (s : PlainSource) :
    Refuses emptyExport (exportFrom first rest s).text.toList := by
  intro tail _
  have hopen : ∀ text, exactly "\x7b" ('\x7b' :: text) = some ((), text) := exactly_append "\x7b"
  obtain ⟨c, more, hinside, hc⟩ := exists_insideChars first rest
  have hunspaced : ∀ text, Unspaced (c :: text) := by
    intro text
    simp only [isPlainNameChar, Bool.and_eq_true, Bool.not_eq_true'] at hc
    simp [Unspaced, hc]
  have hclose : c ≠ '\x7d' := by
    rintro rfl
    exact absurd hc (by decide)
  rw [emptyExport, at_line "export" (.exportFrom first rest s) rfl,
    space_blank (unspaced_behind _ _), behind, bracesChars, bind_of_some (hopen _), hinside,
    cons_append, cons_append, space_blank (hunspaced _)]
  apply bind_of_none
  simp [exactly, hclose.symm]

/-! ### What becomes of a line -/

theorem isLine_text (d : LineDeclaration) : IsLine d.text.toList := by
  refine ⟨feed_not_mem_of_isUnbroken d.isUnbroken_text, fun hnil => ?_⟩
  have hchars := d.toList_text_append []
  rw [hnil] at hchars
  simp at hchars

/-- What stands for a declaration is not touched again. -/
theorem becomes_rendered (h : ∀ pass ∈ passes, pass ∈ all) :
    ∀ out ∈ d.rendered, Becomes passes out [out] := by
  intro out hout
  obtain ⟨line, hline, rfl⟩ := mem_map.mp hout
  exact becomes_of_ordinary h (isLine_render hline) (isDeclarationLine_render hline)

theorem becomes_all (d : LineDeclaration) : Becomes all d.text.toList d.rendered := by
  have hline : IsLine d.text.toList := isLine_text d
  have hne : d.rendered ≠ [] := map_eq_nil_iff.not.mpr d.lines_ne_nil
  -- The passes in their order: each one before the pass of the form itself refuses the line.
  cases d with
  | importOnly s =>
    refine becomes_of_import rfl ?_
    refine .refused (importNamespace_refuses rfl fun _ => namespaceName_eq_none (by decide)) ?_
    refine .refused (importDefault_refuses rfl fun _ => rfl) ?_
    refine .refused (importNamed_refuses s) ?_
    exact .rewritten hline ⟨hne, fun tail _ => importForEffect_line s tail⟩
      (becomes_rendered (by simp [all]))
  | importDefault n s =>
    obtain ⟨c, more, hchars, hfirst⟩ := n.exists_chars
    have hstar : c ≠ '*' := by
      rintro rfl
      exact absurd hfirst (by decide)
    refine becomes_of_import rfl ?_
    refine .refused (importNamespace_refuses rfl fun tail => ?_) ?_
    · rw [behind, hchars, cons_append]
      exact namespaceName_eq_none hstar
    · exact .rewritten hline ⟨hne, fun tail _ => importDefault_line n s tail⟩
        (becomes_rendered (by simp [all]))
  | importNamespace n s =>
    refine becomes_of_import rfl ?_
    exact .rewritten hline ⟨hne, fun tail _ => importNamespace_line n s tail⟩
      (becomes_rendered (by simp [all]))
  | importNamed first rest s =>
    refine becomes_of_import rfl ?_
    refine .refused (importNamespace_refuses rfl fun _ => namespaceName_eq_none (by decide)) ?_
    refine .refused (importDefault_refuses rfl fun _ => rfl) ?_
    exact .rewritten hline ⟨hne, fun tail _ => importNamed_line first rest s tail⟩
      (becomes_rendered (by simp [all]))
  | exportFrom first rest s =>
    refine .refused (emptyExport_refuses_list first rest s) ?_
    refine .refused (exportNamespace_refuses rfl fun _ => namespaceName_eq_none (by decide)) ?_
    refine .refused (exportAll_refuses first rest s) ?_
    exact .rewritten hline ⟨hne, fun tail _ => exportListFrom_line first rest s tail⟩
      (becomes_rendered (by simp [all]))
  | exportAll s =>
    refine .refused (emptyExport_refuses_star rfl fun _ => rfl) ?_
    refine .refused (exportNamespace_refuses rfl (namespaceName_eq_none_of_all s)) ?_
    exact .rewritten hline ⟨hne, fun tail _ => exportAll_line s tail⟩
      (becomes_rendered (by simp [all]))
  | exportNamespace n s =>
    refine .refused (emptyExport_refuses_star rfl fun _ => rfl) ?_
    exact .rewritten hline ⟨hne, fun tail _ => exportNamespace_line n s tail⟩
      (becomes_rendered (by simp [all]))

end Pass

end ModuleBridge
