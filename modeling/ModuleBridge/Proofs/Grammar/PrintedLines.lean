import Mathlib
import ModuleBridge.Proofs.Grammar.ReadBack
import ModuleBridge.Proofs.Text.Lines

/-!
# Declarations in lines

Imports and re-exports written in one fixed form, one in a line. A text of such lines is read as the
declarations that were written, in their order.
-/

namespace ModuleBridge

open Keyword List ModuleDeclaration

variable {declarations : List ModuleDeclaration}

/-- The tokens of declarations that each end with a `;`. -/
def ModuleDeclaration.allTokens (declarations : List ModuleDeclaration) : List Token :=
  declarations.flatMap fun d => d.tokens ++ Scan.ending true

theorem Scan.ModuleRun.of_declarations {c : Cursor} {text : String} (hc : c.after = bytesOf text)
    (htext : Before (allTokens declarations) text) :
    ∃ body e, ModuleRun c body e ∧ List.Forall₂ Reads declarations body := by
  induction declarations generalizing c text with
  | nil =>
    obtain ⟨_, q, rest, hspace, hq, hnothing, _⟩ := space_takes hc htext
    have hempty : rest = "" := hnothing
    exact ⟨[], q, .nil hspace (by rw [hq, hempty, bytesOf_empty]), .nil⟩
  | cons d declarations ih =>
    obtain ⟨_, q, front, hspace, hq, hat, _⟩ := space_takes hc htext
    have hmore : q.after ≠ [] := by
      intro hnil
      have hle := hat.length_le
      rw [← hq, hnil] at hle
      cases d <;> simp [allTokens, tokens] at hle
    rw [allTokens, flatMap_cons, append_assoc] at hat
    obtain ⟨s, r, rest, hread, hr, hrest, hreads⟩ :=
      topLevelStatement_takes_before d (by simp) hq hat
    obtain ⟨body, e, hrun, hall⟩ := ih hr hrest
    exact ⟨s :: body, e, .cons hspace hmore hread hrun, .cons hreads hall⟩

theorem parseModule_reads_all {text : String}
    (htext : Before (allTokens declarations) text) :
    ∃ body, parseModule text = .ok ⟨body⟩ ∧
      List.Forall₂ Reads declarations body := by
  obtain ⟨body, e, hrun, hall⟩ :=
    Scan.ModuleRun.of_declarations (c := .ofText text) rfl htext
  refine ⟨body, parseModule_eq_ok.mpr ⟨e, ?_⟩, hall⟩
  rwa [pastShebang_of_before htext]

/-- A source that stands between quotes of either kind as it is. -/
structure PlainSource where
  value : String
  ne_empty : value ≠ ""
  isPlain : ∀ c ∈ value.toList, c ≠ '\'' ∧ c ≠ '"' ∧ c ≠ '\\' ∧ c ≠ '\n' ∧ c ≠ '\r'

def PlainSource.literal (s : PlainSource) : Literal :=
  ⟨s.value, '\'', .inl rfl, fun c hc => ⟨(s.isPlain c hc).1, (s.isPlain c hc).2.2⟩⟩

def Entry.text (e : Entry) : String :=
  match e.rename with
  | none => e.name.text
  | some renamed => e.name.text ++ " as " ++ renamed.text

/-- The declarations that have a form in one line. A list in braces has at least one entry. -/
inductive LineDeclaration where
  | importOnly (source : PlainSource)
  | importDefault (localName : Identifier) (source : PlainSource)
  | importNamespace (localName : Identifier) (source : PlainSource)
  | importNamed (first : Entry) (rest : List Entry) (source : PlainSource)
  | exportFrom (first : Entry) (rest : List Entry) (source : PlainSource)
  | exportAll (source : PlainSource)
  | exportNamespace (exported : Identifier) (source : PlainSource)

namespace LineDeclaration

def entriesText (first : Entry) (rest : List Entry) : String :=
  ", ".intercalate ((first :: rest).map Entry.text)

def text : LineDeclaration → String
  | importOnly source => "import '" ++ source.value ++ "';"
  | importDefault localName source =>
    "import " ++ localName.text ++ " from '" ++ source.value ++ "';"
  | importNamespace localName source =>
    "import * as " ++ localName.text ++ " from '" ++ source.value ++ "';"
  | importNamed first rest source =>
    "import \x7b " ++ entriesText first rest ++ " \x7d from '" ++ source.value ++ "';"
  | exportFrom first rest source =>
    "export \x7b " ++ entriesText first rest ++ " \x7d from '" ++ source.value ++ "';"
  | exportAll source => "export * from '" ++ source.value ++ "';"
  | exportNamespace exported source =>
    "export * as " ++ exported.text ++ " from '" ++ source.value ++ "';"

def declaration : LineDeclaration → ModuleDeclaration
  | importOnly source => .importOnly source.literal
  | importDefault localName source => .importFrom (.default localName) source.literal
  | importNamespace localName source =>
    .importFrom (.bindings (.namespace localName)) source.literal
  | importNamed first rest source =>
    .importFrom (.bindings (.named ⟨first :: rest, false⟩)) source.literal
  | exportFrom first rest source => .exportList ⟨first :: rest, false⟩ (some source.literal)
  | exportAll source => .exportAll none source.literal
  | exportNamespace exported source => .exportAll (some exported) source.literal

end LineDeclaration

/-! ## Lines as tokens -/

theorem TriviaText.ofBlank {c : Char} (h : isBlank c = true ∨ isLineBreak c = true) :
    TriviaText c.toString := by
  simpa using TriviaText.blank h .empty

section

variable {tokens : List Token} {gap rest : String}

theorem At.spaced (h : At tokens rest) (t : Token) : At (t :: tokens) (t.text ++ " " ++ rest) := by
  refine ⟨" ", rest, rfl, .ofBlank (c := ' ') (by decide), fun hempty => ?_, h⟩
  exact absurd hempty (by decide)

theorem not_touches_of_head {front back : String}
    (h : (bytesOf back).head?.any isNamePart = false) : ¬Touches front back := by
  rintro ⟨_, hback⟩
  rw [h] at hback
  cases hback

theorem head_mark (p : Punctuation) (gap rest : String) :
    (bytesOf (p.text ++ gap ++ rest)).head?.any isNamePart = false := by
  rw [bytesOf_append, bytesOf_append]
  cases p <;> rfl

theorem Entry.at_text (e : Entry) (hgap : TriviaText gap)
    (hcut : gap = "" → (bytesOf rest).head?.any isNamePart = false) (h : At tokens rest) :
    At (e.tokens ++ tokens) (e.text ++ gap ++ rest) := by
  obtain ⟨n, rename⟩ := e
  cases rename with
  | none => exact ⟨gap, rest, rfl, hgap, fun hempty => not_touches_of_head (hcut hempty), h⟩
  | some renamed =>
    have hrenamed : At (.name renamed :: tokens) (renamed.text ++ gap ++ rest) :=
      ⟨gap, rest, rfl, hgap, fun hempty => not_touches_of_head (hcut hempty), h⟩
    have hat := (hrenamed.spaced asWord.token).spaced (.name n)
    have htext : (Entry.mk n (some renamed)).text ++ gap ++ rest =
        n.text ++ " " ++ ("as" ++ " " ++ (renamed.text ++ gap ++ rest)) :=
      String.toList_inj.mp (by simp [Entry.text])
    rw [htext]
    exact hat

theorem LineDeclaration.at_entries (h : At tokens rest) (first : Entry) (more : List Entry) :
    At (EntryList.inner false (first :: more) ++ tokens)
      (entriesText first more ++ " \x7d " ++ rest) := by
  induction more generalizing first with
  | nil =>
    have hat := first.at_text (.ofBlank (c := ' ') (by decide)) (by simp)
      (h.spaced (.mark .closeBrace))
    have htext : entriesText first [] ++ " \x7d " ++ rest =
        first.text ++ ' '.toString ++ ("\x7d" ++ " " ++ rest) :=
      String.toList_inj.mp (by simp [entriesText])
    have htokens : EntryList.inner false [first] ++ tokens =
        first.tokens ++ .mark .closeBrace :: tokens := by
      simp [EntryList.inner, EntryList.separator]
    rw [htext, htokens]
    exact hat
  | cons second more ih =>
    have hat := first.at_text .empty (fun _ => head_mark .comma _ _)
      ((ih second).spaced (.mark .comma))
    have htext : entriesText first (second :: more) ++ " \x7d " ++ rest =
        first.text ++ "" ++ ("," ++ " " ++ (entriesText second more ++ " \x7d " ++ rest)) :=
      String.toList_inj.mp (by simp [entriesText])
    have htokens : EntryList.inner false (first :: second :: more) ++ tokens =
        first.tokens ++ .mark .comma :: (EntryList.inner false (second :: more) ++ tokens) := by
      simp [EntryList.inner, EntryList.separator]
    rw [htext, htokens]
    exact hat

theorem PlainSource.at_string (source : PlainSource) (hgap : TriviaText gap) (h : At tokens rest) :
    At (.string source.literal :: (Scan.ending true ++ tokens))
      ("'" ++ source.value ++ "';" ++ gap ++ rest) := by
  have hend : At (.mark .semicolon :: tokens) (";" ++ gap ++ rest) := by
    refine ⟨gap, rest, rfl, hgap, fun _ => ?_, h⟩
    rintro ⟨hlast, _⟩
    exact absurd hlast (by decide)
  refine ⟨"", ";" ++ gap ++ rest, String.toList_inj.mp ?_, .empty, fun _ => ?_, hend⟩
  · simp [Token.text, Literal.text, PlainSource.literal]
  · exact not_touches_of_head (head_mark .semicolon _ _)

theorem PlainSource.at_from (source : PlainSource) (hgap : TriviaText gap) (h : At tokens rest) :
    At (fromTokens source.literal ++ (Scan.ending true ++ tokens))
      ("from '" ++ source.value ++ "';" ++ gap ++ rest) := by
  have hat := (source.at_string hgap h).spaced fromWord.token
  have htext : "from '" ++ source.value ++ "';" ++ gap ++ rest =
      "from" ++ " " ++ ("'" ++ source.value ++ "';" ++ gap ++ rest) :=
    String.toList_inj.mp (by simp)
  rw [htext]
  exact hat

theorem LineDeclaration.at_text (d : LineDeclaration) (hgap : TriviaText gap) (h : At tokens rest) :
    At (d.declaration.tokens ++ (Scan.ending true ++ tokens)) (d.text ++ gap ++ rest) := by
  have hat : ∀ {list : List Token} {text : String}, At list text →
      d.declaration.tokens ++ (Scan.ending true ++ tokens) = list →
      (d.text ++ gap ++ rest).toList = text.toList →
      At (d.declaration.tokens ++ (Scan.ending true ++ tokens)) (d.text ++ gap ++ rest) := by
    intro list text hlist htokens htext
    rwa [htokens, String.toList_inj.mp htext]
  have himport : importWord.token.text = "import" := rfl
  have hexport : exportWord.token.text = "export" := rfl
  have has : asWord.token.text = "as" := rfl
  have hname : ∀ n : Identifier, (Token.name n).text = n.text := fun _ => rfl
  have hopen : (Token.mark .openBrace).text = "\x7b" := rfl
  have hstar : (Token.mark .star).text = "*" := rfl
  cases d with
  | importOnly source =>
    refine hat ((source.at_string hgap h).spaced importWord.token) rfl ?_
    unfold text
    simp [himport]
  | importDefault localName source =>
    refine hat (((source.at_from hgap h).spaced (.name localName)).spaced
      importWord.token) rfl ?_
    unfold text
    simp [himport, hname]
  | importNamespace localName source =>
    refine hat (((((source.at_from hgap h).spaced (.name localName)).spaced
      asWord.token).spaced (.mark .star)).spaced importWord.token) rfl ?_
    unfold text
    simp [himport, has, hname, hstar]
  | importNamed first more source =>
    refine hat (((at_entries (source.at_from hgap h) first more).spaced (.mark .openBrace)).spaced
      importWord.token) ?_ ?_
    · simp [declaration, ModuleDeclaration.tokens, ImportClause.tokens, Bindings.tokens,
        EntryList.tokens]
    · unfold text
      simp [himport, hopen]
  | exportFrom first more source =>
    refine hat (((at_entries (source.at_from hgap h) first more).spaced (.mark .openBrace)).spaced
      exportWord.token) ?_ ?_
    · simp [declaration, ModuleDeclaration.tokens, EntryList.tokens]
    · unfold text
      simp [hexport, hopen]
  | exportAll source =>
    refine hat (((source.at_from hgap h).spaced (.mark .star)).spaced
      exportWord.token) rfl ?_
    unfold text
    simp [hexport, hstar]
  | exportNamespace exported source =>
    refine hat (((((source.at_from hgap h).spaced (.name exported)).spaced
      asWord.token).spaced (.mark .star)).spaced exportWord.token) rfl ?_
    unfold text
    simp [hexport, has, hname, hstar]

end

/-! ## Reading lines -/

namespace LineDeclaration

/-- Declarations one in a line, each with its line feed. -/
def print (declarations : List LineDeclaration) : String :=
  String.join (declarations.map (·.text ++ "\n"))

/-- The declarations stand one in a line; the last line feed may be missing. -/
def Prints (declarations : List LineDeclaration) (text : String) : Prop :=
  text = print declarations ∨ text ++ "\n" = print declarations

def chars (declarations : List LineDeclaration) : List (List Char) :=
  declarations.map (·.text.toList)

theorem Prints.exists_joinLines {declarations : List LineDeclaration} {text : String}
    (h : Prints declarations text) : ∃ feed, text.toList = joinLines feed (chars declarations) := by
  have hprint : (print declarations).toList = joinLines true (chars declarations) := by
    simp [print, chars, joinLines_true, String.toList_join, flatMap_map]
  cases h with
  | inl heq => exact ⟨true, by rw [heq, hprint]⟩
  | inr heq =>
    refine ⟨false, ?_⟩
    have hfeed : text.toList ++ ['\n'] = joinLines true (chars declarations) := by
      rw [← hprint, ← heq, String.toList_append]
      rfl
    have hne : chars declarations ≠ [] := by
      intro hnil
      rw [hnil] at hfeed
      simp [joinLines] at hfeed
    rw [joinLines_true_eq hne] at hfeed
    exact append_cancel_right hfeed

theorem at_lines (feed : Bool) (declarations : List LineDeclaration) :
    At (allTokens (declarations.map declaration))
      (String.ofList (joinLines feed (chars declarations))) := by
  induction declarations with
  | nil => exact String.toList_inj.mp rfl
  | cons d rest ih =>
    have hat : ∀ {gap text : String}, TriviaText gap →
        At (allTokens (rest.map declaration)) text →
        joinLines feed (chars (d :: rest)) = (d.text ++ gap ++ text).toList →
        At (allTokens ((d :: rest).map declaration))
          (String.ofList (joinLines feed (chars (d :: rest)))) := by
      intro gap text hgap htext hchars
      have htokens := d.at_text hgap htext
      rw [← append_assoc] at htokens
      rw [hchars, String.ofList_toList]
      exact htokens
    have hblank : TriviaText '\n'.toString := .ofBlank (by decide)
    cases rest with
    | nil =>
      cases feed with
      | true => exact hat hblank ih (by simp [joinLines, chars])
      | false => exact hat .empty ih (by simp [joinLines, chars])
    | cons next rest => exact hat hblank ih (by simp [joinLines, chars])

theorem Prints.parseModule {declarations : List LineDeclaration} {text : String}
    (h : Prints declarations text) :
    ∃ body, parseModule text = .ok ⟨body⟩ ∧
      List.Forall₂ (fun d s => d.declaration.Reads s) declarations body := by
  obtain ⟨feed, hchars⟩ := h.exists_joinLines
  have hat := at_lines feed declarations
  rw [← hchars, String.ofList_toList] at hat
  obtain ⟨body, hread, hall⟩ := parseModule_reads_all hat.before
  exact ⟨body, hread, forall₂_map_left_iff.mp hall⟩

end LineDeclaration

end ModuleBridge
