import Mathlib
import ModuleBridge.Conversion
import ModuleBridge.Grammar.Module
import ModuleBridge.Proofs.Emit.Sections

/-!
# Modules that a conversion asks for

Which modules the lines of a converted module run, by the statements that ask for them. Every source
of a module is asked for, except that a re-export without entries asks for nothing.
-/

namespace ModuleBridge

open List Sections

def OutputLine.request? : OutputLine → Option String
  | .require source => some source
  | .requireDefault _ source => some source
  | .requireNamespace _ source => some source
  | .requireNamed _ source => some source
  | .reexport _ source _ => some source
  | .reexportNamespace _ source => some source
  | .spread source => some source
  | _ => none

namespace Statement

def source? : Statement → Option Quoted
  | importFrom _ source _ => some source
  | exportList _ source _ => source
  | exportNamespace _ source _ => some source
  | exportAll source _ => some source
  | _ => none

def reexportsNothing : Statement → Bool
  | exportList [] (some _) _ => true
  | _ => false

end Statement

/-- The lines of a converted module, without what is put around them. -/
def Converter.lines (k : Converter) (m : Module) (source : String) (path : Option String) :
    List OutputLine :=
  (convertStatements (settingOf k.options m source path) m.body).sections.lines
    k.options.importPlacement

/-- Only three of the sections ask for modules. -/
def Sections.requests (s : Sections) : List String :=
  (s.imports ++ s.reexports ++ s.spreads).filterMap OutputLine.request?

/-! ## Requests of single statements -/

theorem request_of_mem_importLines {options : Options} {bindings : List ImportBinding}
    {source : String} {line : OutputLine} (h : line ∈ importLines options bindings source) :
    line.request? = some source := by
  rcases importLines_forms h with rfl | ⟨_, rfl⟩ | ⟨_, rfl⟩ | ⟨_, rfl⟩ <;> rfl

theorem importLines_ne_nil (options : Options) (bindings : List ImportBinding) (source : String) :
    importLines options bindings source ≠ [] := by
  cases bindings with
  | nil => simp [importLines]
  | cons binding rest => cases binding <;> simp [importLines]

namespace Statement

variable {setting : Setting} {s : Statement} {line : OutputLine}

theorem request_of_mem_code
    (h : line ∈ (s.adds setting).statements ∨ line ∈ (s.adds setting).declarations ∨
      line ∈ (s.adds setting).defaults) : line.request? = none := by
  cases s with
  | exportDefault value range =>
    rcases h with h | h | h
    · cases h
    · obtain ⟨_, -, rfl⟩ := mem_map.mp h
      rfl
    · rcases DefaultExport.lines_forms h with ⟨_, rfl⟩ | rfl | rfl <;> rfl
  | exportDeclaration d range =>
    rcases h with h | h | h
    · cases h
    · rcases mem_cons.mp h with rfl | h
      · rfl
      · obtain ⟨_, -, rfl⟩ := mem_map.mp h
        rfl
    · cases h
  | exportList entries source range => cases source <;> simp [adds, empty] at h
  | declaration d =>
    simp only [adds, empty, mem_singleton, not_mem_nil, or_false] at h
    subst h
    rfl
  | verbatim text range =>
    simp only [adds, empty, mem_singleton, not_mem_nil, or_false] at h
    subst h
    rfl
  | _ => simp [adds, empty] at h

theorem mem_requests_adds {r : String} :
    r ∈ (s.adds setting).requests ↔
      ∃ source, s.source? = some source ∧ s.reexportsNothing = false ∧
        r = source.request setting.path := by
  cases s with
  | importFrom bindings source range =>
    have hall := @request_of_mem_importLines setting.options bindings (source.request setting.path)
    obtain ⟨line, hline⟩ := exists_mem_of_ne_nil _
      (importLines_ne_nil setting.options bindings (source.request setting.path))
    simp only [adds, requests, empty, source?, reexportsNothing, append_nil,
      mem_filterMap, Option.some.injEq, exists_eq_left', true_and]
    constructor
    · rintro ⟨line, hmem, hr⟩
      exact Option.some.inj (hr.symm.trans (hall hmem))
    · rintro rfl
      exact ⟨line, hline, hall hline⟩
  | exportDefault value range => simp [adds, source?, requests, empty]
  | exportDeclaration d range => simp [adds, source?, requests, empty]
  | exportList entries source range =>
    cases source with
    | none => simp [adds, source?, requests, empty]
    | some source =>
      cases entries with
      | nil => simp [adds, reexportsNothing, requests, empty]
      | cons entry rest =>
        simp [adds, source?, reexportsNothing, requests, empty, reexportLine,
          OutputLine.request?, eq_comm]
  | exportNamespace exported source range =>
    simp [adds, source?, reexportsNothing, requests, empty, OutputLine.request?]
  | exportAll source range =>
    simp [adds, source?, reexportsNothing, requests, empty, OutputLine.request?]
  | declaration d => simp [adds, source?, requests, empty]
  | verbatim text range => simp [adds, source?, requests, empty]

end Statement

/-! ## Requests of a whole module -/

theorem exists_request_iff {setting : Setting} {body : List Statement}
    {placement : ImportPlacement} {r : String} :
    (∃ line ∈ (convertStatements setting body).sections.lines placement, line.request? = some r) ↔
      ∃ s ∈ body, r ∈ (s.adds setting).requests := by
  simp only [mem_convertStatements_lines, requests, mem_filterMap, mem_append]
  constructor
  · rintro ⟨line, ⟨pair, -, rfl⟩ | ⟨s, hs, hline⟩, hr⟩
    · cases hr
    · refine ⟨s, hs, line, ?_, hr⟩
      rcases hline with hcode | hrequest
      · rw [Statement.request_of_mem_code hcode] at hr
        cases hr
      · exact hrequest
  · rintro ⟨s, hs, line, hline, hr⟩
    exact ⟨line, .inr ⟨s, hs, .inr hline⟩, hr⟩

/-! ## Requests in the text -/

/-- A text stands somewhere in another one. -/
def Occurs (piece text : String) : Prop :=
  ∃ front back, text = front ++ piece ++ back

theorem Occurs.trans {a b c : String} (hab : Occurs a b) (hbc : Occurs b c) : Occurs a c := by
  obtain ⟨front, back, rfl⟩ := hab
  obtain ⟨front', back', rfl⟩ := hbc
  exact ⟨front' ++ front, back ++ back', by simp only [String.append_assoc]⟩

theorem OutputLine.occurs_request {line : OutputLine} {r : String} (h : line.request? = some r) :
    Occurs ("require(" ++ r ++ ")") line.render := by
  -- The two halves of a line are told by its form; that they make up the line is seen by
  -- characters.
  unfold Occurs
  simp only [← String.toList_inj]
  cases line <;> simp only [request?, Option.some.injEq, reduceCtorEq] at h <;> subst h <;>
    unfold render
  case require source => exact ⟨"", ";", by simp⟩
  case requireDefault name source => exact ⟨"const " ++ name ++ " = ", ".default;", by simp⟩
  case requireNamespace name source => exact ⟨"const " ++ name ++ " = ", ";", by simp⟩
  case requireNamed entries source =>
    exact ⟨"const \x7b " ++ ", ".intercalate entries ++ " \x7d = ", ";", by simp⟩
  case reexport exported source imported =>
    exact ⟨"exports." ++ exported ++ " = ", "." ++ imported ++ ";", by simp⟩
  case reexportNamespace exported source => exact ⟨"exports." ++ exported ++ " = ", ";", by simp⟩
  case spread source => exact ⟨"Object.assign(exports, ", ");", by simp⟩

theorem occurs_renderLines {line : OutputLine} {lines : List OutputLine} (h : line ∈ lines) :
    Occurs line.render (renderLines lines) := by
  unfold renderLines
  induction lines with
  | nil => cases h
  | cons first rest ih =>
    cases rest with
    | nil =>
      obtain rfl := mem_singleton.mp h
      exact ⟨"", "", by simp⟩
    | cons second rest =>
      rw [map_cons, map_cons, String.intercalate_cons_cons]
      rcases mem_cons.mp h with rfl | h
      · exact ⟨"", _, by rw [String.empty_append, String.append_assoc]⟩
      · exact (ih h).trans ⟨first.render ++ "\n", "", by rw [String.append_empty]; rfl⟩

theorem Converter.occurs_lines (k : Converter) (m : Module) (source : String)
    (path : Option String) :
    Occurs (renderLines (k.lines m source path)) (k.convert m source path).1 := by
  simp only [convert, Conversion.text, Converter.lines]
  split
  · exact ⟨exportsPreamble ++ "\n\n(async function() \x7b\n", _,
      by simp only [wrapAsync, String.append_assoc]; rfl⟩
  · unfold withPreamble
    split
    · next hempty =>
      rw [String.isEmpty_iff.mp hempty]
      exact ⟨"", _, (String.empty_append).symm⟩
    · exact ⟨_, "", (String.append_empty).symm⟩

/-! ## Main statement -/

/-- A statement of the module asks for `r`: it names a source with that form, and it is not a
re-export without entries. -/
def Module.AsksFor (m : Module) (path : Option String) (r : String) : Prop :=
  ∃ s ∈ m.body, ∃ source, s.source? = some source ∧ s.reexportsNothing = false ∧
    r = source.request path

/-- The lines of a converted module ask for exactly the modules that its statements ask for, and
each of these is run in the converted text. -/
theorem Converter.requests_iff (k : Converter) (m : Module) (text : String) (path : Option String)
    (r : String) :
    ((∃ line ∈ k.lines m text path, line.request? = some r) ↔ m.AsksFor path r) ∧
      (m.AsksFor path r → Occurs ("require(" ++ r ++ ")") (k.convert m text path).1) := by
  have hlines : (∃ line ∈ k.lines m text path, line.request? = some r) ↔ m.AsksFor path r := by
    unfold Converter.lines
    rw [exists_request_iff]
    simp only [Statement.mem_requests_adds]
    rfl
  refine ⟨hlines, fun h => ?_⟩
  obtain ⟨line, hline, hr⟩ := hlines.mpr h
  exact ((OutputLine.occurs_request hr).trans (occurs_renderLines hline)).trans
    (k.occurs_lines m text path)

/-- An import without bindings runs its module, a re-export without entries does not. -/
theorem empty_reexport_unasked :
    ∃ m, parseModule "import \x7b\x7d from 'a';\nexport \x7b\x7d from 'm';" = .ok m ∧
      Occurs "require('a')" ((Converter.ofOptions .standard).convert m
        "import \x7b\x7d from 'a';\nexport \x7b\x7d from 'm';" none).1 ∧
      (∃ s ∈ m.body, ∃ source, s.source? = some source ∧ source.request none = "'m'") ∧
      ¬∃ line ∈ (Converter.ofOptions .standard).lines m
        "import \x7b\x7d from 'a';\nexport \x7b\x7d from 'm';" none,
        line.request? = some "'m'" := by
  refine ⟨⟨[.importFrom [] ⟨"a", ⟨15, 18⟩⟩ ⟨0, 19⟩,
    .exportList [] (some ⟨"m", ⟨35, 38⟩⟩) ⟨20, 39⟩]⟩,
    by cbv, ?_, ?_, ?_⟩
  · exact (Converter.requests_iff _ _ _ _ "'a'").2
      ⟨_, mem_cons_self, ⟨"a", ⟨15, 18⟩⟩, rfl, rfl, by cbv⟩
  · exact ⟨_, mem_cons_of_mem _ mem_cons_self, ⟨"m", ⟨35, 38⟩⟩, rfl, by cbv⟩
  · rw [(Converter.requests_iff _ _ _ _ "'m'").1]
    rintro ⟨s, hs, source, hsource, hnothing, hr⟩
    simp only [List.mem_cons, List.not_mem_nil, or_false] at hs
    rcases hs with rfl | rfl
    · cases hsource
      have ha : Quoted.request ⟨"a", ⟨15, 18⟩⟩ none = "'a'" := by cbv
      rw [ha] at hr
      revert hr
      decide
    · cases hnothing

end ModuleBridge
