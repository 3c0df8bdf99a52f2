import Mathlib
import ModuleBridge.Grammar.Module
import ModuleBridge.Proofs.Emit.Sections

/-!
# Statements of different classes commute

Each section of the output is filled by one class of statements, so the output only depends on the
order inside each class. A default export with a name fills two sections and belongs to two classes.
The functions and classes that a module declares, and whether it awaits, are asked of all statements
together and do not depend on any order.
-/

namespace ModuleBridge

open List Statement

/-- The classes of statements, each with a section of the output that keeps its order. -/
inductive OutputClass where
  | plain
  /-- Exported declarations, and default exports with a name. -/
  | declared
  | imported
  | reexported
  | spread
  | listed
  | default
deriving DecidableEq, Repr

def OutputClass.holds : OutputClass → Statement → Bool
  | .plain, .declaration _ => true
  | .plain, .verbatim _ _ => true
  | .declared, .exportDeclaration _ _ => true
  | .declared, .exportDefault value _ => value.declared.isSome
  | .imported, .importFrom _ _ _ => true
  | .reexported, .exportList _ (some _) _ => true
  | .reexported, .exportNamespace _ _ _ => true
  | .spread, .exportAll _ _ => true
  | .listed, .exportList _ none _ => true
  | .default, .exportDefault _ _ => true
  | _, _ => false

/-- The same statements, in an order that is the same inside each class. -/
structure SameOrder (body body' : List Statement) : Prop where
  perm : body.Perm body'
  order : ∀ k : OutputClass, body.filter k.holds = body'.filter k.holds

/-! ## What is asked of all statements -/

/-- The code of a statement that is searched for `await`. -/
def Statement.searched : Statement → Option Range
  | .declaration (.variable d) => some d.range
  | .verbatim _ range => some range
  | .exportDeclaration (.variable d) _ => some d.range
  | .exportDefault (.expression (.name _)) _ => none
  | .exportDefault (.expression value) _ => some value.range
  | _ => none

def Statement.awaits (source : String) (s : Statement) : Bool :=
  s.searched.any fun range => awaitsAtTopLevel (range.slice source)

namespace Conversion

variable {setting : Setting}

@[simp] theorem resolve_awaits (c : Conversion) (source : Quoted) :
    (c.resolve setting source).2.awaits = c.awaits := by
  unfold resolve
  split <;> rfl

theorem addExportDefault_awaits (c : Conversion) (value : DefaultExport) (range : Range) :
    (c.addExportDefault setting value).awaits =
      (c.awaits || (Statement.exportDefault value range).awaits setting.source) := by
  cases value with
  | expression e =>
    cases e <;>
      simp [addExportDefault, addDefault, noteAwait, edit, Statement.awaits, searched,
        DefaultExport.range]
  | function d =>
    cases hname : d.name <;>
      simp [addExportDefault, addDefaultCallable, addDefault, addDeclaration, edit,
        Statement.awaits, searched, hname]
  | classOf d =>
    cases hname : d.name <;>
      simp [addExportDefault, addDefaultCallable, addDefault, addDeclaration, edit,
        Statement.awaits, searched, hname]

theorem add_awaits (c : Conversion) (s : Statement) :
    (c.add setting s).awaits = (c.awaits || s.awaits setting.source) := by
  cases s with
  | importFrom bindings source range =>
    simp [add, addImports, edit, Statement.awaits, searched]
  | exportDefault value range => exact addExportDefault_awaits c value range
  | exportDeclaration d range =>
    cases d <;>
      simp [add, addExportDeclaration, addDeclaration, noteAwait, edit, Statement.awaits,
        searched, Declaration.range]
  | exportList entries source range =>
    cases source <;>
      simp [add, foldl_addExport, addReexports, edit, Statement.awaits, searched]
  | exportNamespace exported source range =>
    simp [add, addReexports, edit, Statement.awaits, searched]
  | exportAll source range => simp [add, addSpread, edit, Statement.awaits, searched]
  | declaration d =>
    cases d <;>
      simp [add, addStatement, noteAwait, edit, Statement.awaits, searched,
        Declaration.range]
  | verbatim text range =>
    simp [add, addStatement, noteAwait, edit, Statement.awaits, searched]

end Conversion

theorem convertStatements_awaits (setting : Setting) (body : List Statement) :
    (convertStatements setting body).awaits = body.any (·.awaits setting.source) := by
  have hfold : ∀ c : Conversion, (body.foldl (Conversion.add setting) c).awaits =
      (c.awaits || body.any (·.awaits setting.source)) := by
    induction body with
    | nil => simp
    | cons s rest ih =>
      intro c
      rw [foldl_cons, ih, Conversion.add_awaits, any_cons, Bool.or_assoc]
  simp [convertStatements, hfold, Conversion.start]

/-- Of the declared functions and classes only the set counts. -/
theorem Statement.adds_congr {setting : Setting} {callables : List String}
    (h : ∀ name, callables.contains name = setting.callables.contains name) (s : Statement) :
    s.adds { setting with callables := callables } = s.adds setting := by
  cases s with
  | exportDefault value range =>
    have hcallable : value.isCallable { setting with callables := callables } =
        value.isCallable setting := by
      unfold DefaultExport.isCallable
      split
      · exact h _
      · rfl
    simp only [adds, DefaultExport.lines, hcallable]
  | exportList entries source range => cases source <;> rfl
  | _ => rfl

/-! ## One class for each section -/

def OutputClass.lines : OutputClass → Sections → List OutputLine
  | .plain, s => s.statements
  | .declared, s => s.declarations
  | .imported, s => s.imports
  | .reexported, s => s.reexports
  | .spread, s => s.spreads
  | .listed, s => s.exports.map fun pair => .assign pair.1 pair.2
  | .default, s => s.defaults

theorem OutputClass.lines_adds_eq_nil (k : OutputClass) (setting : Setting) {s : Statement}
    (h : k.holds s = false) : k.lines (s.adds setting) = [] := by
  cases s with
  | exportDefault value range =>
    cases k <;> simp_all [holds, lines, adds, Sections.empty]
  | exportList entries source range =>
    cases source <;> cases k <;> simp_all [holds, lines, adds, Sections.empty]
  | _ => cases k <;> simp_all [holds, lines, adds, Sections.empty]

theorem flatMap_filter_of_nil {α β : Type} {p : α → Bool} {f : α → List β}
    (h : ∀ a, p a = false → f a = []) (list : List α) :
    (list.filter p).flatMap f = list.flatMap f := by
  induction list with
  | nil => rfl
  | cons a rest ih =>
    by_cases hp : p a = true
    · rw [filter_cons_of_pos hp, flatMap_cons, flatMap_cons, ih]
    · rw [filter_cons_of_neg hp, flatMap_cons, h a (by simpa using hp), ih,
        nil_append]

namespace SameOrder

variable {body body' : List Statement}

section

variable (h : SameOrder body body')

include h

/-- What only the statements of one class give, all statements give in the same order. -/
theorem flatMap_eq {β : Type} (k : OutputClass) {f : Statement → List β}
    (hf : ∀ s, k.holds s = false → f s = []) : body.flatMap f = body'.flatMap f := by
  rw [← flatMap_filter_of_nil hf body, h.order k, flatMap_filter_of_nil hf body']

/-- Export lists apart, the section of a class is what its statements add, so it is the same. -/
theorem lines_eq (setting : Setting) {k : OutputClass} (hk : k ≠ .listed) :
    k.lines (convertStatements setting body).sections =
      k.lines (convertStatements setting body').sections := by
  have hempty : k.lines .empty = [] := by cases k <;> rfl
  have happend : ∀ s t, k.lines (Sections.append s t) = k.lines s ++ k.lines t := by
    intro s t
    cases k with
    | listed => exact absurd rfl hk
    | _ => rfl
  rw [convertStatements_section k.lines hempty happend,
    convertStatements_section k.lines hempty happend]
  apply h.flatMap_eq k
  intro s hs
  exact k.lines_adds_eq_nil setting hs

theorem exports_eq (setting : Setting) :
    (convertStatements setting body).sections.exports =
      (convertStatements setting body').sections.exports := by
  rw [convertStatements_exports, convertStatements_exports]
  rw [h.flatMap_eq .listed]
  intro s hs
  simpa [OutputClass.lines] using OutputClass.lines_adds_eq_nil .listed setting hs

theorem sections_eq (setting : Setting) :
    (convertStatements setting body).sections = (convertStatements setting body').sections := by
  have hstatements := h.lines_eq setting (k := .plain) (by decide)
  have hdeclarations := h.lines_eq setting (k := .declared) (by decide)
  have himports := h.lines_eq setting (k := .imported) (by decide)
  have hreexports := h.lines_eq setting (k := .reexported) (by decide)
  have hspreads := h.lines_eq setting (k := .spread) (by decide)
  have hdefaults := h.lines_eq setting (k := .default) (by decide)
  have hexports := h.exports_eq setting
  simp only [OutputClass.lines] at hstatements hdeclarations himports hreexports hspreads hdefaults
  cases hc : (convertStatements setting body).sections
  cases hc' : (convertStatements setting body').sections
  simp_all only

end

theorem callables_eq {m m' : Module} (h : SameOrder m.body m'.body) (name : String) :
    m.callables.contains name = m'.callables.contains name := by
  have hperm : m.callables.Perm m'.callables := h.perm.filterMap _
  rw [Bool.eq_iff_iff, contains_iff_mem, contains_iff_mem]
  exact hperm.mem_iff

end SameOrder

theorem convertStatements_sections_congr {setting : Setting} {callables : List String}
    (h : ∀ name, callables.contains name = setting.callables.contains name)
    (body : List Statement) :
    (convertStatements { setting with callables := callables } body).sections =
      (convertStatements setting body).sections := by
  rw [convertStatements_sections, convertStatements_sections]
  simp only [adds_congr h]

/-- Two modules over one text, with the same statements in the same order inside each class, are
converted to the same code, whatever the options and the path. -/
theorem Converter.convert_eq_of_sameOrder (k : Converter) {m m' : Module}
    (h : SameOrder m.body m'.body) (source : String) (path : Option String) :
    (k.convert m source path).1 = (k.convert m' source path).1 := by
  have hsections : (convertStatements (settingOf k.options m source path) m.body).sections =
      (convertStatements (settingOf k.options m' source path) m'.body).sections := by
    rw [h.sections_eq]
    have hcallables : ∀ name, m.callables.contains name =
        (settingOf k.options m' source path).callables.contains name := h.callables_eq
    exact convertStatements_sections_congr hcallables m'.body
  have hawaits : (convertStatements (settingOf k.options m source path) m.body).awaits =
      (convertStatements (settingOf k.options m' source path) m'.body).awaits := by
    rw [convertStatements_awaits, convertStatements_awaits]
    exact h.perm.any_eq
  simp only [Converter.convert, Conversion.text, hsections, hawaits]

def mixedExports : String :=
  "import a from 'x'\nawait f()\nexport class c \x7b\x7d\n" ++
    "export default function f() \x7b\x7d\nexport \x7ba\x7d"

/-- With its exports moved to the front, `mixedExports` is converted to the same code. -/
theorem mixedExports_convert_rotate :
    ∃ m, parseModule mixedExports = .ok m ∧ m.body.rotate 2 ≠ m.body ∧
      SameOrder m.body (m.body.rotate 2) ∧
      ((Converter.ofOptions .standard).convert m mixedExports none).1 =
        ((Converter.ofOptions .standard).convert ⟨m.body.rotate 2⟩ mixedExports none).1 := by
  obtain ⟨m, hread, hmoved, horder⟩ : ∃ m, parseModule mixedExports = .ok m ∧
      m.body.rotate 2 ≠ m.body ∧
      ∀ k : OutputClass, m.body.filter k.holds = (m.body.rotate 2).filter k.holds := by
    refine ⟨_, by cbv, by decide, ?_⟩
    intro k
    cases k <;> rfl
  have hsame : SameOrder m.body (m.body.rotate 2) := ⟨(List.rotate_perm m.body 2).symm, horder⟩
  exact ⟨m, hread, hmoved, hsame, Converter.convert_eq_of_sameOrder _ hsame mixedExports none⟩

end ModuleBridge
