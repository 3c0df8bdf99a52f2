import ModuleBridge.Emit.Converter

/-!
# Sections of a conversion

Every statement adds the same lines wherever it stands: the quoted form of a source does not depend
on whether the source was resolved before. So the sections of a whole conversion are the sections of
the single statements, one after the other.
-/

namespace ModuleBridge

open DefaultExport List Sections Statement

variable {line : OutputLine} {all pairs : List (String × String)} {setting : Setting}
  {placement : ImportPlacement} {exported localName name : String} {pair : String × String}

def Quoted.request (source : Quoted) (path : Option String) : String :=
  quote (Specifier.resolve source.value path)

def exportPairs (entries : List ExportEntry) : List (String × String) :=
  entries.map fun entry => (entry.exported.text, entry.localName.text)

def DefaultExport.declared : DefaultExport → Option Name
  | .expression _ => none
  | .function d => d.name
  | .classOf d => d.name

def DefaultExport.knownAs : DefaultExport → Option Name
  | .expression (.name name) => some name
  | value => value.declared

def DefaultExport.code (value : DefaultExport) : String :=
  (value.knownAs.map (·.text)).getD defaultBinding

/-- Whether a named default export may become the module object. -/
def DefaultExport.isCallable (setting : Setting) : DefaultExport → Bool
  | .expression (.name name) => setting.callables.contains name.text
  | _ => true

/-- The lines that set a default export. A value without a name is bound first. -/
def DefaultExport.lines (setting : Setting) (value : DefaultExport) : List OutputLine :=
  match value.knownAs with
  | some name => defaultLines setting.options name.text (value.isCallable setting)
  | none => boundDefaultLines setting.options (value.range.slice setting.source)

/-- What a statement adds to the sections, wherever it stands. An export list adds all its pairs,
though only the last one of an exported name stays. -/
def Statement.adds (setting : Setting) : Statement → Sections
  | .importFrom bindings source _ =>
    { empty with
      imports := importLines setting.options bindings (source.request setting.path) }
  | .exportDefault value _ =>
    { empty with
      declarations := value.declared.toList.map fun _ => .code (value.range.slice setting.source)
      defaults := value.lines setting }
  | .exportDeclaration d _ =>
    { empty with
      declarations := .code (d.range.slice setting.source) ::
        d.names.map fun name => .assign name.text name.text }
  | .exportList entries (some source) _ =>
    { empty with reexports := entries.map (reexportLine (source.request setting.path)) }
  | .exportList entries none _ => { empty with exports := exportPairs entries }
  | .exportNamespace exported source _ =>
    { empty with
      reexports := [.reexportNamespace exported.text (source.request setting.path)] }
  | .exportAll source _ =>
    { empty with spreads := [.spread (source.request setting.path)] }
  | .declaration d => { empty with statements := [.code (d.range.slice setting.source)] }
  | .verbatim _ range => { empty with statements := [.code (range.slice setting.source)] }

/-! ## Joining sections -/

def putExports (pairs all : List (String × String)) : List (String × String) :=
  pairs.foldl (fun all pair => putExport pair.1 pair.2 all) all

/-- The lines of `s` with those of `t` after them, section by section. -/
def Sections.append (s t : Sections) : Sections where
  statements := s.statements ++ t.statements
  declarations := s.declarations ++ t.declarations
  imports := s.imports ++ t.imports
  reexports := s.reexports ++ t.reexports
  spreads := s.spreads ++ t.spreads
  exports := putExports t.exports s.exports
  defaults := s.defaults ++ t.defaults

theorem Sections.mem_lines {s : Sections} :
    line ∈ s.lines placement ↔
      line ∈ s.statements ∨ line ∈ s.declarations ∨ line ∈ s.imports ∨ line ∈ s.reexports ∨
        line ∈ s.spreads ∨ (∃ pair ∈ s.exports, .assign pair.1 pair.2 = line) ∨
          line ∈ s.defaults := by
  cases placement <;> grind [lines]

theorem mem_putExport (h : pair ∈ putExport exported localName all) :
    pair = (exported, localName) ∨ pair ∈ all := by
  induction all with
  | nil => simpa [putExport] using h
  | cons head rest ih =>
    by_cases hname : head.1 = exported
    · simp only [putExport, hname, if_true, mem_cons] at h
      rcases h with rfl | h
      · exact .inl rfl
      · exact .inr (mem_cons_of_mem _ h)
    · simp only [putExport, hname, if_false, mem_cons] at h
      rcases h with rfl | h
      · exact .inr mem_cons_self
      · exact (ih h).imp_right (mem_cons_of_mem _)

theorem mem_map_fst_putExport :
    name ∈ (putExport exported localName all).map Prod.fst ↔
      name = exported ∨ name ∈ all.map Prod.fst := by
  induction all with
  | nil => simp [putExport]
  | cons head rest ih =>
    by_cases hname : head.1 = exported
    · subst hname
      simp [putExport]
    · simp only [putExport, hname, if_false, map_cons, mem_cons, ih]
      exact or_left_comm

theorem mem_putExports (h : pair ∈ putExports pairs all) : pair ∈ pairs ∨ pair ∈ all := by
  induction pairs generalizing all with
  | nil => exact .inr h
  | cons head rest ih =>
    rcases ih h with h | h
    · exact .inl (mem_cons_of_mem _ h)
    · rcases mem_putExport h with rfl | h
      · exact .inl mem_cons_self
      · exact .inr h

theorem mem_map_fst_putExports :
    name ∈ (putExports pairs all).map Prod.fst ↔
      name ∈ pairs.map Prod.fst ∨ name ∈ all.map Prod.fst := by
  induction pairs generalizing all with
  | nil => simp [putExports]
  | cons head rest ih =>
    have hstep : putExports (head :: rest) all =
        putExports rest (putExport head.1 head.2 all) := rfl
    rw [hstep, ih, mem_map_fst_putExport, map_cons, mem_cons, or_left_comm, or_assoc]

namespace Conversion

/-- Every remembered source has the form that resolving it again would give. -/
def Remembers (setting : Setting) (c : Conversion) : Prop :=
  ∀ value quoted, c.resolved.lookup value = some quoted →
    quoted = quote (Specifier.resolve value setting.path)

theorem start_remembers (setting : Setting) : start.Remembers setting := by
  intro value quoted h
  simp [start] at h

variable {setting : Setting} {c : Conversion}

@[simp] theorem resolve_sections (source : Quoted) :
    (c.resolve setting source).2.sections = c.sections := by
  unfold resolve
  split <;> rfl

theorem resolve_quoted (h : c.Remembers setting) (source : Quoted) :
    (c.resolve setting source).1 = source.request setting.path := by
  unfold resolve
  split
  · next quoted hfound => exact h _ _ hfound
  · rfl

theorem Remembers.resolve (h : c.Remembers setting) (source : Quoted) :
    (c.resolve setting source).2.Remembers setting := by
  unfold Conversion.resolve
  split
  · exact h
  · intro value quoted hfound
    simp only [lookup_append, Option.or_eq_some_iff] at hfound
    rcases hfound with hfound | ⟨-, hfound⟩
    · exact h _ _ hfound
    · by_cases hvalue : value = source.value
      · subst hvalue
        simpa using hfound.symm
      · simp [lookup_cons, beq_eq_false_iff_ne.mpr hvalue] at hfound

theorem Remembers.of_resolved_eq {c' : Conversion} (h : c.Remembers setting)
    (heq : c'.resolved = c.resolved) : c'.Remembers setting := by
  intro value quoted hfound
  exact h value quoted (heq ▸ hfound)

/-! ## One statement -/

theorem foldl_addExport (entries : List ExportEntry) (c : Conversion) :
    entries.foldl (fun c entry => c.addExport entry.exported.text entry.localName.text) c =
      c.edit fun s => { s with exports := putExports (exportPairs entries) s.exports } := by
  induction entries generalizing c with
  | nil => rfl
  | cons entry rest ih =>
    rw [foldl_cons, ih]
    rfl

theorem addExportDefault_sections (c : Conversion) (value : DefaultExport) (range : Range) :
    (c.addExportDefault setting value).sections =
      c.sections.append ((Statement.exportDefault value range).adds setting) := by
  cases value with
  | expression e =>
    cases e <;>
      simp [addExportDefault, adds, declared, knownAs,
        isCallable, DefaultExport.lines, noteAwait, addDefault, edit, append,
        empty, putExports]
  | function d | classOf d =>
    cases hname : d.name <;>
      simp [addExportDefault, addDefaultCallable, adds, declared,
        knownAs, isCallable, DefaultExport.lines, addDefault,
        addDeclaration, edit, append, empty, putExports, hname]

theorem addExportDeclaration_sections (c : Conversion) (d : Declaration) (range : Range) :
    (c.addExportDeclaration setting d).sections =
      c.sections.append ((Statement.exportDeclaration d range).adds setting) := by
  cases d <;>
    simp [addExportDeclaration, adds, noteAwait, addDeclaration, edit, append,
      empty, putExports]

theorem add_sections (h : c.Remembers setting) (s : Statement) :
    (c.add setting s).sections = c.sections.append (s.adds setting) := by
  cases s with
  | exportDefault value range => exact addExportDefault_sections c value range
  | exportDeclaration d range => exact addExportDeclaration_sections c d range
  | exportList entries source range =>
    cases source with
    | some source =>
      simp [add, adds, addReexports, edit, resolve_quoted h, append,
        empty, putExports]
    | none => simp [add, adds, foldl_addExport, edit, append, empty]
  | declaration d =>
    cases d <;>
      simp [add, adds, addStatement, noteAwait, edit, append, empty,
        putExports]
  | importFrom | exportNamespace | exportAll | verbatim =>
    simp [add, adds, addImports, addReexports, addSpread, addStatement, noteAwait, edit,
      resolve_quoted h, append, empty, putExports]

theorem addDefaultCallable_resolved (c : Conversion) (name : Option Name) (text : String) :
    (c.addDefaultCallable setting name text).resolved = c.resolved := by
  cases name <;> rfl

theorem addExportDefault_resolved (c : Conversion) (value : DefaultExport) :
    (c.addExportDefault setting value).resolved = c.resolved := by
  cases value with
  | expression e => cases e <;> rfl
  | function d => exact addDefaultCallable_resolved c d.name _
  | classOf d => exact addDefaultCallable_resolved c d.name _

theorem Remembers.add (h : c.Remembers setting) (s : Statement) :
    (c.add setting s).Remembers setting := by
  cases s with
  | importFrom bindings source range => exact (h.resolve source).of_resolved_eq rfl
  | exportDefault value range => exact h.of_resolved_eq (addExportDefault_resolved c value)
  | exportDeclaration d range => exact h.of_resolved_eq (by cases d <;> rfl)
  | exportList entries source range =>
    cases source with
    | some source => exact (h.resolve source).of_resolved_eq rfl
    | none => exact h.of_resolved_eq (by rw [Conversion.add, foldl_addExport]; rfl)
  | exportNamespace exported source range => exact (h.resolve source).of_resolved_eq rfl
  | exportAll source range => exact (h.resolve source).of_resolved_eq rfl
  | declaration d => exact h.of_resolved_eq (by cases d <;> rfl)
  | verbatim text range => exact h.of_resolved_eq rfl

end Conversion

theorem importLines_forms {options : Options} {bindings : List ImportBinding} {source : String}
    (h : line ∈ importLines options bindings source) :
    line = .require source ∨ (∃ name, line = .requireDefault name source) ∨
      (∃ name, line = .requireNamespace name source) ∨
        ∃ entries, line = .requireNamed entries source := by
  unfold importLines at h
  split at h
  · exact .inl (mem_singleton.mp h)
  · rcases mem_append.mp h with h | h
    · obtain ⟨binding, -, hline⟩ := mem_filterMap.mp h
      cases binding <;> simp at hline <;> subst hline <;> simp
    · split at h
      · cases h
      · exact .inr (.inr (.inr ⟨_, mem_singleton.mp h⟩))

/-- A default export is set by one line, after it has been bound or before it becomes the module
object. -/
theorem DefaultExport.lines_forms {value : DefaultExport} (h : line ∈ value.lines setting) :
    (∃ text, line = .bindDefault text) ∨ line = .assign "default" value.code ∨
      line = .mergeDefault := by
  unfold lines at h
  unfold code
  cases hname : value.knownAs with
  | some name =>
    simp only [hname, defaultLines, mem_cons] at h
    split at h <;> simp at h <;> simp <;> grind
  | none =>
    simp only [hname, boundDefaultLines, defaultLines, mem_cons] at h
    split at h <;> simp at h <;> simp <;> grind

theorem DefaultExport.assign_mem_lines (setting : Setting) (value : DefaultExport) :
    .assign "default" value.code ∈ value.lines setting := by
  unfold lines code
  cases value.knownAs <;> simp [boundDefaultLines, defaultLines]

/-! ## All statements -/

theorem foldl_add_sections {c : Conversion} (h : c.Remembers setting) (body : List Statement) :
    (body.foldl (Conversion.add setting) c).sections =
      body.foldl (fun all s => all.append (s.adds setting)) c.sections := by
  induction body generalizing c with
  | nil => rfl
  | cons s rest ih => rw [foldl_cons, foldl_cons, ih (h.add s), Conversion.add_sections h]

theorem convertStatements_sections (setting : Setting) (body : List Statement) :
    (convertStatements setting body).sections =
      body.foldl (fun all s => all.append (s.adds setting)) .empty :=
  foldl_add_sections (Conversion.start_remembers setting) body

/-- A section to which statements only add lines holds the lines of every statement, in order. -/
theorem convertStatements_section (lines : Sections → List OutputLine)
    (hempty : lines .empty = []) (happend : ∀ s t, lines (append s t) = lines s ++ lines t)
    (setting : Setting) (body : List Statement) :
    lines (convertStatements setting body).sections =
      body.flatMap fun s => lines (s.adds setting) := by
  have hfold : ∀ all, lines (body.foldl (fun all s => all.append (s.adds setting)) all) =
      lines all ++ body.flatMap fun s => lines (s.adds setting) := by
    induction body with
    | nil => simp
    | cons s rest ih =>
      intro all
      rw [foldl_cons, ih, happend, flatMap_cons, append_assoc]
  rw [convertStatements_sections, hfold, hempty, nil_append]

theorem convertStatements_exports (setting : Setting) (body : List Statement) :
    (convertStatements setting body).sections.exports =
      putExports (body.flatMap fun s => (s.adds setting).exports) [] := by
  have hfold : ∀ all : Sections,
      (body.foldl (fun all s => all.append (s.adds setting)) all).exports =
        putExports (body.flatMap fun s => (s.adds setting).exports) all.exports := by
    induction body with
    | nil => exact fun _ => rfl
    | cons s rest ih =>
      intro all
      rw [foldl_cons, ih, flatMap_cons]
      simp only [append, putExports, foldl_append]
  rw [convertStatements_sections, hfold]
  rfl

/-- A line of a conversion comes from an export list or from a section of one of the statements. -/
theorem mem_convertStatements_lines {body : List Statement} :
    line ∈ (convertStatements setting body).sections.lines placement ↔
      (∃ pair ∈ putExports (body.flatMap fun s => (s.adds setting).exports) [],
        .assign pair.1 pair.2 = line) ∨
      ∃ s ∈ body,
        (line ∈ (s.adds setting).statements ∨ line ∈ (s.adds setting).declarations ∨
          line ∈ (s.adds setting).defaults) ∨
        (line ∈ (s.adds setting).imports ∨ line ∈ (s.adds setting).reexports) ∨
          line ∈ (s.adds setting).spreads := by
  rw [mem_lines, convertStatements_exports,
    convertStatements_section statements rfl (fun _ _ => rfl),
    convertStatements_section declarations rfl (fun _ _ => rfl),
    convertStatements_section imports rfl (fun _ _ => rfl),
    convertStatements_section reexports rfl (fun _ _ => rfl),
    convertStatements_section spreads rfl (fun _ _ => rfl),
    convertStatements_section defaults rfl (fun _ _ => rfl)]
  simp only [mem_flatMap]
  grind

end ModuleBridge
