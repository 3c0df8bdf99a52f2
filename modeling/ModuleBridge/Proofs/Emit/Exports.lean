import ModuleBridge.Proofs.Emit.Requests

/-!
# Exports of a converted module

The lines of a converted module are carried out one after the other on its exports, starting with
none, so a name has the value of the last line that sets it. Exports by a declaration or from a
source come before the spreads of other modules, export lists and the default export after them.
-/

namespace ModuleBridge

open List OutputLine Sections Statement

/-- Where the value of an export comes from. Sources are given in their quoted form. -/
inductive Origin where
  /-- The module itself, by the code that has the value. -/
  | here (code : String)
  /-- One export of another module. -/
  | member (source name : String)
  /-- The exports of another module as one object. -/
  | object (source : String)
  /-- An export of another module that was copied along with all others. -/
  | copied (source name : String)
deriving DecidableEq, Repr

/-- What the other modules provide, and the value of each origin. -/
structure Surroundings (V : Type) where
  provided : String → List String
  value : Origin → V

section Performing

variable {V : Type} (w : Surroundings V) (name : String)

/-- The value that a line gives to a name, if it sets the name. Making the default export the module
object sets none. -/
def OutputLine.gives : OutputLine → Option V
  | .assign exported value => if exported = name then some (w.value (.here value)) else none
  | .reexport exported source imported =>
    if exported = name then some (w.value (.member source imported)) else none
  | .reexportNamespace exported source =>
    if exported = name then some (w.value (.object source)) else none
  | .spread source =>
    if name ∈ w.provided source then some (w.value (.copied source name)) else none
  | _ => none

def OutputLine.perform (exports : String → Option V) (line : OutputLine) : String → Option V :=
  fun name => (line.gives w name).or (exports name)

def performAll (lines : List OutputLine) : String → Option V :=
  lines.foldl (perform w) fun _ => none

end Performing

section

variable {V : Type} {w : Surroundings V} {name : String}

theorem foldl_perform (lines : List OutputLine) (exports : String → Option V) :
    lines.foldl (perform w) exports name =
      (performAll w lines name).or (exports name) := by
  unfold performAll
  induction lines generalizing exports with
  | nil => simp
  | cons line rest ih =>
    rw [foldl_cons, foldl_cons, ih, ih (perform w _ line)]
    simp [perform, Option.or_assoc]

theorem performAll_append (first second : List OutputLine) :
    performAll w (first ++ second) name =
      (performAll w second name).or (performAll w first name) := by
  unfold performAll
  rw [foldl_append, foldl_perform]
  rfl

theorem performAll_cons (line : OutputLine) (rest : List OutputLine) :
    performAll w (line :: rest) name = (performAll w rest name).or (line.gives w name) := by
  rw [← singleton_append, performAll_append]
  simp [performAll, perform]

theorem exists_of_performAll {lines : List OutputLine} {v : V}
    (h : performAll w lines name = some v) : ∃ line ∈ lines, line.gives w name = some v := by
  induction lines with
  | nil => cases h
  | cons line rest ih =>
    rw [performAll_cons, Option.or_eq_some_iff] at h
    rcases h with h | ⟨-, h⟩
    · obtain ⟨other, hmem, hgives⟩ := ih h
      exact ⟨other, mem_cons_of_mem _ hmem, hgives⟩
    · exact ⟨line, mem_cons_self, h⟩

theorem performAll_eq_none {lines : List OutputLine} :
    performAll w lines name = none ↔ ∀ line ∈ lines, line.gives w name = none := by
  induction lines with
  | nil => simp [performAll]
  | cons line rest ih => simp [performAll_cons, ih, and_comm]

end

/-- The lines set exactly the names of some exports, each to the value of one of its origins. -/
structure Sets {V : Type} (w : Surroundings V) (lines : List OutputLine)
    (exports : List (String × Origin)) : Prop where
  sound : ∀ {name : String} {v : V} {line : OutputLine}, line ∈ lines →
    line.gives w name = some v → ∃ origin, (name, origin) ∈ exports ∧ v = w.value origin
  complete : ∀ {name : String} {origin : Origin}, (name, origin) ∈ exports →
    ∃ line ∈ lines, ∃ v, line.gives w name = some v

namespace Sets

variable {V : Type} {w : Surroundings V} {lines : List OutputLine}
  {exports : List (String × Origin)} {name : String}

theorem value (h : Sets w lines exports) (hname : name ∈ exports.map Prod.fst) :
    ∃ origin, (name, origin) ∈ exports ∧ performAll w lines name = some (w.value origin) := by
  obtain ⟨⟨name, origin⟩, hmem, rfl⟩ := mem_map.mp hname
  cases hv : performAll w lines name with
  | none =>
    obtain ⟨line, hline, v, hgives⟩ := h.complete hmem
    rw [performAll_eq_none.mp hv line hline] at hgives
    cases hgives
  | some v =>
    obtain ⟨line, hline, hgives⟩ := exists_of_performAll hv
    obtain ⟨origin, horigin, rfl⟩ := h.sound hline hgives
    exact ⟨origin, horigin, rfl⟩

theorem eq_none (h : Sets w lines exports) (hname : name ∉ exports.map Prod.fst) :
    performAll w lines name = none := by
  rw [performAll_eq_none]
  intro line hline
  cases hgives : line.gives w name with
  | none => rfl
  | some v =>
    obtain ⟨origin, horigin, -⟩ := h.sound hline hgives
    exact absurd (mem_map.mpr ⟨_, horigin, rfl⟩) hname

end Sets

/-! ## Exports of single statements -/

namespace Statement

/-- The names that a statement exports one by one before other modules are copied. -/
def earlyExports (path : Option String) : Statement → List (String × Origin)
  | exportDeclaration d _ => d.names.map fun name => (name.text, .here name.text)
  | exportList entries (some source) _ =>
    entries.map fun entry =>
      (entry.exported.text, .member (source.request path) entry.localName.text)
  | exportNamespace exported source _ => [(exported.text, .object (source.request path))]
  | _ => []

/-- The names that a statement exports one by one after that. -/
def lateExports : Statement → List (String × Origin)
  | exportDefault value _ => [("default", .here value.code)]
  | exportList entries none _ =>
    entries.map fun entry => (entry.exported.text, .here entry.localName.text)
  | _ => []

/-- The module whose exports a statement copies. -/
def spread? (path : Option String) : Statement → Option String
  | exportAll source _ => some (source.request path)
  | _ => none

variable {V : Type} {w : Surroundings V} {name : String} {v : V} {setting : Setting}
  {s : Statement}

theorem exists_early_iff :
    (∃ line ∈ (s.adds setting).declarations ++ (s.adds setting).reexports,
        line.gives w name = some v) ↔
      ∃ origin, (name, origin) ∈ s.earlyExports setting.path ∧ v = w.value origin := by
  cases s with
  | exportDeclaration d range =>
    simp [adds, earlyExports, empty, gives]
    grind
  | exportList entries source range =>
    cases source with
    | some source =>
      simp [adds, earlyExports, empty, gives, reexportLine]
      grind
    | none => simp [adds, earlyExports, empty]
  | exportNamespace exported source range =>
    simp [adds, earlyExports, empty, gives]
    grind
  | _ => simp [adds, earlyExports, empty, gives]

theorem exists_late_iff :
    (∃ line ∈ (s.adds setting).exports.map (fun pair => assign pair.1 pair.2) ++
        (s.adds setting).defaults, line.gives w name = some v) ↔
      ∃ origin, (name, origin) ∈ s.lateExports ∧ v = w.value origin := by
  cases s with
  | exportDefault value range =>
    simp only [adds, lateExports, empty, map_nil, nil_append, mem_singleton,
      Prod.mk.injEq]
    constructor
    · rintro ⟨line, hline, hgives⟩
      rcases DefaultExport.lines_forms hline with ⟨text, rfl⟩ | rfl | rfl
      · cases hgives
      · simp only [gives, Option.ite_none_right_eq_some, Option.some.injEq] at hgives
        exact ⟨_, ⟨hgives.1.symm, rfl⟩, hgives.2.symm⟩
      · cases hgives
    · rintro ⟨origin, ⟨rfl, rfl⟩, rfl⟩
      exact ⟨_, DefaultExport.assign_mem_lines setting value, by simp [gives]⟩
  | exportList entries source range =>
    cases source with
    | some source => simp [adds, lateExports, empty]
    | none =>
      simp [adds, lateExports, empty, gives, exportPairs]
      grind
  | _ => simp [adds, lateExports, empty, gives]

theorem exists_spread_iff :
    (∃ line ∈ (s.adds setting).spreads, line.gives w name = some v) ↔
      ∃ source, s.spread? setting.path = some source ∧ name ∈ w.provided source ∧
        v = w.value (.copied source name) := by
  cases s with
  | exportAll source range =>
    simp [adds, spread?, empty, gives]
    grind
  | exportList entries source range => cases source <;> simp [adds, spread?, empty]
  | _ => simp [adds, spread?, empty]

theorem gives_of_mem_code {line : OutputLine}
    (h : line ∈ (s.adds setting).imports ∨ line ∈ (s.adds setting).statements) :
    line.gives w name = none := by
  cases s with
  | importFrom bindings source range =>
    rcases h with h | h
    · rcases importLines_forms h with rfl | ⟨_, rfl⟩ | ⟨_, rfl⟩ | ⟨_, rfl⟩ <;> rfl
    · cases h
  | exportList entries source range => cases source <;> simp [adds, empty] at h
  | declaration d =>
    simp only [adds, empty, mem_singleton, not_mem_nil, false_or] at h
    subst h
    rfl
  | verbatim text range =>
    simp only [adds, empty, mem_singleton, not_mem_nil, false_or] at h
    subst h
    rfl
  | _ => simp [adds, empty] at h

end Statement

/-! ## Exports of a whole module -/

namespace Module

def earlyExports (m : Module) (path : Option String) : List (String × Origin) :=
  m.body.flatMap (Statement.earlyExports path)

def lateExports (m : Module) : List (String × Origin) :=
  m.body.flatMap Statement.lateExports

/-- All names that a module exports one by one, with the origin of their values. -/
def explicitExports (m : Module) (path : Option String) : List (String × Origin) :=
  m.earlyExports path ++ m.lateExports

def spreads (m : Module) (path : Option String) : List String :=
  m.body.filterMap (spread? path)

def earlyLines (m : Module) (setting : Setting) : List OutputLine :=
  (m.body.flatMap fun s => (s.adds setting).declarations) ++
    m.body.flatMap fun s => (s.adds setting).reexports

def spreadLines (m : Module) (setting : Setting) : List OutputLine :=
  m.body.flatMap fun s => (s.adds setting).spreads

def lateLines (m : Module) (setting : Setting) : List OutputLine :=
  (putExports (m.body.flatMap fun s => (s.adds setting).exports) []).map
      (fun pair => assign pair.1 pair.2) ++
    m.body.flatMap fun s => (s.adds setting).defaults

variable {V : Type} {w : Surroundings V}

def copiedExports (m : Module) (path : Option String) (w : Surroundings V) :
    List (String × Origin) :=
  (m.spreads path).flatMap fun source => (w.provided source).map fun name =>
    (name, .copied source name)

theorem mem_copiedExports {m : Module} {path : Option String} {name : String} {origin : Origin} :
    (name, origin) ∈ m.copiedExports path w ↔
      ∃ source ∈ m.spreads path, name ∈ w.provided source ∧ origin = .copied source name := by
  simp only [copiedExports, mem_flatMap, mem_map, Prod.mk.injEq]
  grind

theorem sets_earlyExports (m : Module) (setting : Setting) :
    Sets w (m.earlyLines setting) (m.earlyExports setting.path) where
  sound := by
    intro name v line hline hgives
    have hs : ∃ s ∈ m.body, line ∈ (s.adds setting).declarations ++ (s.adds setting).reexports := by
      simp only [earlyLines, mem_append, mem_flatMap] at hline ⊢
      grind
    obtain ⟨s, hs, hline⟩ := hs
    obtain ⟨origin, horigin, rfl⟩ := Statement.exists_early_iff.mp ⟨line, hline, hgives⟩
    exact ⟨origin, mem_flatMap.mpr ⟨s, hs, horigin⟩, rfl⟩
  complete := by
    intro name origin h
    obtain ⟨s, hs, horigin⟩ := mem_flatMap.mp h
    obtain ⟨line, hline, hgives⟩ := (Statement.exists_early_iff (w := w)).mpr ⟨origin, horigin, rfl⟩
    refine ⟨line, ?_, _, hgives⟩
    simp only [earlyLines, mem_append, mem_flatMap] at hline ⊢
    exact hline.imp (⟨s, hs, ·⟩) (⟨s, hs, ·⟩)

theorem sets_lateExports (m : Module) (setting : Setting) :
    Sets w (m.lateLines setting) m.lateExports where
  sound := by
    intro name v line hline hgives
    have hs : ∃ s ∈ m.body, line ∈ (s.adds setting).exports.map
        (fun pair => assign pair.1 pair.2) ++ (s.adds setting).defaults := by
      simp only [lateLines, mem_append, mem_flatMap, mem_map] at hline ⊢
      rcases hline with ⟨pair, hpair, rfl⟩ | ⟨s, hs, hline⟩
      · rcases mem_putExports hpair with hpair | hpair
        · obtain ⟨s, hs, hpair⟩ := mem_flatMap.mp hpair
          exact ⟨s, hs, .inl ⟨pair, hpair, rfl⟩⟩
        · cases hpair
      · exact ⟨s, hs, .inr hline⟩
    obtain ⟨s, hs, hline⟩ := hs
    obtain ⟨origin, horigin, rfl⟩ := Statement.exists_late_iff.mp ⟨line, hline, hgives⟩
    exact ⟨origin, mem_flatMap.mpr ⟨s, hs, horigin⟩, rfl⟩
  complete := by
    intro name origin h
    obtain ⟨s, hs, horigin⟩ := mem_flatMap.mp h
    have hset : ∃ line ∈ (s.adds setting).exports.map
        (fun pair => assign pair.1 pair.2) ++ (s.adds setting).defaults,
        line.gives w name = some (w.value origin) :=
      Statement.exists_late_iff.mpr ⟨origin, horigin, rfl⟩
    obtain ⟨line, hline, hgives⟩ := hset
    rcases mem_append.mp hline with hline | hline
    · -- An export list may set the name to another value later, but it sets it.
      obtain ⟨pair, hpair, rfl⟩ := mem_map.mp hline
      have hname : pair.1 = name := by
        simp only [gives, Option.ite_none_right_eq_some] at hgives
        exact hgives.1
      have hplace : name ∈ (putExports (m.body.flatMap fun s => (s.adds setting).exports) []).map
          Prod.fst := by
        rw [mem_map_fst_putExports]
        exact .inl (mem_map.mpr ⟨pair, mem_flatMap.mpr ⟨s, hs, hpair⟩, hname⟩)
      obtain ⟨other, hother, rfl⟩ := mem_map.mp hplace
      refine ⟨_, mem_append_left _ (mem_map.mpr ⟨other, hother, rfl⟩), ?_⟩
      simp [gives]
    · exact ⟨line, mem_append_right _ (mem_flatMap.mpr ⟨s, hs, hline⟩), _, hgives⟩

theorem sets_copiedExports (m : Module) (setting : Setting) :
    Sets w (m.spreadLines setting) (m.copiedExports setting.path w) where
  sound := by
    intro name v line hline hgives
    obtain ⟨s, hs, hline⟩ := mem_flatMap.mp hline
    obtain ⟨source, hsource, hname, rfl⟩ := exists_spread_iff.mp ⟨line, hline, hgives⟩
    exact ⟨_, mem_copiedExports.mpr
      ⟨source, mem_filterMap.mpr ⟨s, hs, hsource⟩, hname, rfl⟩, rfl⟩
  complete := by
    intro name origin h
    obtain ⟨source, hsource, hname, -⟩ := mem_copiedExports.mp h
    obtain ⟨s, hs, hsource⟩ := mem_filterMap.mp hsource
    obtain ⟨line, hline, hgives⟩ :=
      (exists_spread_iff (w := w)).mpr ⟨source, hsource, hname, rfl⟩
    exact ⟨line, mem_flatMap.mpr ⟨s, hs, hline⟩, _, hgives⟩

end Module

/-- What comes after the spreads wins over them, and they win over what comes before. -/
theorem performAll_lines {V : Type} (w : Surroundings V) (name : String) (m : Module)
    (setting : Setting) (placement : ImportPlacement) :
    performAll w ((convertStatements setting m.body).sections.lines placement) name =
      (performAll w (m.lateLines setting) name).or
        ((performAll w (m.spreadLines setting) name).or
          (performAll w (m.earlyLines setting) name)) := by
  have hstatements :
      performAll w (m.body.flatMap fun s => (s.adds setting).statements) name = none := by
    rw [performAll_eq_none]
    intro line hline
    obtain ⟨s, -, hline⟩ := mem_flatMap.mp hline
    exact gives_of_mem_code (.inr hline)
  have himports : performAll w (m.body.flatMap fun s => (s.adds setting).imports) name = none := by
    rw [performAll_eq_none]
    intro line hline
    obtain ⟨s, -, hline⟩ := mem_flatMap.mp hline
    exact gives_of_mem_code (.inl hline)
  have hnil : performAll w [] name = none := rfl
  unfold Sections.lines Module.lateLines Module.spreadLines Module.earlyLines
  rw [convertStatements_exports,
    convertStatements_section statements rfl (fun _ _ => rfl),
    convertStatements_section declarations rfl (fun _ _ => rfl),
    convertStatements_section imports rfl (fun _ _ => rfl),
    convertStatements_section reexports rfl (fun _ _ => rfl),
    convertStatements_section Sections.spreads rfl (fun _ _ => rfl),
    convertStatements_section defaults rfl (fun _ _ => rfl)]
  cases placement <;>
    simp only [performAll_append, hstatements, himports, hnil, Option.or_none, Option.none_or,
      Option.or_assoc]

/-! ## Main statement -/

/-- A name that is exported one by one has an explicit value at the end if an export list or the
default export sets it, or if no copied module provides it. Otherwise a copied module has
overwritten it. -/
theorem Converter.explicit_export_value {V : Type} (k : Converter) (m : Module) (text : String)
    (path : Option String) (w : Surroundings V) (name : String)
    (hname : name ∈ (m.explicitExports path).map Prod.fst) :
    ((name ∈ m.lateExports.map Prod.fst ∨ ∀ source ∈ m.spreads path, name ∉ w.provided source) →
      ∃ origin, (name, origin) ∈ m.explicitExports path ∧
        performAll w (k.lines m text path) name = some (w.value origin)) ∧
    (¬(name ∈ m.lateExports.map Prod.fst ∨
        ∀ source ∈ m.spreads path, name ∉ w.provided source) →
      ∃ source ∈ m.spreads path, name ∈ w.provided source ∧
        performAll w (k.lines m text path) name = some (w.value (.copied source name))) := by
  have hfinal : performAll w (k.lines m text path) name = _ :=
    performAll_lines w name m (settingOf k.options m text path) k.options.importPlacement
  have hlate := m.sets_lateExports (w := w) (settingOf k.options m text path)
  have hcopied := m.sets_copiedExports (w := w) (settingOf k.options m text path)
  have hearly := m.sets_earlyExports (w := w) (settingOf k.options m text path)
  have hexplicit : name ∈ (m.earlyExports path).map Prod.fst ∨
      name ∈ m.lateExports.map Prod.fst := by
    simpa only [Module.explicitExports, List.map_append, List.mem_append] using hname
  rw [hfinal]
  by_cases hset : name ∈ m.lateExports.map Prod.fst
  · obtain ⟨origin, horigin, hvalue⟩ := hlate.value hset
    refine ⟨fun _ => ⟨origin, List.mem_append_right _ horigin, ?_⟩, fun h => absurd (.inl hset) h⟩
    rw [hvalue, Option.some_or]
  rw [hlate.eq_none hset, Option.none_or]
  by_cases hover : name ∈ (m.copiedExports path w).map Prod.fst
  · obtain ⟨origin, horigin, hvalue⟩ := hcopied.value hover
    obtain ⟨source, hsource, hprovided, rfl⟩ := Module.mem_copiedExports.mp horigin
    refine ⟨fun h => ?_, fun _ => ⟨source, hsource, hprovided, ?_⟩⟩
    · rcases h with h | h
      · exact absurd h hset
      · exact absurd hprovided (h source hsource)
    · rw [hvalue, Option.some_or]
  · obtain ⟨origin, horigin, hvalue⟩ := hearly.value (hexplicit.resolve_right hset)
    rw [hcopied.eq_none hover, Option.none_or]
    refine ⟨fun _ => ⟨origin, List.mem_append_left _ horigin, hvalue⟩, fun h => absurd ?_ h⟩
    refine .inr fun source hsource hprovided => hover (List.mem_map.mpr ?_)
    exact ⟨_, Module.mem_copiedExports.mpr ⟨source, hsource, hprovided, rfl⟩, rfl⟩

/-- The module `export let a, b; export * from 'm'; export { b as c };`, on three lines. -/
def overlapping : Module :=
  ⟨[.exportDeclaration (.variable ⟨.lexical,
      [⟨.name ⟨"a", ⟨11, 12⟩⟩, none, ⟨11, 12⟩⟩, ⟨.name ⟨"b", ⟨14, 15⟩⟩, none, ⟨14, 15⟩⟩],
      ⟨7, 16⟩⟩) ⟨0, 16⟩,
    .exportAll ⟨"m", ⟨31, 34⟩⟩ ⟨17, 35⟩,
    .exportList [⟨⟨"b", ⟨45, 46⟩⟩, ⟨"c", ⟨50, 51⟩⟩⟩] none ⟨36, 54⟩]⟩

def providingBoth : Surroundings Origin :=
  ⟨fun _ => ["a", "c"], id⟩

/-- A copied module overwrites an exported declaration, but not an entry of an export list. -/
theorem spread_overwrites_declaration :
    let text := "export let a, b;\nexport * from 'm';\nexport \x7b b as c \x7d;"
    let lines := (Converter.ofOptions .standard).lines overlapping text none
    parseModule text = .ok overlapping ∧
      ("a", .here "a") ∈ overlapping.explicitExports none ∧
      performAll providingBoth lines "a" = some (.copied "'m'" "a") ∧
      performAll providingBoth lines "c" = some (.here "b") := by
  intro text lines
  have hspreads : overlapping.spreads none = ["'m'"] := by cbv
  refine ⟨by cbv, by decide, ?_, ?_⟩
  · have ha := (Converter.explicit_export_value (.ofOptions .standard) overlapping text none
      providingBoth "a" (by decide)).2
    obtain ⟨source, hsource, -, hvalue⟩ := ha (by rw [hspreads]; decide)
    rw [hspreads, List.mem_singleton] at hsource
    rw [hvalue, hsource]
    rfl
  · have hc := (Converter.explicit_export_value (.ofOptions .standard) overlapping text none
      providingBoth "c" (by decide)).1
    obtain ⟨origin, horigin, hvalue⟩ := hc (.inl (by decide))
    have horigin : origin = .here "b" := by
      simpa [Module.explicitExports, Module.earlyExports, Module.lateExports,
        Statement.earlyExports, Statement.lateExports, overlapping, Declaration.names,
        VariableDeclaration.names, Target.names] using horigin
    rw [hvalue, horigin]
    rfl

end ModuleBridge
