import ModuleBridge.Proofs.Emit.Interleaving
import ModuleBridge.Proofs.Lossy.LineForms

/-!
# Both conversions of declarations in lines

A text that holds one declaration in each line can be read, and it can be rewritten line by line as
well. Both conversions give the same lines. Only their order differs: what is read is sorted into
sections, what is rewritten stays where it was.
-/

namespace ModuleBridge

open List PlainBinding

variable {declarations : List LineDeclaration}

/-! ## Lines of a statement that was read -/

def PlainBinding.line? (source : String) : PlainBinding → Option OutputLine
  | default localName => some (.requireDefault localName source)
  | «namespace» localName => some (.requireNamespace localName source)
  | named _ _ => none

def PlainBinding.entry? (options : Options) : PlainBinding → Option String
  | named imported localName => some (importEntry options.explicitImportRenames imported localName)
  | _ => none

theorem importLines_eq_plain {options : Options} {bindings : List ImportBinding} {source : String}
    {plain : List PlainBinding} (h : bindings.map ImportBinding.plain = plain) :
    importLines options bindings source =
      if plain.isEmpty then [.require source]
      else plain.filterMap (line? source) ++
        if (plain.filterMap (PlainBinding.entry? options)).isEmpty then []
        else [.requireNamed (plain.filterMap (PlainBinding.entry? options)) source] := by
  subst h
  have hplain : ∀ {α : Type} (f : ImportBinding → Option α) (g : PlainBinding → Option α),
      (∀ b, f b = g b.plain) →
        bindings.filterMap f = (bindings.map ImportBinding.plain).filterMap g := by
    intro α f g heq
    rw [filterMap_map]
    exact filterMap_congr fun b _ => heq b
  simp only [importLines, isEmpty_map]
  rw [hplain _ (line? source), hplain _ (PlainBinding.entry? options)]
  · intro b
    cases b <;> rfl
  · intro b
    cases b <;> rfl

theorem importLines_of_named {bindings : List ImportBinding} {source : String} {first : Entry}
    {rest : List Entry} (h : bindings.map ImportBinding.plain =
      (first :: rest).map fun e => .named e.names.1 e.names.2) :
    importLines .standard bindings source =
      [.requireNamed ((first :: rest).map fun e => importEntry false e.names.1 e.names.2)
        source] := by
  have hlines : ((first :: rest).map fun e => named e.names.1 e.names.2).filterMap
      (line? source) = [] := by
    rw [filterMap_map]
    exact filterMap_eq_nil_iff.mpr fun e _ => rfl
  have hentries : ((first :: rest).map fun e => named e.names.1 e.names.2).filterMap
      (PlainBinding.entry? .standard) =
        (first :: rest).map fun e => importEntry false e.names.1 e.names.2 := by
    rw [filterMap_map, ← filterMap_eq_map]
    rfl
  rw [importLines_eq_plain h, hlines, hentries]
  rfl

namespace LineDeclaration

variable {d : LineDeclaration} {s : Statement} {setting : Setting}

theorem adds_of_reads (h : d.declaration.Reads s) (hoptions : setting.options = .standard)
    (hpath : setting.path = none) :
    ∃ imports reexports spreads,
      s.adds setting = ⟨[], [], imports, reexports, spreads, [], []⟩ ∧
        s.awaits setting.source = false ∧ imports ++ reexports ++ spreads = d.lines := by
  have hrequest : ∀ q : Quoted, q.request setting.path = quote q.value := by
    intro q
    rw [hpath]
    rfl
  cases d with
  | importOnly source =>
    cases s with
    | importFrom bindings q range =>
      obtain ⟨rfl, hvalue⟩ := h
      refine ⟨_, [], [], rfl, rfl, ?_⟩
      rw [hrequest, hvalue]
      rfl
    | _ => exact h.elim
  | importDefault localName source | importNamespace localName source =>
    cases s with
    | importFrom bindings q range =>
      obtain ⟨hbindings, hvalue⟩ := h
      refine ⟨_, [], [], rfl, rfl, ?_⟩
      rw [hrequest, hvalue, importLines_eq_plain hbindings]
      rfl
    | _ => exact h.elim
  | importNamed first rest source =>
    cases s with
    | importFrom bindings q range =>
      obtain ⟨hbindings, hvalue⟩ := h
      refine ⟨_, [], [], rfl, rfl, ?_⟩
      rw [hrequest, hvalue, hoptions,
        importLines_of_named (hbindings.trans map_map)]
      rfl
    | _ => exact h.elim
  | exportFrom first rest source =>
    cases s with
    | exportList entries q range =>
      obtain ⟨hentries, hsource⟩ := h
      obtain ⟨q, rfl, hvalue⟩ := Option.map_eq_some_iff.mp hsource
      refine ⟨[], _, [], rfl, rfl, ?_⟩
      have hlines : entries.map (reexportLine (quote source.value)) =
          (entries.map fun e => (e.localName.text, e.exported.text)).map fun names =>
            .reexport names.2 (quote source.value) names.1 := by
        rw [map_map]
        rfl
      rw [hrequest, hvalue, nil_append, append_nil]
      refine hlines.trans ?_
      rw [hentries]
      exact map_map
    | _ => exact h.elim
  | exportAll source =>
    cases s with
    | exportAll q range =>
      refine ⟨[], [], _, rfl, rfl, ?_⟩
      rw [hrequest, h]
      rfl
    | _ => exact h.elim
  | exportNamespace exported source =>
    cases s with
    | exportNamespace name q range =>
      obtain ⟨hname, hvalue⟩ := h
      refine ⟨[], _, [], rfl, rfl, ?_⟩
      rw [hrequest, hvalue, hname]
      rfl
    | _ => exact h.elim

def allLines (declarations : List LineDeclaration) : List OutputLine :=
  declarations.flatMap lines

theorem splitLines_joinLines_render {feed : Bool} {lines : List OutputLine}
    (h : ∀ line ∈ lines, line ∈ allLines declarations) :
    splitLines (joinLines feed (lines.map (·.render.toList))) = lines.map (·.render.toList) := by
  refine splitLines_joinLines fun text htext => ?_
  obtain ⟨line, hline, rfl⟩ := mem_map.mp htext
  obtain ⟨d, _, hd⟩ := mem_flatMap.mp (h line hline)
  have hisLine := isLine_render hd
  refine ⟨hisLine.1, hisLine.2, fun hlast => ?_⟩
  exact return_not_mem_of_isUnbroken (isUnbroken_render hd) (mem_of_getLast? hlast)

theorem splitLines_renderLines {lines : List OutputLine}
    (h : ∀ line ∈ lines, line ∈ allLines declarations) :
    splitLines (renderLines lines).toList = lines.map (·.render.toList) := by
  have htext : (renderLines lines).toList = joinLines false (lines.map (·.render.toList)) := by
    rw [renderLines, String.toList_intercalate, joinLines_false, map_map]
    rfl
  rw [htext, splitLines_joinLines_render h]

def written (declarations : List LineDeclaration) : String :=
  String.join ((allLines declarations).map (·.render ++ "\n"))

theorem splitLines_written (declarations : List LineDeclaration) :
    splitLines (written declarations).toList =
      (allLines declarations).map (·.render.toList) := by
  have htext : (written declarations).toList =
      joinLines true ((allLines declarations).map (·.render.toList)) := by
    simp [written, joinLines_true, String.toList_join, flatMap_map]
  rw [htext, splitLines_joinLines_render fun _ hline => hline]

/-- The passes leave each declaration the lines it stands for. -/
theorem runPasses_joinLines (feed : Bool) (declarations : List LineDeclaration) :
    runPasses Pass.all (joinLines feed (chars declarations)) =
      .plain (joinLines feed ((allLines declarations).map (·.render.toList))) := by
  let plan : Pass.Plan := declarations.map fun d => (d.text.toList, d.rendered)
  have hplan : ∀ p ∈ plan, Pass.Becomes Pass.all p.1 p.2 := by
    intro p hp
    obtain ⟨d, _, rfl⟩ := mem_map.mp hp
    exact Pass.becomes_all d
  have hfirst : plan.map Prod.fst = chars declarations := map_map
  have hsecond : plan.flatMap Prod.snd = (allLines declarations).map (·.render.toList) := by
    rw [allLines, map_flatMap, flatMap_map]
    rfl
  have hrun := Pass.runPasses_plan feed hplan
  rwa [hfirst, hsecond] at hrun

theorem Prints.convertLossily {text : String} (h : Prints declarations text) :
    convertLossily text = lossyHeader ++ written declarations ++ lossyFooter := by
  obtain ⟨feed, htext⟩ := h.exists_joinLines
  have hlines : ((allLines declarations).map (·.render.toList)).map lossyLine =
      (allLines declarations).map (·.render ++ "\n") := by
    rw [map_map]
    refine map_congr_left fun line hline => ?_
    obtain ⟨d, _, hd⟩ := mem_flatMap.mp hline
    simp [lossyLine, isDeclarationLine_render hd]
  simp only [ModuleBridge.convertLossily, htext, runPasses_joinLines, Replacement.plain,
    splitLines_joinLines_render (fun _ hline => hline), hlines, map_nil]
  simp [written]

/-! ### Read -/

section

variable {declarations : List LineDeclaration} {body : List Statement}

section

variable (h : List.Forall₂ (fun d s => d.declaration.Reads s) declarations body)

include h

theorem exists_reads (hs : s ∈ body) : ∃ d : LineDeclaration, d.declaration.Reads s := by
  induction h with
  | nil => cases hs
  | cons hread _ ih =>
    cases hs with
    | head => exact ⟨_, hread⟩
    | tail _ hs => exact ih hs

theorem flatMap_adds (hoptions : setting.options = .standard) (hpath : setting.path = none) :
    (body.flatMap fun s => (s.adds setting).imports ++ (s.adds setting).reexports ++
      (s.adds setting).spreads) = allLines declarations := by
  induction h with
  | nil => rfl
  | cons hread _ ih =>
    obtain ⟨imports, reexports, spreads, hadds, _, hlines⟩ := adds_of_reads hread hoptions hpath
    rw [flatMap_cons, ih, hadds, allLines, allLines, flatMap_cons, ← hlines]

/-- What the lines of statements that were read from lines are, up to the order of the sections. -/
theorem convertStatements_lines (hoptions : setting.options = .standard)
    (hpath : setting.path = none) :
    (convertStatements setting body).awaits = false ∧
      ((convertStatements setting body).sections.lines .afterDeclarations).Perm
        (allLines declarations) := by
  have hbody : ∀ s ∈ body, ∃ imports reexports spreads,
      s.adds setting = ⟨[], [], imports, reexports, spreads, [], []⟩ ∧
        s.awaits setting.source = false := by
    intro s hs
    obtain ⟨d, hread⟩ := exists_reads h hs
    obtain ⟨imports, reexports, spreads, hadds, hawaits, _⟩ := adds_of_reads hread hoptions hpath
    exact ⟨imports, reexports, spreads, hadds, hawaits⟩
  have hnone : ∀ lines : Sections → List OutputLine, lines .empty = [] →
      (∀ s t, lines (Sections.append s t) = lines s ++ lines t) →
      (∀ imports reexports spreads, lines ⟨[], [], imports, reexports, spreads, [], []⟩ = []) →
      lines (convertStatements setting body).sections = [] := by
    intro lines hempty happend hlines
    rw [convertStatements_section lines hempty happend, flatMap_eq_nil_iff]
    intro s hs
    obtain ⟨imports, reexports, spreads, hadds, _⟩ := hbody s hs
    rw [hadds, hlines]
  have hexports : (convertStatements setting body).sections.exports = [] := by
    have hnames : (body.flatMap fun s => (s.adds setting).exports) = [] := by
      refine flatMap_eq_nil_iff.mpr fun s hs => ?_
      obtain ⟨imports, reexports, spreads, hadds, _⟩ := hbody s hs
      rw [hadds]
    rw [convertStatements_exports, hnames]
    rfl
  refine ⟨?_, ?_⟩
  · rw [convertStatements_awaits, any_eq_false]
    intro s hs
    obtain ⟨_, _, _, _, hawaits⟩ := hbody s hs
    simp [hawaits]
  · simp only [Sections.lines, hexports,
      hnone Sections.statements rfl (fun _ _ => rfl) (fun _ _ _ => rfl),
      hnone Sections.declarations rfl (fun _ _ => rfl) (fun _ _ _ => rfl),
      hnone Sections.defaults rfl (fun _ _ => rfl) (fun _ _ _ => rfl),
      convertStatements_section Sections.imports rfl (fun _ _ => rfl),
      convertStatements_section Sections.reexports rfl (fun _ _ => rfl),
      convertStatements_section Sections.spreads rfl (fun _ _ => rfl), map_nil,
      nil_append, append_nil]
    -- Three sections of all statements, against all sections of each statement in turn.
    rw [← flatMap_adds h hoptions hpath]
    exact ((flatMap_append_perm _ _ _).append_right _).trans (flatMap_append_perm _ _ _)

end

end

end LineDeclaration

open LineDeclaration

/-- A text that declares imports and exports in lines of their own can be read. What the lossy
conversion puts between the header and the footer are the lines that the declarations stand for, and
up to their order they are the lines of the body that the converter makes of the module. -/
theorem convertLossily_agrees {declarations : List LineDeclaration} {text : String}
    (h : Prints declarations text) :
    ∃ m written body, parseModule text = .ok m ∧
      convertLossily text = lossyHeader ++ written ++ lossyFooter ∧
      ((Converter.ofOptions .standard).convert m text none).1 = withPreamble body ∧
      splitLines written.toList = (declarations.flatMap lines).map (·.render.toList) ∧
      (splitLines written.toList).Perm (splitLines body.toList) := by
  obtain ⟨body, hread, hall⟩ := h.parseModule
  let c := convertStatements (settingOf .standard ⟨body⟩ text none) body
  let placed := c.sections.lines .afterDeclarations
  have hplaced : c.awaits = false ∧ placed.Perm (allLines declarations) :=
    convertStatements_lines hall rfl rfl
  have hbody := splitLines_renderLines fun _ hline => hplaced.2.mem_iff.mp hline
  have hwritten := splitLines_written declarations
  refine ⟨⟨body⟩, written declarations, renderLines placed, hread, h.convertLossily, ?_, hwritten,
    ?_⟩
  · change c.text .standard = _
    rw [Conversion.text, hplaced.1]
    rfl
  · rw [hwritten, hbody]
    exact (hplaced.2.map _).symm

def wordDeclarations : List LineDeclaration :=
  [.exportAll ⟨"./a", by decide, by simp⟩,
    .exportFrom ⟨⟨"as", by decide +kernel⟩, some ⟨"default", by decide +kernel⟩⟩
      [⟨⟨"from", by decide +kernel⟩, none⟩] ⟨"b", by decide, by simp⟩,
    .importDefault ⟨"$", by decide +kernel⟩ ⟨"./a", by decide, by simp⟩]

def wordLines : String :=
  "export * from './a';\nexport \x7b as as default, from \x7d from 'b';\nimport $ from './a';"

theorem wordLines_agree :
    Prints wordDeclarations wordLines ∧
      ∃ m written body, parseModule wordLines = .ok m ∧
        convertLossily wordLines = lossyHeader ++ written ++ lossyFooter ∧
        ((Converter.ofOptions .standard).convert m wordLines none).1 = withPreamble body ∧
        splitLines written.toList =
          ["Object.assign(exports, require('./a'));", "exports.default = require('b').as;",
            "exports.from = require('b').from;", "const $ = require('./a').default;"].map
              String.toList ∧
        (splitLines written.toList).Perm (splitLines body.toList) := by
  have hprints : Prints wordDeclarations wordLines := .inr (by decide +kernel)
  have hlines : (wordDeclarations.flatMap lines).map (·.render.toList) =
      ["Object.assign(exports, require('./a'));", "exports.default = require('b').as;",
        "exports.from = require('b').from;", "const $ = require('./a').default;"].map
          String.toList := by
    decide +kernel
  rw [← hlines]
  exact ⟨hprints, convertLossily_agrees hprints⟩

end ModuleBridge
