import ModuleBridge.Proofs.Emit.Quoting
import ModuleBridge.Proofs.Grammar.PatternReading
import ModuleBridge.Proofs.Grammar.RequireLines
import ModuleBridge.Proofs.Grammar.WholeNames
import ModuleBridge.Proofs.Lossy.Agreement

/-!
# Bindings of converted imports

An import that was read is converted into lines that can be read again: declarations of constants
that bind the local names of the import, in its order. Renamings may be spelled out or not. The
argument follows the text: what can be read as an import has identifiers for its names and a raw
value between its quotes, so its lines are well-formed, and well-formed lines are read back.
-/

namespace ModuleBridge

open ImportBinding List

/-! ## Imports that were read -/

def ImportBinding.localName : ImportBinding → Name
  | default localName => localName
  | «namespace» localName => localName
  | named _ localName => localName

def PlainBinding.localName : PlainBinding → String
  | default localName => localName
  | «namespace» localName => localName
  | named _ localName => localName

theorem ImportBinding.localName_plain (b : ImportBinding) :
    b.plain.localName = b.localName.text := by
  cases b <;> rfl

def Quoted.IsRaw (source : Quoted) : Prop :=
  ∃ mark, ∃ items : List (StringItem mark), source.value.toList = items.flatMap StringItem.chars

/-- The names of an import are those of a clause, and its source stood between quotes. -/
def Statement.ImportsClause : Statement → Prop
  | .importFrom bindings source _ =>
    (∃ clause : ImportClause, bindings.map plain = clause.plain) ∧ source.IsRaw
  | _ => True

namespace Scan

variable {text : String}

theorem name_identifies : Ensures text (fun n _ => ∃ i : Identifier, n.text = i.text) name := by
  intro c n d hc hrun
  obtain ⟨i, -, htext⟩ := name_passes hc.2 hrun
  exact ⟨(name_onward hrun).isIn hc, i, htext⟩

theorem quoted_isRaw : Ensures text (fun q _ => q.IsRaw) quoted := by
  intro c q d hc hrun
  obtain ⟨mark, items, -, hvalue⟩ := quoted_passes hc.2 hrun
  exact ⟨(quoted_onward hrun).isIn hc, mark, items, hvalue⟩

theorem fromClause_isRaw : Ensures text (fun q _ => q.IsRaw) fromClause :=
  .after fun _ => .after fun _ => quoted_isRaw

theorem namePairs_entries (fuel : Nat) :
    Ensures text (fun pairs _ => ∃ entries : List Entry, pairNames pairs = entries.map Entry.names)
      (namePairs fuel) := by
  induction fuel with
  | zero => exact .failHere _ _
  | succ fuel ih =>
    rw [namePairs_succ]
    refine .after fun _ => .after fun _ => .ite (.pure fun _ =>
      ⟨[], rfl⟩) (.bind name_identifies ?_)
    rintro first ⟨i, hfirst⟩
    have hsecond : Ensures text (fun n _ => ∃ i : Identifier, n.text = i.text) (secondName first) :=
      .after fun _ => .ite (.after fun _ => name_identifies)
        (.pure fun _ => ⟨i, hfirst⟩)
    refine .after fun _ => .bind hsecond ?_
    rintro second ⟨renamed, hsecond⟩
    have hentry : (first.text, second.text) = Entry.names ⟨i, some renamed⟩ := by
      rw [hfirst, hsecond]
      rfl
    refine .after fun _ => .after fun _ => .ite (.bind ih ?_) ?_
    · rintro rest ⟨entries, hrest⟩
      exact .pure fun _ => ⟨⟨i, some renamed⟩ :: entries, congrArg₂ List.cons hentry hrest⟩
    · exact .after fun _ => .pure fun _ => ⟨[⟨i, some renamed⟩], congrArg ([·]) hentry⟩

theorem importBindings_clause :
    Ensures text (fun all _ => ∃ more : Bindings, all.map plain = more.plain)
      importBindings := by
  rw [importBindings_eq]
  refine .after fun _ => .ite ?_ <| .after fun _ => .ite ?_ (.failHere _ _)
  · refine .after fun _ => .after fun _ => .after fun _ => .bind name_identifies ?_
    rintro n ⟨i, hname⟩
    refine .pure fun _ => ⟨.namespace i, ?_⟩
    rw [map_singleton, plain, hname, Bindings.plain]
  · refine .bind (.after fun _ => .after fun _ => namePairs_entries _) ?_
    rintro pairs ⟨entries, hpairs⟩
    refine .pure fun _ => ⟨.named ⟨entries, false⟩, ?_⟩
    rw [Bindings.plain, EntryList.names, ← hpairs, pairNames, map_map, map_map]
    rfl

theorem importClause_clause :
    Ensures text (fun all _ => ∃ clause : ImportClause, all.map plain = clause.plain)
      importClause := by
  refine .after fun _ => .ite (.bind name_identifies ?_) ?_
  · rintro localName ⟨i, hname⟩
    have hmore : Ensures text (fun more _ => ∃ clause : ImportClause,
        .default i.text :: more.map plain = clause.plain) moreBindings := by
      refine .after fun _ => .ite (.after fun _ => ?_)
        (.pure fun _ => ⟨.default i, rfl⟩)
      refine importBindings_clause.mono ?_
      rintro more _ ⟨bindings, hmore⟩
      exact ⟨.both i bindings, by rw [hmore, ImportClause.plain]⟩
    refine .after fun _ => .bind hmore fun more hmore => .pure fun _ => ?_
    rwa [map_cons, plain, hname]
  · refine importBindings_clause.mono ?_
    rintro all _ ⟨more, hmore⟩
    exact ⟨.bindings more, hmore⟩

theorem importStatement_clause :
    Ensures text (fun s _ => s.ImportsClause) importStatement := by
  rw [importStatement_eq]
  refine .after fun _ => .after fun _ => .after fun _ => .after fun _ => .ite ?_ ?_
  · exact .bind quoted_isRaw fun source hsource => .after fun _ => .after fun _ => .pure fun _ =>
        ⟨⟨.bindings (.named ⟨[], false⟩), rfl⟩, hsource⟩
  · exact .bind importClause_clause fun bindings hbindings => .after fun _ =>
      .bind fromClause_isRaw fun q hq => .after fun _ => .after fun _ => .pure fun _ =>
        ⟨hbindings, hq⟩

theorem topLevelStatement_clause {c d : Cursor} {s : Statement} (hc : c.IsIn text)
    (h : topLevelStatement c = .ok s d) : s.ImportsClause := by
  cases topLevelStatement_run h with
  | importing hread => exact (importStatement_clause hc hread).2
  | exporting hread => cases exportStatement_run hread <;> trivial
  | declaration => trivial
  | verbatim => trivial

end Scan

/-! ## The lines of a clause -/

namespace Entry

def property (explicit : Bool) (e : Entry) : Property :=
  if e.names.1 = e.names.2 && !explicit then .shorthand (e.rename.getD e.name) none
  else .keyed (.name e.name) .none .blank (.name (e.rename.getD e.name)) none

def properties (explicit : Bool) : Entry → List Entry → PropertyList
  | e, [] => .last .blank (e.property explicit) .blank
  | e, next :: rest => .more .blank (e.property explicit) .none (properties explicit next rest)

variable (explicit : Bool)

theorem property_text (e : Entry) :
    (e.property explicit).text = importEntry explicit e.names.1 e.names.2 := by
  rw [property, importEntry]
  split
  · rw [Property.text, valueText, Option.elim_none, String.append_empty]
    rfl
  · simp [Property.text, PropertyKey.text, BindingPattern.text, valueText, Spacing.none,
      Spacing.blank, names, String.append_assoc]
    rw [← String.append_assoc]
    rfl

theorem property_spec (e : Entry) :
    (e.property explicit).names = [e.names.2] ∧ (e.property explicit).reads = true ∧
      ∀ c, (e.property explicit).Fits c := by
  rw [property]
  split
  · exact ⟨rfl, rfl, fun _ v hv => by cases hv⟩
  · exact ⟨rfl, rfl, fun _ => ⟨trivial, trivial, fun v hv => by cases hv⟩⟩

theorem properties_text (first : Entry) (rest : List Entry) :
    (first.properties explicit rest).text = " " ++ (", ".intercalate ((first :: rest).map
      fun e => importEntry explicit e.names.1 e.names.2) ++ " \x7d") := by
  induction rest generalizing first with
  | nil =>
    rw [properties, PropertyList.text, property_text, map_singleton,
      String.intercalate_singleton]
    rfl
  | cons next rest ih =>
    have hcomma : ", " = "," ++ " " := by decide
    rw [properties, PropertyList.text, property_text, ih]
    simp only [map_cons, String.intercalate_cons_cons, hcomma, String.append_assoc,
      Spacing.none, String.empty_append]
    rfl

theorem properties_spec (first : Entry) (rest : List Entry) :
    (first.properties explicit rest).names = (first :: rest).map (·.names.2) ∧
      (first.properties explicit rest).reads = true ∧
      ∀ c, (first.properties explicit rest).Fits c := by
  induction rest generalizing first with
  | nil =>
    obtain ⟨hnames, hreads, hfits⟩ := first.property_spec explicit
    exact ⟨hnames, hreads, fun _ => hfits _⟩
  | cons next rest ih =>
    obtain ⟨hnames, hreads, hfits⟩ := first.property_spec explicit
    obtain ⟨hall, hrest, hmore⟩ := ih next
    refine ⟨?_, ?_, fun c => ⟨hfits _, hmore _⟩⟩
    · rw [properties, PropertyList.names, hnames, hall]
      rfl
    · rw [properties, PropertyList.reads, hreads, hrest, Bool.and_self]

end Entry

section Lines

variable (explicit : Bool) {mark : QuoteMark} (source : List (StringItem mark))

def nameLine (isDefault : Bool) (n : Identifier) : RequireLine :=
  ⟨.name n, mark, source, isDefault, rfl, fun _ => trivial⟩

def entriesLine (first : Entry) (rest : List Entry) : RequireLine :=
  ⟨.object (first.properties explicit rest), mark, source, false,
    (first.properties_spec explicit rest).2.1, fun _ => (first.properties_spec explicit rest).2.2 _⟩

def Bindings.lines : Bindings → List RequireLine
  | «namespace» localName => [nameLine source false localName]
  | named ⟨[], _⟩ => []
  | named ⟨first :: rest, _⟩ => [entriesLine explicit source first rest]

def ImportClause.lines : ImportClause → List RequireLine
  | default localName => [nameLine source true localName]
  | bindings more => more.lines explicit source
  | both localName more => nameLine source true localName :: more.lines explicit source

theorem Bindings.flatMap_lines (more : Bindings) :
    (more.lines explicit source).flatMap (·.target.names) =
      more.plain.map PlainBinding.localName := by
  cases more with
  | «namespace» localName => rfl
  | named list =>
    obtain ⟨entries, trailing⟩ := list
    cases entries with
    | nil => rfl
    | cons first rest =>
      have hnames := (first.properties_spec explicit rest).1
      rw [lines, flatMap_singleton, plain, EntryList.names, map_map, map_map]
      exact hnames

theorem ImportClause.flatMap_lines (clause : ImportClause) :
    (clause.lines explicit source).flatMap (·.target.names) =
      clause.plain.map PlainBinding.localName := by
  cases clause with
  | default localName => rfl
  | bindings more => exact more.flatMap_lines explicit source
  | both localName more =>
    rw [lines, flatMap_cons, more.flatMap_lines, plain, map_cons]
    rfl

theorem nameLine_text (isDefault : Bool) (n : Identifier) :
    (nameLine source isDefault n).text = OutputLine.render
      (if isDefault then .requireDefault n.text (stringText mark source)
        else .requireNamespace n.text (stringText mark source)) := by
  rw [RequireLine.text_eq]
  cases isDefault with
  | true => rfl
  | false => rfl

theorem entriesLine_text (first : Entry) (rest : List Entry) :
    (entriesLine explicit source first rest).text = OutputLine.render (.requireNamed
      ((first :: rest).map fun e => importEntry explicit e.names.1 e.names.2)
      (stringText mark source)) := by
  rw [RequireLine.text_eq]
  change "const " ++ ("\x7b" ++ (first.properties explicit rest).text) ++ " = require(" ++
    stringText mark source ++ ");" = "const \x7b " ++ ", ".intercalate _ ++ " \x7d = require(" ++
      stringText mark source ++ ");"
  rw [first.properties_text explicit rest]
  generalize ", ".intercalate _ = entries
  generalize stringText mark source = quoted
  refine String.toList_inj.mp ?_
  simp

/-- The output lines of bindings: those of single bindings, then one for all that are named. -/
def plainLines (options : Options) (source : String) (plain : List PlainBinding) :
    List OutputLine :=
  plain.filterMap (PlainBinding.line? source) ++
    if (plain.filterMap (PlainBinding.entry? options)).isEmpty then []
    else [.requireNamed (plain.filterMap (PlainBinding.entry? options)) source]

theorem Bindings.render_plainLines (options : Options) (more : Bindings) :
    (plainLines options (stringText mark source) more.plain).map OutputLine.render =
      (more.lines options.explicitImportRenames source).map RequireLine.text := by
  cases more with
  | «namespace» localName => exact congrArg ([·]) (nameLine_text source false localName).symm
  | named list =>
    obtain ⟨entries, trailing⟩ := list
    cases entries with
    | nil => rfl
    | cons first rest =>
      have hlines : (named ⟨first :: rest, trailing⟩).plain.filterMap
          (PlainBinding.line? (stringText mark source)) = [] := by
        rw [plain, filterMap_map]
        exact filterMap_eq_nil_iff.mpr fun _ _ => rfl
      have hentries : (named ⟨first :: rest, trailing⟩).plain.filterMap
          (PlainBinding.entry? options) = (first :: rest).map fun e =>
            importEntry options.explicitImportRenames e.names.1 e.names.2 := by
        rw [plain, EntryList.names, map_map, filterMap_map, ← filterMap_eq_map]
        rfl
      rw [plainLines, hlines, hentries]
      exact congrArg ([·])
        (entriesLine_text options.explicitImportRenames source first rest).symm

theorem render_importLines {options : Options} {bindings : List ImportBinding}
    {clause : ImportClause}
    (hclause : bindings.map plain = clause.plain) (hne : bindings ≠ []) :
    (importLines options bindings (stringText mark source)).map OutputLine.render =
      (clause.lines options.explicitImportRenames source).map RequireLine.text := by
  have hplain : clause.plain.isEmpty = false := by
    rw [← hclause, isEmpty_map]
    exact isEmpty_eq_false_iff.mpr hne
  rw [importLines_eq_plain hclause, hplain, if_neg Bool.false_ne_true]
  change (plainLines _ _ _).map _ = _
  cases clause with
  | default localName => exact congrArg ([·]) (nameLine_text source true localName).symm
  | bindings more => exact more.render_plainLines source options
  | both localName more =>
    exact congrArg₂ List.cons (nameLine_text source true localName).symm
      (more.render_plainLines source options)

end Lines

/-- The lines an import adds are read as constants, and these are the local names of the import, each
once and in their order. -/
theorem importLines_bind_locals {text : String} {m : Module} (hm : parseModule text = .ok m)
    {bindings : List ImportBinding} {source : Quoted} {range : Range}
    (hs : .importFrom bindings source range ∈ m.body) (hne : bindings ≠ []) (options : Options) :
    ∃ (lines : List OutputLine) (declared : List VariableDeclaration),
      (∀ front, (convertStatements (settingOf options m text none)
          (front ++ [.importFrom bindings source range])).sections.imports =
        (convertStatements (settingOf options m text none) front).sections.imports ++ lines) ∧
      parseModule (renderLines lines) = .ok ⟨declared.map fun d => .declaration (.variable d)⟩ ∧
      (∀ d ∈ declared, d.kind = .const) ∧
      (declared.flatMap fun d => d.names.map Name.text) =
        bindings.map fun b => b.localName.text := by
  obtain ⟨e, hrun⟩ := parseModule_eq_ok.mp hm
  obtain ⟨q, d, hq, -, hstatement⟩ := hrun.exists_read hs
  obtain ⟨⟨clause, hclause⟩, mark, items, hvalue⟩ :=
    Scan.topLevelStatement_clause (hq.isIn (Cursor.isIn_pastShebang text)) hstatement
  obtain ⟨other, literal, hquote⟩ := exists_quote_eq items hvalue
  obtain ⟨declared, hread, hkinds, hnames⟩ :=
    RequireLine.parseModule_lines (clause.lines options.explicitImportRenames literal)
  refine ⟨importLines options bindings (quote source.value), declared, fun front => ?_, ?_,
    hkinds, ?_⟩
  · have himports := convertStatements_section Sections.imports rfl (fun _ _ => rfl)
      (settingOf options m text none)
    rw [himports, himports, flatMap_append, List.flatMap_singleton]
    rfl
  · rw [renderLines, hquote, render_importLines literal hclause hne]
    exact hread
  · rw [hnames, clause.flatMap_lines, ← hclause, List.map_map]
    exact map_congr_left fun b _ => b.localName_plain

def quotedImport : Statement :=
  .importFrom [.default ⟨"d", ⟨7, 8⟩⟩, .named ⟨"a", ⟨12, 13⟩⟩ ⟨"a", ⟨12, 13⟩⟩,
    .named ⟨"b", ⟨15, 16⟩⟩ ⟨"c", ⟨20, 21⟩⟩] ⟨"it's \\\"m\\\"", ⟨29, 41⟩⟩ ⟨0, 42⟩

theorem quotedImport_binds :
    parseModule "import d, \x7b a, b as c \x7d from \"it's \\\"m\\\"\";" = .ok ⟨[quotedImport]⟩ ∧
    ∃ declared : List VariableDeclaration,
      parseModule ("const d = require('it\\'s \\\"m\\\"').default;\n" ++
        "const \x7b a: a, b: c \x7d = require('it\\'s \\\"m\\\"');") =
          .ok ⟨declared.map fun d => .declaration (.variable d)⟩ ∧
      (∀ d ∈ declared, d.kind = .const) ∧
      (declared.flatMap fun d => d.names.map Name.text) = ["d", "a", "c"] := by
  have hread : parseModule "import d, \x7b a, b as c \x7d from \"it's \\\"m\\\"\";" =
      .ok ⟨[quotedImport]⟩ := by cbv
  obtain ⟨lines, declared, hlines, hback, hkinds, hnames⟩ := importLines_bind_locals hread
    mem_cons_self (cons_ne_nil _ _) ⟨.afterDeclarations, true, true, true⟩
  have hfirst : lines = [.requireDefault "d" "'it\\'s \\\"m\\\"'",
      .requireNamed ["a: a", "b: c"] "'it\\'s \\\"m\\\"'"] := by
    refine (hlines []).symm.trans ?_
    cbv
  rw [hfirst] at hback
  exact ⟨hread, declared, hback, hkinds, hnames⟩

end ModuleBridge
