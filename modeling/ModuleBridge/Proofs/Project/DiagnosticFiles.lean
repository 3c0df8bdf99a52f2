import ModuleBridge.Project.Batch
import ModuleBridge.Proofs.Emit.History

/-!
# Files that diagnostics name

Every diagnostic of a batch names a file. Where a text cannot be read, that is the file of the text.
A note on a source that requires an origin names the path of the module instead, which is the name
of the file only for some folders and names.
-/

namespace ModuleBridge

open List

variable {sources : List Quoted} {d : Diagnostic} {m : Module} {fault : Fault}

theorem exists_mem_firstNamed {q : Quoted} (h : q ∈ sources) :
    ∃ p ∈ firstNamed sources, p.value = q.value := by
  have hfound : (sources.find? (·.value == q.value)).isSome = true :=
    find?_isSome.mpr ⟨q, h, beq_self_eq_true _⟩
  obtain ⟨p, hp⟩ := Option.isSome_iff_exists.mp hfound
  obtain ⟨hvalue, front, back, hsources, hfront⟩ := find?_eq_some_iff_append.mp hp
  rw [beq_iff_eq] at hvalue
  refine ⟨p, mem_freshAfter.mpr ⟨front, back, hsources, fun other hother heq => ?_⟩, hvalue⟩
  have hne := hfront other hother
  simp [heq, hvalue] at hne

theorem originNotes_firstNamed_eq_nil {path : Option String} :
    originNotes path (firstNamed sources) = [] ↔
      ∀ q ∈ sources, Specifier.requiresOrigin q.value path = false := by
  rw [originNotes, map_eq_nil_iff, filter_eq_nil_iff]
  constructor
  · intro hnone q hq
    obtain ⟨p, hp, hvalue⟩ := exists_mem_firstNamed hq
    rw [← hvalue]
    exact Bool.eq_false_iff.mpr (hnone p hp)
  · intro hnone q hq
    exact Bool.eq_false_iff.mp (hnone q ((freshAfter_sublist [] sources).mem hq))

theorem file_of_mem_originNotes {path : String} (h : d ∈ originNotes (some path) sources) :
    d.file = some path := by
  obtain ⟨q, _, rfl⟩ := mem_map.mp h
  rfl

section

variable {options : Options} {text : String} {specifier path : Option String}

theorem convertModule_of_ok (h : parseModule text = .ok m) :
    (convertModule options text specifier path).isLossy = false ∧
      (convertModule options text specifier path).diagnostics =
        originNotes path (firstNamed m.sources) := by
  have hnotes : (convertStatements (settingOf options m text path) m.body).notes =
      originNotes path (firstNamed m.sources) := convertStatements_notes _ m.body
  simp [convertModule, convertStrictly, h, Converter.convert, Converter.takeNotes,
    Converter.ofOptions, hnotes]

theorem convertModule_of_error (h : parseModule text = .error fault) :
    (convertModule options text specifier path).isLossy = true ∧
      ∀ d ∈ (convertModule options text specifier path).diagnostics,
        d.file = some (moduleName specifier path) := by
  simp [convertModule, convertStrictly, h, Fault.toDiagnostic, lossyWarning]

end

/-! ## Diagnostics of a batch -/

namespace Batch

variable {b : Batch} {source : SourceFile}

theorem modulePath_eq_name {name : String} (hroot : b.rootFolder = none) (hbase : b.baseUrl = none)
    (hname : '\\' ∉ name.toList) : b.modulePath name = name := by
  have hslashes : Path.withSlashes name.toList = name.toList := by
    refine (map_congr_left fun c hc => ?_).trans (map_id name.toList)
    refine if_neg fun heq => hname ?_
    rwa [← beq_iff_eq.mp heq]
  simp only [modulePath, relativePath, hroot, hbase, Path.slashes, Option.bind_none,
    Option.getD_none, hslashes, String.ofList_toList]

theorem convertSource_of_error (h : parseModule source.text = .error fault) :
    (b.convertSource source).output.isLossy = true ∧
      ∀ d ∈ (b.convertSource source).output.diagnostics, d.file = some source.name :=
  convertModule_of_error h

theorem convertSource_of_ok (h : parseModule source.text = .ok m) :
    (b.convertSource source).output.isLossy = false ∧
      (b.convertSource source).output.diagnostics =
        originNotes (some (b.modulePath source.name)) (firstNamed m.sources) :=
  convertModule_of_ok h

/-- Each diagnostic names the file, or the path of the module where its text could be read. -/
theorem file_of_mem_diagnostics (h : d ∈ (b.convertSource source).output.diagnostics) :
    d.file = some (if (b.convertSource source).output.isLossy then source.name
      else b.modulePath source.name) := by
  cases hread : parseModule source.text with
  | error fault =>
    obtain ⟨hlossy, hfile⟩ := convertSource_of_error (b := b) hread
    rw [hlossy]
    exact hfile d h
  | ok m =>
    obtain ⟨hlossy, hnotes⟩ := convertSource_of_ok (b := b) hread
    rw [hnotes] at h
    rw [hlossy]
    exact file_of_mem_originNotes h

/-- When all diagnostics name the file. -/
theorem diagnostics_name_file_iff :
    (∀ d ∈ (b.convertSource source).output.diagnostics, d.file = some source.name) ↔
      b.modulePath source.name = source.name ∨ ∀ m, parseModule source.text = .ok m →
        ∀ q ∈ m.sources,
          Specifier.requiresOrigin q.value (some (b.modulePath source.name)) = false := by
  cases hread : parseModule source.text with
  | error fault =>
    -- There is no module whose sources could require an origin, so both sides hold.
    refine ⟨fun _ => .inr fun m hm => ?_, fun _ => (convertSource_of_error hread).2⟩
    cases hm
  | ok m =>
    have hnotes := (convertSource_of_ok (b := b) hread).2
    constructor
    · intro hfile
      by_cases hnone : (b.convertSource source).output.diagnostics = []
      · right
        intro other hother
        cases hother
        exact originNotes_firstNamed_eq_nil.mp (hnotes.symm.trans hnone)
      · left
        obtain ⟨d, hd⟩ := exists_mem_of_ne_nil _ hnone
        have hname := hfile d hd
        rw [hnotes] at hd
        exact Option.some.inj ((file_of_mem_originNotes hd).symm.trans hname)
    · rintro (hpath | hnone) d hd
      · rw [hnotes] at hd
        rw [file_of_mem_originNotes hd, hpath]
      · rw [hnotes, originNotes_firstNamed_eq_nil.mpr (hnone m rfl)] at hd
        cases hd

/-- The diagnostics of a module that could not be read name its file, all others the path of the
module. So every diagnostic names the file exactly if the path of the module is its name or no
source of the module requires an origin; and always if the batch has no folder to start from and the
name no backslash. -/
theorem convert_diagnostics_files {r : BatchResult} (h : r ∈ b.convert) :
    ∃ source ∈ b.sources, r.fileName = source.name ∧ r.modulePath = b.modulePath source.name ∧
      (∀ d ∈ r.output.diagnostics,
        d.file = some (if r.output.isLossy then r.fileName else r.modulePath)) ∧
      ((∀ d ∈ r.output.diagnostics, d.file = some r.fileName) ↔
        r.modulePath = r.fileName ∨ ∀ m, parseModule source.text = .ok m →
          ∀ q ∈ m.sources, Specifier.requiresOrigin q.value (some r.modulePath) = false) ∧
      (b.rootFolder = none → b.baseUrl = none → '\\' ∉ r.fileName.toList →
        ∀ d ∈ r.output.diagnostics, d.file = some r.fileName) := by
  obtain ⟨source, hsource, rfl⟩ := List.mem_map.mp h
  refine ⟨source, hsource, rfl, rfl, fun d hd => file_of_mem_diagnostics hd,
    diagnostics_name_file_iff, fun hroot hbase hname => ?_⟩
  exact diagnostics_name_file_iff.mpr (.inl (modulePath_eq_name hroot hbase hname))

def absoluteImport : SourceFile :=
  ⟨"/project/src/main.js", "import '/x.js';"⟩

def rooted : Batch :=
  ⟨.standard, some "/project", none, none, [absoluteImport]⟩

theorem rooted_diagnostics_files :
    rooted.convertSource absoluteImport ∈ rooted.convert ∧
      rooted.modulePath absoluteImport.name = "src/main.js" ∧
      ¬∀ d ∈ (rooted.convertSource absoluteImport).output.diagnostics,
        d.file = some absoluteImport.name := by
  have hmem : rooted.convertSource absoluteImport ∈ rooted.convert :=
    mem_map_of_mem mem_cons_self
  have hpath : rooted.modulePath absoluteImport.name = "src/main.js" := by decide +kernel
  have hsources : ((parseModule absoluteImport.text).toOption.any fun m =>
      m.sources.any fun q => Specifier.requiresOrigin q.value (some "src/main.js")) = true := by
    decide +kernel
  obtain ⟨source, hsource, _, _, _, hiff, _⟩ := convert_diagnostics_files hmem
  obtain rfl := mem_singleton.mp hsource
  refine ⟨hmem, hpath, fun hfile => ?_⟩
  rcases hiff.mp hfile with hsame | hnone
  · have hne : rooted.modulePath absoluteImport.name ≠ absoluteImport.name := by
      rw [hpath]
      decide
    exact hne hsame
  · cases hread : parseModule absoluteImport.text with
    | error fault =>
      rw [hread] at hsources
      cases hsources
    | ok m =>
      rw [hread] at hsources
      obtain ⟨q, hq, horigin⟩ := any_eq_true.mp hsources
      have hfalse : Specifier.requiresOrigin q.value
          (some (rooted.modulePath absoluteImport.name)) = false := hnone m hread q hq
      rw [hpath, horigin] at hfalse
      cases hfalse

end Batch

end ModuleBridge
