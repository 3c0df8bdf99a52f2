import ModuleBridge.Proofs.Disk.Writing
import ModuleBridge.Proofs.Path.Canonical

/-!
# Output paths

The output of a module goes to a path below the output folder whose names are plain: none of them is
empty, a point or leads back. Different such paths lead to different places. Main statement:
`outputPath_below`.
-/

namespace ModuleBridge

open DiskPath FileTree List ModuleBridge.Path

namespace Path

theorem withoutExtension_append (path : String) :
    ∃ extension, path.toList = (withoutExtension path).toList ++ extension ∧ '/' ∉ extension := by
  unfold withoutExtension
  dsimp only
  split
  · rename_i hshort
    generalize (List.takeWhile (· != '.') _).length + 1 = k at hshort ⊢
    refine ⟨(path.toList.reverse.take k).reverse, ?_, fun hmem => ?_⟩
    · rw [String.toList_ofList, ← reverse_append, take_append_drop, reverse_reverse]
    · rw [mem_reverse, ← takeWhile_append_dropWhile (p := fun c => c != '/' && c != '\\')
        (l := path.toList.reverse), take_append_of_le_length (Nat.le_of_lt hshort)] at hmem
      exact absurd (mem_takeWhile_imp (mem_of_mem_take hmem)) (by decide)
  · exact ⟨[], (append_nil _).symm, not_mem_nil⟩

theorem parts_changeExtension (path : String) : ∃ inner old stem,
    parts path.toList = inner ++ [old] ∧
      parts (changeExtension path ".js").toList = inner ++ [stem ++ ['.', 'j', 's']] := by
  obtain ⟨extension, hpath, hclean⟩ := withoutExtension_append path
  obtain ⟨inner, stem, hparts⟩ :=
    exists_splitAtAll_append (· == '/') (withoutExtension path).toList
  refine ⟨inner, stem ++ extension, stem, ?_, ?_⟩
  · rw [parts, hpath]
    refine hparts extension fun c hc => beq_eq_false_iff_ne.mpr ?_
    rintro rfl
    exact hclean hc
  · rw [parts, changeExtension, String.toList_append]
    exact hparts ['.', 'j', 's'] (by simp)

end Path

namespace Batch

theorem outputName_plain {relative : String} {name : List Char}
    (h : name ∈ parts (outputName relative).toList) : IsPlainName name := by
  unfold outputName at h
  extract_lets names at h
  have hnames : ∀ part ∈ names, part ∈ parts (Path.normalize relative).toList ∧
      part ≠ [] ∧ part ≠ ['.', '.'] := by
    intro part hpart
    obtain ⟨hmem, hleads⟩ := mem_filter.mp hpart
    exact ⟨hmem, by simpa using hleads⟩
  obtain ⟨inner, old, stem, hold, hnew⟩ :=
    parts_changeExtension (String.ofList (joinSegments names))
  rw [hnew] at h
  rcases mem_append.mp h with hinner | hlast
  · have hpos := length_pos_of_mem hinner
    have hlong : ∀ parts : List (List Char), parts = inner ++ [old] → parts.length ≠ 1 := by
      rintro _ rfl
      rw [length_append, length_singleton]
      omega
    have hne : names ≠ [] := fun hnil => by
      rw [hnil] at hold
      exact hlong _ hold rfl
    rw [String.toList_ofList, parts_joinSegments
      (fun part hpart => slash_not_mem_of_mem_parts (hnames part hpart).1) hne] at hold
    obtain ⟨hmem, hempty, hback⟩ := hnames name (hold ▸ mem_append_left _ hinner)
    refine ⟨hempty, ?_, hback⟩
    rintro rfl
    have htext := toList_normalize relative
    have hpoint : (Path.normalize relative).toList = ['.'] := by
      rw [htext] at hmem ⊢
      exact Path.Target.points_text _ hmem
    refine hlong names hold ?_
    have hone : names = [['.']] := by
      change List.filter _ (parts (Path.normalize relative).toList) = _
      rw [hpoint]
      rfl
    rw [hone, length_singleton]
  · rw [mem_singleton.mp hlast]
    have hlength : 3 ≤ (stem ++ ['.', 'j', 's']).length := by simp
    refine ⟨?_, ?_, ?_⟩ <;> intro heq <;> simp [heq] at hlength

theorem outputName_not_rooted (relative : String) :
    isRooted (outputName relative) = false := by
  rw [← String.ofList_toList (s := outputName relative), isRooted_ofList,
    beq_eq_false_iff_ne]
  intro hslash
  obtain ⟨rest, hpath⟩ := head?_eq_some_iff.mp hslash
  have hempty : [] ∈ parts (outputName relative).toList := by
    rw [hpath]
    exact mem_cons_self
  exact (outputName_plain hempty).1 rfl

theorem names_outputName (relative : String) :
    names (outputName relative).toList = parts (outputName relative).toList := by
  refine filter_eq_self.mpr fun name hname => ?_
  obtain ⟨hempty, hpoint, _⟩ := outputName_plain hname
  simp [hempty, hpoint]

end Batch

theorem FileTree.foldl_enter_plain {names : List (List Char)}
    (h : ∀ name ∈ names, IsPlainName name) (place : Location) :
    (names.map String.ofList).foldl enter place = place ++ names.map String.ofList := by
  induction names generalizing place with
  | nil => exact (append_nil _).symm
  | cons name names ih =>
    obtain ⟨⟨hempty, hpoint, hback⟩, hrest⟩ := forall_mem_cons.mp h
    have henter : enter place (String.ofList name) = place ++ [String.ofList name] := by
      simp [enter, ← String.toList_inj, hempty, hpoint, hback]
    rw [map_cons, foldl_cons, henter, ih hrest, append_assoc, singleton_append]

namespace Batch

theorem startOf_output (t : FileTree) (folder relative : String) :
    (t.startOf (join folder (outputName relative))).1 = (t.startOf folder).1 := by
  rw [startOf, startOf, isRooted_join (outputName_not_rooted relative)]

/-- The place of an output: that of the output folder and then the names of the output. -/
theorem placeOf_output (t : FileTree) (folder relative : String) :
    t.placeOf (join folder (outputName relative)) =
      t.placeOf folder ++ (parts (outputName relative).toList).map String.ofList := by
  have hnames := names_join (outputName_not_rooted relative) folder
  rw [placeOf, filter_leads_wayOf, hnames, names_outputName, map_append,
    foldl_append, startOf_output, ← filter_leads_wayOf, ← placeOf,
    FileTree.foldl_enter_plain fun name hname => outputName_plain hname]

/-- Below one folder, outputs that go to one place have one path. -/
theorem outputName_inj {t : FileTree} {folder relative other : String}
    (h : t.placeOf (join folder (outputName relative)) =
      t.placeOf (join folder (outputName other))) :
    outputName relative = outputName other := by
  rw [placeOf_output, placeOf_output, append_cancel_left_eq] at h
  have hparts := map_injective_iff.mpr (fun _ _ => String.ofList_inj.mp) h
  rw [← String.toList_inj, ← joinSegments_parts (outputName relative).toList, hparts,
    joinSegments_parts]

/-- The output of every file goes below the output folder: no name on its path is empty or a point
or leads back, the last one ends in `.js`, and following them enters one folder after the other. -/
theorem outputPath_below (b : Batch) (file : String) :
    ∃ relative, b.outputPath? file = b.outFolder.map (DiskPath.join · relative) ∧
      relative ≠ "" ∧ DiskPath.isRooted relative = false ∧
      (∀ name ∈ Path.parts relative.toList, Path.IsPlainName name) ∧
      (∃ inner stem, Path.parts relative.toList = inner ++ [stem ++ ['.', 'j', 's']]) ∧
      ∀ (t : FileTree) (folder : String),
        t.placeOf (DiskPath.join folder relative) =
            t.placeOf folder ++ (Path.parts relative.toList).map String.ofList ∧
          ∀ n, (((Path.parts relative.toList).take n).map String.ofList).foldl FileTree.enter
              (t.placeOf folder) =
            t.placeOf folder ++ ((Path.parts relative.toList).take n).map String.ofList := by
  have hplain := fun name => @outputName_plain (b.relativePath file) name
  refine ⟨outputName (b.relativePath file), rfl, ?_, outputName_not_rooted _, hplain, ?_, ?_⟩
  · intro hempty
    exact (hplain [] (by rw [hempty]; exact List.mem_cons_self)).1 rfl
  · unfold outputName
    obtain ⟨inner, _, stem, _, hparts⟩ := Path.parts_changeExtension _
    exact ⟨inner, stem, hparts⟩
  · intro t folder
    refine ⟨placeOf_output t folder _, fun n => ?_⟩
    exact FileTree.foldl_enter_plain (fun name hname => hplain name (List.mem_of_mem_take hname)) _

end Batch

end ModuleBridge
