import ModuleBridge.Proofs.Disk.Writing
import ModuleBridge.Proofs.Project.OutputPaths

/-!
# Output files

Outputs are written only if no two of them go to one path. Then no other file changes, and each of
them is found at its path, in whatever order they were written, as far as different paths lead to
different places. Below one output folder they always do.
-/

namespace ModuleBridge

open DiskPath FileTree List

variable {results : List BatchResult} {o : String × String} {seen : List (List (List Char))}
  {paths : List String} {path : String} {t t' : FileTree}

/-! ## Shared paths -/

/-- What is written of a list of results: each output path with its code. -/
def outputsOf (results : List BatchResult) : List (String × String) :=
  results.filterMap fun r => r.outputPath.map fun path => (path, r.output.code)

/-- Two results of the list have the same output path. -/
def SharesPath (results : List BatchResult) : Prop :=
  ∃ r s path other, [r, s].Sublist results ∧ r.outputPath = some path ∧
    s.outputPath = some other ∧ components path = components other

theorem mem_outputsOf :
    o ∈ outputsOf results ↔ ∃ r ∈ results, r.outputPath = some o.1 ∧ r.output.code = o.2 := by
  simp [outputsOf, mem_filterMap, Prod.ext_iff]

theorem output_mem {r : BatchResult} (hr : r ∈ results) (hpath : r.outputPath = some path) :
    (path, r.output.code) ∈ outputsOf results :=
  mem_outputsOf.mpr ⟨r, hr, hpath, rfl⟩

theorem not_sharesPath_iff : ¬SharesPath results ↔
    ((outputsOf results).map fun o => components o.1).Nodup := by
  rw [List.Nodup, pairwise_map, outputsOf, pairwise_filterMap,
    pairwise_iff_forall_sublist]
  constructor
  · intro h r s hsub o ho o' ho' hsame
    obtain ⟨path, hpath, rfl⟩ := Option.map_eq_some_iff.mp ho
    obtain ⟨other, hother, rfl⟩ := Option.map_eq_some_iff.mp ho'
    exact h ⟨r, s, path, other, hsub, hpath, hother, hsame⟩
  · rintro h ⟨r, s, path, other, hsub, hpath, hother, hsame⟩
    exact h hsub _ (Option.map_eq_some_iff.mpr ⟨path, hpath, rfl⟩) _
      (Option.map_eq_some_iff.mpr ⟨other, hother, rfl⟩) hsame

theorem firstRepeated?_eq_none :
    firstRepeated? seen paths = none ↔
      (paths.map components).Nodup ∧ ∀ path ∈ paths, components path ∉ seen := by
  induction paths generalizing seen with
  | nil => simp [firstRepeated?]
  | cons path paths ih =>
    rw [firstRepeated?]
    by_cases hseen : components path ∈ seen
    · simp [hseen]
    · simp only [contains_eq_mem, hseen, decide_false, Bool.false_eq_true, if_false, ih]
      simp only [map_cons, nodup_cons, mem_map, mem_cons]
      grind

theorem mem_of_firstRepeated? (h : firstRepeated? seen paths = some path) : path ∈ paths := by
  induction paths generalizing seen with
  | nil => cases h
  | cons first paths ih =>
    rw [firstRepeated?] at h
    split at h
    · cases h
      exact mem_cons_self
    · exact mem_cons_of_mem _ (ih h)

theorem writeOutputs_of_shared (h : SharesPath results) (t : FileTree) :
    ∃ r ∈ results, ∃ path, r.outputPath = some path ∧
      writeOutputs (m := StateM FileTree) results t = (.error (.sharedTarget path), t) := by
  have hrepeated : firstRepeated? [] ((outputsOf results).map (·.1)) ≠ none := by
    rw [ne_eq, firstRepeated?_eq_none, map_map]
    exact fun ⟨hnodup, _⟩ => not_sharesPath_iff.mpr hnodup h
  obtain ⟨path, hpath⟩ := Option.ne_none_iff_exists'.mp hrepeated
  obtain ⟨o, ho, rfl⟩ := mem_map.mp (mem_of_firstRepeated? hpath)
  obtain ⟨r, hr, houtput, _⟩ := mem_outputsOf.mp ho
  refine ⟨r, hr, o.1, houtput, ?_⟩
  rw [writeOutputs, ← outputsOf, hpath]
  rfl

theorem writeOutputs_of_apart (h : ¬SharesPath results) :
    writeOutputs (m := StateM FileTree) results = writeEach (outputsOf results) := by
  have hrepeated : firstRepeated? [] ((outputsOf results).map (·.1)) = none := by
    rw [firstRepeated?_eq_none, map_map]
    exact ⟨not_sharesPath_iff.mp h, fun path _ => not_mem_nil⟩
  rw [writeOutputs, ← outputsOf, hrepeated]

theorem writeOutputs_eq_ok : writeOutputs (m := StateM FileTree) results t = (.ok (), t') ↔
      ¬SharesPath results ∧ writeEach (m := StateM FileTree) (outputsOf results) t = (.ok (), t') := by
  by_cases hshared : SharesPath results
  · obtain ⟨_, _, path, _, herror⟩ := writeOutputs_of_shared hshared t
    refine iff_of_false (fun hok => ?_) fun ⟨hapart, _⟩ => hapart hshared
    cases herror.symm.trans hok
  · rw [writeOutputs_of_apart hshared, and_iff_right hshared]

section

variable {results order : List BatchResult} {t t' t'' : FileTree}

theorem outputsOf_perm (h : order.Perm results) : (outputsOf order).Perm (outputsOf results) :=
  h.filterMap _

theorem sharesPath_perm (h : order.Perm results) : SharesPath order ↔ SharesPath results := by
  rw [← not_iff_not, not_sharesPath_iff, not_sharesPath_iff]
  exact ((outputsOf_perm h).map _).nodup_iff

/-- Where an output path starts, there is a folder. -/
def StartInFolders (results : List BatchResult) (t : FileTree) : Prop :=
  ∀ r ∈ results, ∀ path, r.outputPath = some path → t.isFolderAt (t.startOf path).1 = true

/-- What can be written in one order can be written in every order, with the same folders. -/
theorem exists_writeOutputs_perm (hperm : order.Perm results) (hstart : StartInFolders results t)
    (h : writeOutputs (m := StateM FileTree) results t = (.ok (), t')) :
    ∃ t'', writeOutputs (m := StateM FileTree) order t = (.ok (), t'') ∧
      ∀ place, t''.isFolderAt place = t'.isFolderAt place := by
  obtain ⟨hapart, hrun⟩ := writeOutputs_eq_ok.mp h
  have hstarts : ∀ o ∈ outputsOf results, t.isFolderAt (t.startOf o.1).1 = true := by
    intro o ho
    obtain ⟨r, hr, hpath, _⟩ := mem_outputsOf.mp ho
    exact hstart r hr _ hpath
  have hfit := fitTogether_of_writeEach hstarts hrun
  obtain ⟨t'', hrun'⟩ := exists_writeEach (hfit.perm (outputsOf_perm hperm))
  have hapart' : ¬SharesPath order := mt (sharesPath_perm hperm).mp hapart
  refine ⟨t'', writeOutputs_eq_ok.mpr ⟨hapart', hrun'⟩, fun place => ?_⟩
  have hholds := holdsAll_of_writeEach hrun
  have hholds' := holdsAll_of_writeEach hrun'
  rw [Bool.eq_iff_iff, hholds.isFolderAt, hholds'.isFolderAt]
  simp only [(outputsOf_perm hperm).mem_iff]

/-! ## Paths that lead to different places -/

/-- Different output paths lead to different places in a tree. -/
def LeadApart (results : List BatchResult) (t : FileTree) : Prop :=
  ∀ r ∈ results, ∀ s ∈ results, ∀ path other, r.outputPath = some path →
    s.outputPath = some other → t.locate path = t.locate other → components path = components other

theorem leadApart_iff (hholds : t.HoldsAll (outputsOf results) t') :
    LeadApart results t' ↔ ∀ o ∈ outputsOf results, ∀ o' ∈ outputsOf results,
      t.placeOf o.1 = t.placeOf o'.1 → components o.1 = components o'.1 := by
  constructor
  · intro h o ho o' ho' hplace
    obtain ⟨r, hr, hpath, _⟩ := mem_outputsOf.mp ho
    obtain ⟨s, hs, hother, _⟩ := mem_outputsOf.mp ho'
    refine h r hr s hs _ _ hpath hother ?_
    rw [hholds.located o ho, hholds.located o' ho', hplace]
  · intro h r hr s hs path other hpath hother hsame
    have ho := output_mem hr hpath
    have ho' := output_mem hs hother
    rw [hholds.located _ ho, hholds.located _ ho'] at hsame
    exact h (path, _) ho (other, _) ho' (Except.ok.inj hsame)

/-- An output that shares its place with no other is found there. -/
theorem content?_of_leadApart (hapart : ¬SharesPath results) (hlead : LeadApart results t')
    (hholds : t.HoldsAll (outputsOf results) t') (ho : o ∈ outputsOf results) :
    t'.content? (t.placeOf o.1) = some o.2.toUTF8 := by
  obtain ⟨o', ho', hplace, hcontent⟩ := hholds.written o ho
  have hpath := (leadApart_iff hholds).mp hlead o' ho' o ho hplace
  rwa [inj_on_of_nodup_map (not_sharesPath_iff.mp hapart) ho' ho hpath] at hcontent

/-- Whatever order outputs at different places are written in, all files are the same afterwards. -/
theorem content?_eq_of_perm (hapart : ¬SharesPath results) (hlead : LeadApart results t')
    (hperm : order.Perm results) (hholds : t.HoldsAll (outputsOf results) t')
    (hholds' : t.HoldsAll (outputsOf order) t'') (place : Location) :
    t''.content? place = t'.content? place := by
  have hsame := fun o => (outputsOf_perm hperm).mem_iff (a := o)
  by_cases hplace : ∃ o ∈ outputsOf results, place = t.placeOf o.1
  · obtain ⟨o, ho, rfl⟩ := hplace
    have hlead' : LeadApart order t'' := (leadApart_iff hholds').mpr fun o ho o' ho' =>
      (leadApart_iff hholds).mp hlead o ((hsame o).mp ho) o' ((hsame o').mp ho')
    rw [content?_of_leadApart hapart hlead hholds ho, content?_of_leadApart
      (mt (sharesPath_perm hperm).mp hapart) hlead' hholds' ((hsame o).mpr ho)]
  · have hnone : ∀ o ∈ outputsOf results, place ≠ t.placeOf o.1 :=
      fun o ho heq => hplace ⟨o, ho, heq⟩
    rw [hholds.kept place hnone, hholds'.kept place fun o ho => hnone o ((hsame o).mp ho)]

/-! ## Outputs of a batch -/

variable {b : Batch}

/-- Every result goes where the batch puts the output of its file. -/
def Batch.Places (b : Batch) (results : List BatchResult) : Prop :=
  ∀ r ∈ results, r.outputPath = b.outputPath? r.fileName

section

variable (h : b.Places results)

include h

theorem Batch.Places.exists_join (ho : o ∈ outputsOf results) :
    ∃ folder, b.outFolder = some folder ∧
      ∃ relative, o.1 = join folder (Batch.outputName relative) := by
  obtain ⟨r, hr, hpath, _⟩ := mem_outputsOf.mp ho
  rw [h r hr, Batch.outputPath?, Option.map_eq_some_iff] at hpath
  obtain ⟨folder, hfolder, hjoin⟩ := hpath
  exact ⟨folder, hfolder, _, hjoin.symm⟩

theorem Batch.Places.leadApart (hholds : t.HoldsAll (outputsOf results) t') :
    LeadApart results t' := by
  refine (leadApart_iff hholds).mpr fun o ho o' ho' hplace => ?_
  obtain ⟨folder, hfolder, relative, hpath⟩ := h.exists_join ho
  obtain ⟨folder', hfolder', other, hpath'⟩ := h.exists_join ho'
  cases hfolder.symm.trans hfolder'
  rw [hpath, hpath'] at hplace ⊢
  rw [Batch.outputName_inj hplace]

/-- The first output starts in a folder, and all others start there too. -/
theorem Batch.Places.startInFolders
    (hrun : writeEach (m := StateM FileTree) (outputsOf results) t = (.ok (), t')) :
    StartInFolders results t := by
  intro r hr path hpath
  have ho := output_mem hr hpath
  cases houtputs : outputsOf results with
  | nil =>
    rw [houtputs] at ho
    cases ho
  | cons first rest =>
    have hfirst : first ∈ outputsOf results := houtputs ▸ mem_cons_self
    rw [houtputs] at hrun
    obtain ⟨next, hone, _⟩ := writeEach_cons.mp hrun
    have hfolder := (fits_of_writeOutput hone).1.fromFolder
    obtain ⟨folder, hout, relative, hpath⟩ := h.exists_join hfirst
    obtain ⟨folder', hout', other, hpath'⟩ := h.exists_join ho
    cases hout.symm.trans hout'
    rw [hpath, Batch.startOf_output] at hfolder
    dsimp only at hpath'
    rwa [hpath', Batch.startOf_output]

end

end

/-! ## Files before and after -/

/-- How a tree `t'` with the outputs of `results` differs from the tree `t` before. -/
structure Wrote (results : List BatchResult) (t t' : FileTree) : Prop where
  keepsFolders : ∀ place, t.isFolderAt place = true → t'.isFolderAt place = true
  keepsFiles : ∀ place,
    (∀ r ∈ results, ∀ path, r.outputPath = some path → t'.locate path ≠ .ok place) →
      t'.content? place = t.content? place
  /-- Where an output path leads, the code of a result is found whose path leads there. -/
  holdsCode : ∀ r ∈ results, ∀ path, r.outputPath = some path →
    ∃ s ∈ results, ∃ other, s.outputPath = some other ∧ t'.locate other = t'.locate path ∧
      t'.read path = .ok s.output.code.toUTF8

theorem FileTree.read_of_locate {place : Location} {content : ByteArray}
    (hplace : t.locate path = .ok place) (hcontent : t.content? place = some content) :
    t.read path = .ok content := by
  rw [read, hplace]
  dsimp only
  rw [hcontent]

theorem FileTree.HoldsAll.wrote (h : t.HoldsAll (outputsOf results) t') : Wrote results t t' := by
  refine ⟨fun place hplace => (h.isFolderAt place).mpr (.inl hplace), ?_, ?_⟩
  · intro place hother
    refine h.kept place fun o ho hplace => ?_
    obtain ⟨r, hr, hpath, _⟩ := mem_outputsOf.mp ho
    exact hother r hr o.1 hpath (hplace ▸ h.located o ho)
  · intro r hr path hpath
    have ho := output_mem hr hpath
    obtain ⟨o', ho', hplace, hcontent⟩ := h.written _ ho
    obtain ⟨s, hs, hother, hcode⟩ := mem_outputsOf.mp ho'
    refine ⟨s, hs, o'.1, hother, ?_, ?_⟩
    · rw [h.located _ ho', h.located _ ho, hplace]
    · rw [hcode]
      exact read_of_locate (h.located _ ho) hcontent

theorem FileTree.startInFolders (h : t.isFolderAt t.workingFolder = true)
    (results : List BatchResult) : StartInFolders results t := by
  intro r _ path _
  rw [startOf]
  dsimp only
  split
  · rfl
  · exact h

/-- Two results with their output at one place, under paths that are not the same. -/
def twoSpellings : List BatchResult :=
  [⟨"a.js", "a.js", ⟨"1", [], false⟩, some "a.js"⟩,
    ⟨"b.js", "b.js", ⟨"2", [], false⟩, some "./a.js"⟩]

/-- Two results with outputs below one folder, and one without an output. -/
def siblings : List BatchResult :=
  [⟨"a.js", "a.js", ⟨"1", [], false⟩, some "out/a.js"⟩,
    ⟨"lib/b.js", "lib/b.js", ⟨"2", [], false⟩, some "out/lib/b.js"⟩,
    ⟨"c.js", "c.js", ⟨"3", [], false⟩, none⟩]

def oldTree : FileTree := .ofFiles ["home"] [(["out", "a.js"], "0".toUTF8)]

theorem siblings_apart : ¬SharesPath siblings := not_sharesPath_iff.mpr (by decide)

theorem oldTree_startOf (h : isRooted path = false) :
    (oldTree.startOf path).1 = ["home"] := by
  rw [startOf, h]
  rfl

theorem oldTree_places : oldTree.placeOf "out/a.js" = ["home", "out", "a.js"] ∧
    oldTree.placeOf "out/lib/b.js" = ["home", "out", "lib", "b.js"] := by
  rw [placeOf, placeOf, oldTree_startOf (by simp [isRooted]),
    oldTree_startOf (by simp [isRooted])]
  decide

theorem siblings_fitTogether : oldTree.FitTogether (outputsOf siblings) := by
  have hstart : (oldTree.startOf "out/a.js").1 = ["home"] :=
    oldTree_startOf (by simp [isRooted])
  have hstart' : (oldTree.startOf "out/lib/b.js").1 = ["home"] :=
    oldTree_startOf (by simp [isRooted])
  have hfolders : oldTree.foldersFor "out/a.js" = [["home", "out"]] := by
    rw [foldersFor, hstart]
    decide
  have hfolders' : oldTree.foldersFor "out/lib/b.js" = [["home", "out"], ["home", "out", "lib"]] := by
    rw [foldersFor, hstart']
    decide
  obtain ⟨hplace, hplace'⟩ := oldTree_places
  have hfits : oldTree.Fits "out/a.js" := by
    refine ⟨⟨["out"], "a.js", by decide, by decide⟩, ?_, ?_, ?_⟩
    · rw [hstart]
      decide
    · rw [hfolders]
      decide
    · rw [hplace]
      decide
  have hfits' : oldTree.Fits "out/lib/b.js" := by
    refine ⟨⟨["out", "lib"], "b.js", by decide, by decide⟩, ?_, ?_, ?_⟩
    · rw [hstart']
      decide
    · rw [hfolders']
      decide
    · rw [hplace']
      decide
  refine ⟨?_, ?_⟩
  · simp [outputsOf, siblings, hfits, hfits']
  · simp [outputsOf, siblings, hfolders, hfolders', hplace, hplace']

end ModuleBridge
